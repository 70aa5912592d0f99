import MapScript.Layout.Tree
import MapScript.Proofs.CleanScript

/-! The trees of scripts in which all is closed in order and no block stands inside of another: every
construct ends at the atom that closes it. -/

namespace MapScript

/-- Atoms that stand by themselves in a tree; the branches of a condition are among them. -/
def Atom.Kind.isSingle : Atom.Kind → Bool
  | .openBlock => false
  | .closeBlock => false
  | .ifThen => false
  | .endIf => false
  | .startRandom => false
  | .percentChance => false
  | .endRandom => false
  | _ => true

def Atom.Kind.inBlock (before : Bool) : Atom.Kind → Bool
  | .openBlock => true
  | .closeBlock => false
  | _ => before

def Atom.inBlock (before : Bool) : List Atom → Bool
  | [] => before
  | a :: rest => inBlock (a.kind.inBlock before) rest

open Atom (parts)

/-- Scripts that a tree can follow, at the top or in a block. -/
inductive Tidy : (inBlock : Bool) → List Atom → Prop
  | nil {b} : Tidy b []
  | single {b a rest} (ha : a.kind.isSingle = true) (hr : Tidy b rest) : Tidy b (a :: rest)
  | block {opener body closer rest} (ho : opener.kind = .openBlock) (hb : Tidy true body)
      (hc : closer.kind = .closeBlock) (hr : Tidy false rest) :
      Tidy false (opener :: (body ++ closer :: rest))
  | condition {b opener body closer rest} (ho : opener.kind = .ifThen) (hb : Tidy b body)
      (hc : closer.kind = .endIf) (hr : Tidy b rest) : Tidy b (opener :: (body ++ closer :: rest))
  | random {b opener leading chances closer rest} (ho : opener.kind = .startRandom)
      (hl : Tidy b leading) (hk : ∀ p ∈ chances, Atom.kind p.1 = .percentChance)
      (hp : ∀ p ∈ chances, Tidy b p.2) (hc : closer.kind = .endRandom) (hr : Tidy b rest) :
      Tidy b (opener :: (leading ++ (parts chances ++ closer :: rest)))

namespace Tidy

theorem append {b : Bool} {xs ys : List Atom} (hx : Tidy b xs) (hy : Tidy b ys) : Tidy b (xs ++ ys) := by
  induction hx with
  | nil => exact hy
  | single ha _ ih => exact .single ha (ih hy)
  | block ho hb hc _ _ ih =>
    rw [List.cons_append, List.append_assoc, List.cons_append]
    exact .block ho hb hc (ih hy)
  | condition ho hb hc _ _ ih =>
    rw [List.cons_append, List.append_assoc, List.cons_append]
    exact .condition ho hb hc (ih hy)
  | random ho hl hk hp hc _ _ _ ih =>
    rw [List.cons_append, List.append_assoc, List.append_assoc, List.cons_append]
    exact .random ho hl hk hp hc (ih hy)

theorem branches {b : Bool} {ps : List (Atom × List Atom)} (hk : ∀ p ∈ ps, p.1.kind.isSingle = true)
    (hp : ∀ p ∈ ps, Tidy b p.2) : Tidy b (parts ps) := by
  induction ps with
  | nil => exact .nil
  | cons p ps ih =>
    have hrest := ih (fun q hq => hk q (by simp [hq])) (fun q hq => hp q (by simp [hq]))
    exact .single (hk p (by simp)) ((hp p (by simp)).append hrest)

theorem no_closeBlock {b : Bool} {xs : List Atom} (h : Tidy b xs) (hb : b = true) :
    ∀ a ∈ xs, a.kind ≠ .closeBlock := by
  induction h with
  | nil => simp
  | single ha _ ih =>
    have hk : ∀ {k : Atom.Kind}, k.isSingle = true → k ≠ .closeBlock := by
      rintro k hs rfl
      simp [Atom.Kind.isSingle] at hs
    exact List.forall_mem_cons.2 ⟨hk ha, ih hb⟩
  | block => simp at hb
  | condition ho _ hc _ ihb ihr =>
    rw [List.forall_mem_cons, List.forall_mem_append, List.forall_mem_cons]
    exact ⟨by simp [ho], ihb hb, by simp [hc], ihr hb⟩
  | random ho _ hk _ hc _ ihl ihp ihr =>
    rw [List.forall_mem_cons, List.forall_mem_append, List.forall_mem_append, List.forall_mem_cons]
    refine ⟨by simp [ho], ihl hb, fun x hx => ?_, by simp [hc], ihr hb⟩
    obtain ⟨p, hp, hx⟩ := List.mem_flatMap.1 hx
    exact List.forall_mem_cons.2 ⟨by simp [hk p hp], ihp p hp hb⟩ x hx

end Tidy

namespace Atom

def Flat (b : Bool) : List Atom → Prop
  | [] => True
  | a :: rest => (a.kind = .openBlock → b = false) ∧ Flat (a.kind.inBlock b) rest

theorem flat_append {b : Bool} {xs ys : List Atom} :
    Flat b (xs ++ ys) ↔ Flat b xs ∧ Flat (inBlock b xs) ys := by
  induction xs generalizing b with
  | nil => simp [Flat, inBlock]
  | cons a xs ih => simp [Flat, inBlock, ih, and_assoc]

theorem inBlock_append (b : Bool) (xs ys : List Atom) :
    inBlock b (xs ++ ys) = inBlock (inBlock b xs) ys := by
  induction xs generalizing b with
  | nil => rfl
  | cons a xs ih => exact ih _

end Atom

open Atom (Flat)

theorem Tidy.parts_of_flat {b : Bool} {ps : List (Atom × List Atom)}
    (hk : ∀ p ∈ ps, ∀ b, p.1.kind.inBlock b = b)
    (hp : ∀ p ∈ ps, ∀ b, Flat b p.2 → Tidy b p.2 ∧ Atom.inBlock b p.2 = b) (h : Flat b (parts ps)) :
    (∀ p ∈ ps, Tidy b p.2) ∧ Atom.inBlock b (parts ps) = b := by
  induction ps with
  | nil => exact ⟨by simp, rfl⟩
  | cons p ps ih =>
    have hpk := hk p (by simp) b
    have hsplit : Flat b (p.1 :: (p.2 ++ parts ps)) := h
    rw [Flat, hpk, Atom.flat_append] at hsplit
    obtain ⟨-, hbody, hrest⟩ := hsplit
    obtain ⟨htidy, hsame⟩ := hp p (by simp) b hbody
    rw [hsame] at hrest
    obtain ⟨hall, hend⟩ := ih (fun q hq => hk q (by simp [hq])) (fun q hq => hp q (by simp [hq])) hrest
    refine ⟨List.forall_mem_cons.2 ⟨htidy, hall⟩, ?_⟩
    change Atom.inBlock b (p.1 :: (p.2 ++ parts ps)) = b
    rw [Atom.inBlock, hpk, Atom.inBlock_append, hsame, hend]

/-- A balanced script without blocks inside of blocks is tidy, and leaves blocks as they are. -/
theorem Tidy.of_balanced {atoms : List Atom} (h : Balanced atoms) (b : Bool) (hf : Flat b atoms) :
    Tidy b atoms ∧ Atom.inBlock b atoms = b := by
  induction h generalizing b with
  | nil => exact ⟨.nil, rfl⟩
  | @plain a rest ha _ ih =>
    have hs : a.kind.isSingle = true ∧ a.kind.inBlock b = b := by
      cases hk : a.kind <;> simp [hk, Atom.Kind.isMarker] at ha <;> exact ⟨rfl, rfl⟩
    obtain ⟨htidy, hend⟩ := ih b (hs.2 ▸ hf.2)
    exact ⟨.single hs.1 htidy, by rw [Atom.inBlock, hs.2, hend]⟩
  | @block opener body closer rest ho _ hc _ ihb ihr =>
    obtain rfl : b = false := hf.1 ho
    obtain ⟨-, hf⟩ := hf
    rw [ho] at hf
    obtain ⟨hbody, hrest⟩ := Atom.flat_append.1 hf
    obtain ⟨htb, hsb⟩ := ihb _ hbody
    rw [hsb, Flat, hc] at hrest
    obtain ⟨htr, hsr⟩ := ihr _ hrest.2
    refine ⟨.block ho htb hc htr, ?_⟩
    rw [Atom.inBlock, ho, Atom.inBlock_append, hsb, Atom.inBlock, hc, hsr]
    rfl
  | @condition opener body branches closer rest last ho _ hk _ hlk _ hc _ ihb ihp ihlp ihr =>
    have hopen : opener.kind.inBlock b = b := by rw [ho]; rfl
    have hclose : closer.kind.inBlock b = b := by rw [hc]; rfl
    rw [Flat, hopen] at hf
    -- Flatness is handed on from part to part, as each of them leaves blocks the way they were.
    obtain ⟨hbody, hf⟩ := Atom.flat_append.1 hf.2
    obtain ⟨htb, hsb⟩ := ihb _ hbody
    obtain ⟨hbranches, hf⟩ := Atom.flat_append.1 hf
    rw [hsb] at hbranches hf
    obtain ⟨htp, hsp⟩ := Tidy.parts_of_flat (fun p hp b => by rw [hk p hp]; rfl) ihp hbranches
    obtain ⟨hlast, hf⟩ := Atom.flat_append.1 hf
    rw [hsp] at hlast hf
    obtain ⟨htl, hsl⟩ := @Tidy.parts_of_flat b last.toList
      (fun p hp b => by rw [hlk p (Option.mem_toList.1 hp)]; rfl)
      (fun p hp => ihlp p (Option.mem_toList.1 hp)) hlast
    rw [hsl, Flat, hclose] at hf
    obtain ⟨htr, hsr⟩ := ihr _ hf.2
    have hmid : Tidy b (body ++ (parts branches ++ parts last.toList)) :=
      htb.append ((Tidy.branches (fun p hp => by rw [hk p hp]; rfl) htp).append
        (Tidy.branches (fun p hp => by rw [hlk p (Option.mem_toList.1 hp)]; rfl) htl))
    constructor
    · have hall := Tidy.condition ho hmid hc htr
      rwa [List.append_assoc, List.append_assoc] at hall
    · simp only [Atom.inBlock, Atom.inBlock_append, hopen, hclose, hsb, hsp, hsl, hsr]
  | @random opener body chances closer rest ho _ hk _ hc _ ihb ihp ihr =>
    have hopen : opener.kind.inBlock b = b := by rw [ho]; rfl
    have hclose : closer.kind.inBlock b = b := by rw [hc]; rfl
    rw [Flat, hopen] at hf
    obtain ⟨hbody, hf⟩ := Atom.flat_append.1 hf.2
    obtain ⟨htb, hsb⟩ := ihb _ hbody
    obtain ⟨hchances, hf⟩ := Atom.flat_append.1 hf
    rw [hsb] at hchances hf
    obtain ⟨htp, hsp⟩ := Tidy.parts_of_flat (fun p hp b => by rw [hk p hp]; rfl) ihp hchances
    rw [hsp, Flat, hclose] at hf
    obtain ⟨htr, hsr⟩ := ihr _ hf.2
    refine ⟨.random ho htb hk htp hc htr, ?_⟩
    simp only [Atom.inBlock, Atom.inBlock_append, hopen, hclose, hsb, hsp, hsr]

namespace Nesting

def braces (s : List Nesting) : Nat := s.countP fun n => n.opener == .brace

theorem inBlock_eq_of_braces {s : List Nesting} {b : Bool} (h : braces s = b.toNat) : inBlock s = b := by
  rw [Bool.eq_iff_iff, inBlock, List.any_eq_true, ← List.countP_pos_iff, ← braces, h]
  cases b <;> simp

theorem braces_cons_of_ne {n : Nesting} (s : List Nesting) (h : n.opener ≠ .brace) :
    braces (n :: s) = braces s := by
  simp [braces, h]

theorem braces_cons_brace (a : Atom) (s : List Nesting) : braces (⟨.brace, a⟩ :: s) = braces s + 1 := by
  simp [braces]

theorem Move.braces {s t : List Nesting} {a : Atom} {b : Bool} (h : Move s a t)
    (hs : Nesting.braces s = b.toNat) (hf : a.kind = .openBlock → inBlock s = false) :
    (a.kind = .openBlock → b = false) ∧ Nesting.braces t = (a.kind.inBlock b).toNat := by
  have hb : a.kind = .openBlock → b = false := fun hk => (inBlock_eq_of_braces hs).symm.trans (hf hk)
  refine ⟨hb, ?_⟩
  cases h with
  | plain hk =>
    rw [hs]
    cases ha : a.kind <;> simp [ha, Atom.Kind.isMarker] at hk <;> rfl
  | openBlock hk => rw [braces_cons_brace, hs, hb hk, hk]; rfl
  | closeBlock hk =>
    rw [braces_cons_brace] at hs
    have hle := b.toNat_le
    rw [hk]
    exact Nat.le_zero.1 (by omega)
  | ifThen hk => rw [braces_cons_of_ne _ (by simp), hs, hk]; rfl
  | startRandom hk => rw [braces_cons_of_ne _ (by simp), hs, hk]; rfl
  | elseIf hk hn =>
    rw [braces_cons_of_ne _ (by rintro h; simp [h, Opener.continues] at hn)] at hs
    rw [braces_cons_of_ne _ (by simp), hs, hk]; rfl
  | elseThen hk hn =>
    rw [braces_cons_of_ne _ (by rintro h; simp [h, Opener.continues] at hn)] at hs
    rw [braces_cons_of_ne _ (by simp), hs, hk]; rfl
  | endIf hk hn =>
    rw [braces_cons_of_ne _ (by rintro h; simp [h, Opener.isBranch] at hn)] at hs
    rw [hs, hk]; rfl
  | firstChance hk => rw [braces_cons_of_ne _ (by simp), hs, hk]; rfl
  | nextChance hk =>
    rw [braces_cons_of_ne _ (by simp)] at hs
    rw [braces_cons_of_ne _ (by simp), hs, hk]; rfl
  | endRandom hk =>
    rw [braces_cons_of_ne _ (by simp)] at hs
    rw [hs, hk]; rfl
  | endChance hk =>
    rw [braces_cons_of_ne _ (by simp), braces_cons_of_ne _ (by simp)] at hs
    rw [hs, hk]; rfl

/-- Where no block is opened inside of another, the stack holds no more than one brace. -/
theorem Passes.flat {s t : List Nesting} {atoms : List Atom} {b : Bool} (h : Passes s atoms t)
    (hs : Nesting.braces s = b.toNat) (hf : flat s atoms = true) : Atom.Flat b atoms := by
  induction h generalizing b with
  | nil => trivial
  | @cons s t u a rest hm _ ih =>
    have hstep : (step s a).1 = t := by rw [hm.step_eq]
    rw [Nesting.flat, hstep, Bool.and_eq_true] at hf
    obtain ⟨hopen, hbr⟩ := hm.braces hs fun hk => by simpa [hk] using hf.1
    exact ⟨hopen, ih hbr hf.2⟩

end Nesting

theorem Clean.tidy {source : Text} (h : Clean source) : Tidy false (Atom.parse 0 source) := by
  have hpasses := Nesting.passes_nil_iff_balanced.2 h.balanced
  have hflat : Atom.Flat false (Atom.parse 0 source) := hpasses.flat rfl h.flat
  exact (Tidy.of_balanced h.balanced false hflat).1

end MapScript

namespace MapScript.Layout

open Atom (parts)

def Skipped (opens closes : Atom.Kind) (xs : List Atom) : Prop :=
  ∀ depth ys, untilMatch opens closes depth (xs ++ ys)
    = (xs ++ (untilMatch opens closes depth ys).1, (untilMatch opens closes depth ys).2)

namespace Skipped

variable {opens closes : Atom.Kind}

theorem append {xs ys : List Atom} (hx : Skipped opens closes xs) (hy : Skipped opens closes ys) :
    Skipped opens closes (xs ++ ys) := by
  intro depth zs
  rw [List.append_assoc, hx, hy, List.append_assoc]

theorem cons {a : Atom} {xs : List Atom} (ho : a.kind ≠ opens) (hc : a.kind ≠ closes)
    (hx : Skipped opens closes xs) : Skipped opens closes (a :: xs) := by
  intro depth zs
  cases depth with
  | zero => simp [untilMatch, ho, hc, hx 0 zs]
  | succ depth => simp [untilMatch, ho, hc, hx (depth + 1) zs]

theorem nested {o c : Atom} {body rest : List Atom} (ho : o.kind = opens) (hc : c.kind = closes)
    (hne : opens ≠ closes) (hb : Skipped opens closes body) (hr : Skipped opens closes rest) :
    Skipped opens closes (o :: (body ++ c :: rest)) := by
  intro depth zs
  rw [List.cons_append, List.append_assoc, List.cons_append]
  cases depth with
  | zero => simp [untilMatch, ho, hc, hne, hb 1, hr 0 zs]
  | succ depth => simp [untilMatch, ho, hc, hne, hb (depth + 2), hr (depth + 1) zs]

/-- The search stops at the first atom that closes and was not skipped. -/
theorem untilMatch_eq {xs : List Atom} {c : Atom} (hx : Skipped opens closes xs) (hc : c.kind = closes)
    (rest : List Atom) : untilMatch opens closes 0 (xs ++ c :: rest) = (xs, c :: rest) := by
  rw [hx]
  simp [untilMatch, hc]

theorem parts {ps : List (Atom × List Atom)} (hk : ∀ p ∈ ps, p.1.kind ≠ opens ∧ p.1.kind ≠ closes)
    (hp : ∀ p ∈ ps, Skipped opens closes p.2) : Skipped opens closes (Atom.parts ps) := by
  induction ps with
  | nil =>
    intro depth zs
    rfl
  | cons p ps ih =>
    have hrest := ih (fun q hq => hk q (by simp [hq])) (fun q hq => hp q (by simp [hq]))
    exact cons (hk p (by simp)).1 (hk p (by simp)).2 ((hp p (by simp)).append hrest)

end Skipped

theorem skipped_of_tidy {b : Bool} {xs : List Atom} (h : Tidy b xs) :
    Skipped .ifThen .endIf xs ∧ Skipped .startRandom .endRandom xs := by
  induction h with
  | nil => exact ⟨fun _ _ => rfl, fun _ _ => rfl⟩
  | @single _ a rest ha _ ih =>
    have hk : ∀ k : Atom.Kind, k.isSingle = false → a.kind ≠ k := by
      rintro k hs rfl
      simp [ha] at hs
    exact ⟨.cons (hk _ rfl) (hk _ rfl) ih.1, .cons (hk _ rfl) (hk _ rfl) ih.2⟩
  | block ho _ hc _ ihb ihr =>
    exact ⟨.cons (by simp [ho]) (by simp [ho]) (ihb.1.append (.cons (by simp [hc]) (by simp [hc]) ihr.1)),
      .cons (by simp [ho]) (by simp [ho]) (ihb.2.append (.cons (by simp [hc]) (by simp [hc]) ihr.2))⟩
  | condition ho _ hc _ ihb ihr =>
    exact ⟨.nested ho hc (by decide) ihb.1 ihr.1,
      .cons (by simp [ho]) (by simp [ho]) (ihb.2.append (.cons (by simp [hc]) (by simp [hc]) ihr.2))⟩
  | @random _ opener leading chances closer rest ho _ hk _ hc _ ihl ihp ihr =>
    have hif : Skipped .ifThen .endIf (Atom.parts chances) :=
      .parts (fun p hp => by simp [hk p hp]) fun p hp => (ihp p hp).1
    have hrandom : Skipped .startRandom .endRandom (Atom.parts chances) :=
      .parts (fun p hp => by simp [hk p hp]) fun p hp => (ihp p hp).2
    refine ⟨.cons (by simp [ho]) (by simp [ho])
      (ihl.1.append (hif.append (.cons (by simp [hc]) (by simp [hc]) ihr.1))), ?_⟩
    rw [← List.append_assoc]
    exact .nested ho hc (by decide) (ihl.2.append hrandom) ihr.2

/-- Atoms that are not cut when the chances of a random group are looked for. -/
def Uncut (xs : List Atom) : Prop :=
  ∀ depth ys, cutChances depth (xs ++ ys) = (xs ++ (cutChances depth ys).1, (cutChances depth ys).2)

namespace Uncut

theorem append {xs ys : List Atom} (hx : Uncut xs) (hy : Uncut ys) : Uncut (xs ++ ys) := by
  intro depth zs
  rw [List.append_assoc, hx, hy, List.append_assoc]

theorem cons {a : Atom} {xs : List Atom} (hp : a.kind ≠ .percentChance) (ho : a.kind ≠ .startRandom)
    (hc : a.kind ≠ .endRandom) (hx : Uncut xs) : Uncut (a :: xs) := by
  intro depth zs
  simp [cutChances, hp, ho, hc, hx depth zs]

theorem inner {ps : List (Atom × List Atom)} (hk : ∀ p ∈ ps, p.1.kind = .percentChance)
    (hp : ∀ p ∈ ps, Uncut p.2) (depth : Nat) (ys : List Atom) :
    cutChances (depth + 1) (parts ps ++ ys)
      = (parts ps ++ (cutChances (depth + 1) ys).1, (cutChances (depth + 1) ys).2) := by
  induction ps with
  | nil => rfl
  | cons p ps ih =>
    have hrest := ih (fun q hq => hk q (by simp [hq])) (fun q hq => hp q (by simp [hq]))
    have hhead := hk p (by simp)
    change cutChances (depth + 1) (p.1 :: (p.2 ++ parts ps) ++ ys) = (p.1 :: (p.2 ++ parts ps) ++ _, _)
    rw [List.cons_append, List.append_assoc]
    simp [cutChances, hhead, hp p (by simp) (depth + 1), hrest]

end Uncut

theorem uncut_of_tidy {b : Bool} {xs : List Atom} (h : Tidy b xs) : Uncut xs := by
  induction h with
  | nil => exact fun _ _ => rfl
  | @single _ a rest ha _ ih =>
    have hk : ∀ k : Atom.Kind, k.isSingle = false → a.kind ≠ k := by
      rintro k hs rfl
      simp [ha] at hs
    exact .cons (hk _ rfl) (hk _ rfl) (hk _ rfl) ih
  | block ho _ hc _ ihb ihr =>
    exact .cons (by simp [ho]) (by simp [ho]) (by simp [ho])
      (ihb.append (.cons (by simp [hc]) (by simp [hc]) (by simp [hc]) ihr))
  | condition ho _ hc _ ihb ihr =>
    exact .cons (by simp [ho]) (by simp [ho]) (by simp [ho])
      (ihb.append (.cons (by simp [hc]) (by simp [hc]) (by simp [hc]) ihr))
  | @random _ opener leading chances closer rest ho _ hk _ hc _ ihl ihp ihr =>
    intro depth zs
    simp [cutChances, ho, hc, ihl (depth + 1), Uncut.inner hk ihp, ihr depth zs]

theorem cutChances_eq {leading : List Atom} {ps : List (Atom × List Atom)} (hl : Uncut leading)
    (hk : ∀ p ∈ ps, p.1.kind = .percentChance) (hp : ∀ p ∈ ps, Uncut p.2) :
    cutChances 0 (leading ++ parts ps) = (leading, ps) := by
  have hparts : cutChances 0 (parts ps) = ([], ps) := by
    induction ps with
    | nil => rfl
    | cons p ps ih =>
      have hrest := ih (fun q hq => hk q (by simp [hq])) (fun q hq => hp q (by simp [hq]))
      change cutChances 0 (p.1 :: (p.2 ++ parts ps)) = ([], p :: ps)
      simp [cutChances, hk p (by simp), hp p (by simp) 0, hrest]
  rw [hl, hparts, List.append_nil]

namespace Node

theorem group_single {a : Atom} (ha : a.kind.isSingle = true) (rest : List Atom) :
    group (a :: rest) = .single a :: group rest := by
  rw [group]
  cases hk : a.kind <;> simp_all [Atom.Kind.isSingle]

theorem group_block {o c : Atom} {body : List Atom} (ho : o.kind = .openBlock) (hb : Tidy true body)
    (hc : c.kind = .closeBlock) (rest : List Atom) :
    group (o :: (body ++ c :: rest)) = .block o (group body) (some c) :: group rest := by
  have hu : untilBrace (body ++ c :: rest) = (body, c :: rest) := by
    have hp : ∀ a ∈ body, (a.kind != .closeBlock) = true := by
      simpa using hb.no_closeBlock rfl
    rw [untilBrace, List.takeWhile_append_of_pos hp, List.dropWhile_append_of_pos hp]
    simp [hc]
  rw [group, ho]
  simp [hu]

theorem group_condition {b : Bool} {o c : Atom} {body : List Atom} (ho : o.kind = .ifThen)
    (hb : Tidy b body) (hc : c.kind = .endIf) (rest : List Atom) :
    group (o :: (body ++ c :: rest)) = .condition o (group body) (some c) :: group rest := by
  have hu := (skipped_of_tidy hb).1.untilMatch_eq hc rest
  rw [group, ho]
  simp [hu]

theorem group_random {b : Bool} {o c : Atom} {leading : List Atom} {ps : List (Atom × List Atom)}
    (ho : o.kind = .startRandom) (hl : Tidy b leading) (hk : ∀ p ∈ ps, p.1.kind = .percentChance)
    (hp : ∀ p ∈ ps, Tidy b p.2) (hc : c.kind = .endRandom) (rest : List Atom) :
    group (o :: (leading ++ (parts ps ++ c :: rest)))
      = .random o (group leading) (ps.map fun p => .chance p.1 (group p.2)) (some c) :: group rest := by
  have hs : Skipped .startRandom .endRandom (leading ++ parts ps) :=
    (skipped_of_tidy hl).2.append
      (.parts (fun p h => by simp [hk p h]) fun p h => (skipped_of_tidy (hp p h)).2)
  have hu := hs.untilMatch_eq hc rest
  have hcut := cutChances_eq (uncut_of_tidy hl) hk fun p h => uncut_of_tidy (hp p h)
  rw [← List.append_assoc, group, ho]
  simp only [List.attach_map_val (f := fun p : Atom × List Atom => Node.chance p.1 (group p.2)), hu,
    hcut, List.head?_cons, List.tail_cons]

end Node

end MapScript.Layout
