import MapScript.Proofs.Rereading
import MapScript.Proofs.Grouping

/-! The layout matches braces without counting them, and the check of nesting keeps a stack. They agree where no block
stands inside of another, and only there. -/

namespace MapScript

namespace Atom

/-- No block is opened inside of another, and none is open at the end. -/
def Shallow (atoms : List Atom) : Prop := Flat false atoms ∧ inBlock false atoms = false

namespace Shallow

theorem nil : Shallow [] := ⟨trivial, rfl⟩

theorem append {xs ys : List Atom} (hx : Shallow xs) (hy : Shallow ys) : Shallow (xs ++ ys) := by
  refine ⟨flat_append.2 ⟨hx.1, ?_⟩, ?_⟩
  · rw [hx.2]
    exact hy.1
  · rw [inBlock_append, hx.2]
    exact hy.2

theorem cons {a : Atom} {xs : List Atom} (ha : a.kind ≠ .openBlock) (hx : Shallow xs) : Shallow (a :: xs) := by
  have hopen : a.kind.inBlock false = false := by
    cases hk : a.kind <;> first | rfl | exact absurd hk ha
  refine ⟨⟨fun hk => absurd hk ha, ?_⟩, ?_⟩
  · rw [hopen]
    exact hx.1
  · rw [inBlock, hopen]
    exact hx.2

theorem closer {closer : Option Atom} (h : ∀ c ∈ closer, Atom.kind c ≠ .openBlock) : Shallow closer.toList := by
  cases closer with
  | none => exact nil
  | some c => exact cons (h c rfl) nil

theorem parts {ps : List (Atom × List Atom)} (hk : ∀ p ∈ ps, p.1.kind ≠ .openBlock) (hp : ∀ p ∈ ps, Shallow p.2) :
    Shallow (ps.flatMap fun p => p.1 :: p.2) := by
  induction ps with
  | nil => exact nil
  | cons p ps ih =>
    have hrest := ih (fun q hq => hk q (by simp [hq])) (fun q hq => hp q (by simp [hq]))
    exact (cons (hk p (by simp)) (hp p (by simp))).append hrest

end Shallow

theorem inBlock_of_mem {xs : List Atom} (hc : ∀ a ∈ xs, a.kind ≠ .closeBlock) {b : Bool}
    (h : b = true ∨ ∃ a ∈ xs, a.kind = .openBlock) : inBlock b xs = true := by
  induction xs generalizing b with
  | nil => simpa [inBlock] using h
  | cons a xs ih =>
    refine ih (fun x hx => hc x (by simp [hx])) ?_
    rcases h with rfl | ⟨x, hx, hk⟩
    · refine .inl ?_
      cases hk : a.kind <;> first | rfl | exact absurd hk (hc a (by simp))
    · rcases List.mem_cons.1 hx with rfl | hx
      · exact .inl (by rw [hk]; rfl)
      · exact .inr ⟨x, hx, hk⟩

theorem Shallow.no_openBlock {xs : List Atom} (h : Shallow xs) (hc : ∀ a ∈ xs, a.kind ≠ .closeBlock) :
    ∀ a ∈ xs, a.kind ≠ .openBlock := by
  intro a ha hk
  have hopen := inBlock_of_mem hc (.inr ⟨a, ha, hk⟩) (b := false)
  rw [h.2] at hopen
  cases hopen

theorem flat_of_no_brace {xs : List Atom} (h : ∀ a ∈ xs, a.kind ≠ .openBlock ∧ a.kind ≠ .closeBlock) (b : Bool) :
    Flat b xs ∧ inBlock b xs = b := by
  induction xs with
  | nil => exact ⟨trivial, rfl⟩
  | cons a xs ih =>
    obtain ⟨ho, hc⟩ := h a (by simp)
    have hsame : a.kind.inBlock b = b := by
      cases hk : a.kind <;> first | rfl | exact absurd hk ho | exact absurd hk hc
    obtain ⟨hflat, hin⟩ := ih fun x hx => h x (by simp [hx])
    refine ⟨⟨fun hk => absurd hk ho, ?_⟩, ?_⟩
    · rwa [hsame]
    · rwa [inBlock, hsame]

theorem Shallow.block {opener closer : Atom} {body rest : List Atom} (ho : opener.kind = .openBlock)
    (hb : ∀ a ∈ body, a.kind ≠ .openBlock ∧ a.kind ≠ .closeBlock) (hc : closer.kind = .closeBlock)
    (hr : Shallow rest) : Shallow (opener :: (body ++ closer :: rest)) := by
  obtain ⟨hflat, hin⟩ := flat_of_no_brace hb true
  refine ⟨⟨fun _ => rfl, ?_⟩, ?_⟩
  · rw [ho, flat_append]
    refine ⟨hflat, fun hk => ?_, ?_⟩
    · rw [hc] at hk
      cases hk
    · rw [hc]
      exact hr.1
  · rw [inBlock, ho, inBlock_append, inBlock, hc]
    exact hr.2

end Atom

namespace Layout.Node

open Atom (Shallow)

theorem cut_eq {inner after rest : List Atom} (h : inner ++ after = rest) :
    rest = inner ++ (after.head?.toList ++ after.tail) := by
  rw [← h]
  cases after <;> rfl

theorem lacking_of_mem {k : Atom.Kind} {ps : List (Atom × List Node)}
    (h : allLacking k (ps.map fun p => .chance p.1 p.2) = 0) : ∀ p ∈ ps, allLacking k p.2 = 0 := by
  induction ps with
  | nil => simp
  | cons p ps ih =>
    rw [List.map_cons, allLacking, lacking, Nat.add_eq_zero_iff] at h
    exact List.forall_mem_cons.2 ⟨h.1, ih h.2⟩

/-- Where no block lacks a brace, no block stands inside of another. -/
theorem shallow_of_lacking {atoms : List Atom} (h : allLacking .closeBlock (group atoms) = 0) : Shallow atoms := by
  fun_induction group atoms with
  | case1 => exact .nil
  | case2 a rest hk ihb ihr =>
    simp only [allLacking, lacking, Nat.add_eq_zero_iff, true_and] at h
    obtain ⟨⟨hbody, hcloser⟩, hrest⟩ := h
    have hno : ∀ x ∈ (untilBrace rest).1, x.kind ≠ .closeBlock := fun x hx => by
      simpa using List.mem_takeWhile_imp hx
    have hcut := cut_eq (untilBrace_append rest)
    cases hhead : (untilBrace rest).2.head? with
    | none => simp [hhead] at hcloser
    | some c =>
      -- A block inside would need a brace, and the body stops at the first one.
      have hall := Shallow.block hk (fun x hx => ⟨(ihb hbody).no_openBlock hno x hx, hno x hx⟩)
        (kind_of_untilBrace hhead) (ihr hrest)
      rw [hhead] at hcut
      rwa [hcut]
  | case3 a rest hk ihb ihr =>
    simp only [allLacking, lacking, Nat.add_eq_zero_iff] at h
    have hcloser : Shallow (untilMatch .ifThen .endIf 0 rest).2.head?.toList :=
      .closer fun c hc => by simp [kind_of_untilMatch hc]
    rw [cut_eq (untilMatch_append .ifThen .endIf 0 rest)]
    exact .cons (by simp [hk]) ((ihb h.1).append (hcloser.append (ihr h.2)))
  | case4 a rest hk ihl ihc ihr =>
    rw [attach_chances] at h
    simp only [allLacking, lacking, Nat.add_eq_zero_iff] at h
    obtain ⟨⟨hleading, hchances, -⟩, hrest⟩ := h
    have hparts :
        Shallow ((cutChances 0 (untilMatch .startRandom .endRandom 0 rest).1).2.flatMap fun c => c.1 :: c.2) :=
      .parts (fun c hc => by simp [kind_of_cutChances hc]) fun c hc =>
        ihc ⟨c, hc⟩ (lacking_of_mem hchances _ (List.mem_map_of_mem hc))
    have hcloser : Shallow (untilMatch .startRandom .endRandom 0 rest).2.head?.toList :=
      .closer fun c hc => by simp [kind_of_untilMatch hc]
    have hbody := (ihl hleading).append hparts
    rw [cutChances_append] at hbody
    rw [cut_eq (untilMatch_append .startRandom .endRandom 0 rest)]
    exact .cons (by simp [hk]) (hbody.append (hcloser.append (ihr hrest)))
  | case5 a rest hnb _ _ ih =>
    exact .cons hnb (ih (by simpa [allLacking, lacking] using h))

theorem allWritten_of_tidy {b : Bool} {atoms : List Atom} (h : Tidy b atoms) : allWritten (group atoms) = atoms := by
  induction h with
  | nil => rw [group, allWritten]
  | single ha _ ih => rw [group_single ha, allWritten, written, ih, List.singleton_append]
  | block ho hb hc _ ihb ih =>
    rw [group_block ho hb hc, allWritten, written, ihb, ih]
    simp
  | condition ho hb hc _ ihb ih =>
    rw [group_condition ho hb hc, allWritten, written, ihb, ih]
    simp
  | @random _ opener leading chances closer rest ho hl hk hp hc _ ihl ihp ih =>
    have hchances : allWritten (chances.map fun p => .chance p.1 (group p.2)) = Atom.parts chances := by
      have hmap := allWritten_chances (chances.map fun p => (p.1, group p.2))
      rw [List.map_map, List.flatMap_map] at hmap
      exact hmap.trans (List.flatMap_congr fun p hm => congrArg (List.cons p.1) (ihp p hm))
    rw [group_random ho hl hk hp hc, allWritten, written, ihl, hchances, ih]
    simp

end Layout.Node

theorem Nesting.Passes.flat_of_flat {s t : List Nesting} {atoms : List Atom} {b : Bool} (h : Passes s atoms t)
    (hs : Nesting.braces s = b.toNat) (hf : Atom.Flat b atoms) : Nesting.flat s atoms = true := by
  induction h generalizing b with
  | nil => rfl
  | @cons s t u a rest hm _ ih =>
    have hstep : (step s a).1 = t := by rw [hm.step_eq]
    have hopen : a.kind = .openBlock → inBlock s = false := fun hk => (inBlock_eq_of_braces hs).trans (hf.1 hk)
    obtain ⟨-, hbr⟩ := hm.braces hs hopen
    rw [Nesting.flat, hstep, ih hbr hf.2, Bool.and_true]
    by_cases hk : a.kind = .openBlock
    · simp [hopen hk]
    · simp [hk]

namespace Layout

open Node (allAtoms allWritten allLacking)

theorem countP_kind (k : Atom.Kind) (atoms : List Atom) :
    atoms.countP (·.kind = k) = (atoms.map Atom.kind).count k := by
  simp [List.count, List.countP_map, Function.comp_def, beq_eq_decide]

theorem countP_format {o : Options} (ho : o.Usual) {source : Text}
    (hf : ∀ item ∈ Item.parse 0 source, item.flaws = []) {k : Atom.Kind} (hk : k ≠ .other) :
    (Atom.parse 0 (format o source)).countP (·.kind = k)
      = ((allWritten (Node.group (Atom.parse 0 source))).map Atom.kind).count k := by
  rw [countP_kind, ← kinds_format ho hf, List.count_filter (by simpa using hk)]

theorem count_written (k : Atom.Kind) (atoms : List Atom) :
    ((allWritten (Node.group atoms)).map Atom.kind).count k =
      (atoms.map Atom.kind).count k
        + (if Atom.Kind.closeBlock == k then allLacking .closeBlock (Node.group atoms) else 0)
        + (if Atom.Kind.endRandom == k then allLacking .endRandom (Node.group atoms) else 0) := by
  have hfilled := (Node.filled_written (Node.grown_group atoms)).flatMap (f := fun a => [a.kind])
    (u := .closeBlock) (v := .endRandom) rfl rfl
  rw [Node.allAtoms_group] at hfilled
  rw [List.map_eq_flatMap, List.map_eq_flatMap]
  exact hfilled.count k

/-- The layout of a script without flaws in which all is closed in order puts no atom in that closes, exactly if no
block of the script stands inside of another. -/
theorem closers_kept_iff_flat {o : Options} (ho : o.Usual) {source : Text}
    (hf : ∀ item ∈ Item.parse 0 source, item.flaws = []) (hp : Nesting.problems [] (Atom.parse 0 source) = [])
    (ha : Nesting.after [] (Atom.parse 0 source) = []) :
    (∀ k ∈ [Atom.Kind.closeBlock, .endIf, .endRandom],
      (Atom.parse 0 (format o source)).countP (·.kind = k) = (Atom.parse 0 source).countP (·.kind = k)) ↔
    Nesting.flat [] (Atom.parse 0 source) = true := by
  have hpasses := Nesting.passes_iff.2 ⟨hp, ha⟩
  constructor
  · intro h
    have hbraces := h .closeBlock (by simp)
    rw [countP_format ho hf (by decide), countP_kind, count_written] at hbraces
    have hlacking : allLacking .closeBlock (Node.group (Atom.parse 0 source)) = 0 := by simpa using hbraces
    exact hpasses.flat_of_flat rfl (Node.shallow_of_lacking hlacking).1
  · intro h k hk
    have hother : k ≠ .other := by
      rintro rfl
      simp at hk
    have hbalanced := Nesting.passes_nil_iff_balanced.1 hpasses
    have htidy := (Tidy.of_balanced hbalanced false (hpasses.flat rfl h)).1
    rw [countP_format ho hf hother, Node.allWritten_of_tidy htidy, countP_kind]

def branched : Text :=
  "if A create_object B \x7b \x7d else start_random percent_chance 5 #define C end_random endif /**/*/"

theorem branched_closers_kept : Options.Usual {} ∧ (∀ item ∈ Item.parse 0 branched, item.flaws = []) ∧
    Nesting.problems [] (Atom.parse 0 branched) = [] ∧ Nesting.after [] (Atom.parse 0 branched) = [] ∧
    Nesting.flat [] (Atom.parse 0 branched) = true ∧
    ∀ k ∈ [Atom.Kind.closeBlock, .endIf, .endRandom],
      (Atom.parse 0 (format {} branched)).countP (·.kind = k) = (Atom.parse 0 branched).countP (·.kind = k) := by
  have husual : Options.Usual {} := .inl rfl
  obtain ⟨hsound, hproblems, hafter, hflat⟩ : (∀ item ∈ Item.parse 0 branched, item.flaws = []) ∧
      Nesting.problems [] (Atom.parse 0 branched) = [] ∧ Nesting.after [] (Atom.parse 0 branched) = [] ∧
      Nesting.flat [] (Atom.parse 0 branched) = true := by
    decide +kernel
  exact ⟨husual, hsound, hproblems, hafter, hflat, (closers_kept_iff_flat husual hsound hproblems hafter).2 hflat⟩

def nestedBlocks : Text := "\x7b \x7b \x7d \x7d"

/-- The outer block ends at the first brace that closes, so that the inner one is closed by a new brace and the last
brace closes nothing. -/
theorem nestedBlocks_gain_brace : (∀ item ∈ Item.parse 0 nestedBlocks, item.flaws = []) ∧
    Nesting.problems [] (Atom.parse 0 nestedBlocks) = [] ∧ Nesting.after [] (Atom.parse 0 nestedBlocks) = [] ∧
    (Atom.parse 0 nestedBlocks).countP (·.kind = .closeBlock) = 2 ∧
    (Atom.parse 0 (format {} nestedBlocks)).countP (·.kind = .closeBlock) = 3 := by
  decide +kernel

end Layout

end MapScript
