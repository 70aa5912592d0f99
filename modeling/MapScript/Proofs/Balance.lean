import Mathlib.Data.List.Basic
import MapScript.Nesting

/-! The scripts in which all constructs are closed in order, as a grammar, and the stack of open constructs as
the machine that recognises them. -/

namespace MapScript

def Atom.Kind.isMarker : Atom.Kind → Bool
  | .openBlock => true
  | .closeBlock => true
  | .ifThen => true
  | .elseIf => true
  | .elseThen => true
  | .endIf => true
  | .startRandom => true
  | .percentChance => true
  | .endRandom => true
  | _ => false

def Atom.parts (ps : List (Atom × List Atom)) : List Atom := ps.flatMap fun p => p.1 :: p.2

open Atom (parts)

/-- The grammar of scripts with nothing left open. -/
inductive Balanced : List Atom → Prop
  | nil : Balanced []
  | plain {a rest} (ha : a.kind.isMarker = false) (hr : Balanced rest) : Balanced (a :: rest)
  | block {opener body closer rest} (ho : opener.kind = .openBlock) (hb : Balanced body)
      (hc : closer.kind = .closeBlock) (hr : Balanced rest) :
      Balanced (opener :: (body ++ (closer :: rest)))
  | condition {opener body branches closer rest} {last : Option (Atom × List Atom)}
      (ho : opener.kind = .ifThen) (hb : Balanced body)
      (hk : ∀ p ∈ branches, Atom.kind p.1 = .elseIf) (hp : ∀ p ∈ branches, Balanced p.2)
      (hlk : ∀ p ∈ last, p.1.kind = .elseThen) (hlp : ∀ p ∈ last, Balanced p.2)
      (hc : closer.kind = .endIf) (hr : Balanced rest) :
      Balanced (opener :: (body ++ (parts branches ++ (parts last.toList ++ (closer :: rest)))))
  | random {opener body chances closer rest} (ho : opener.kind = .startRandom) (hb : Balanced body)
      (hk : ∀ p ∈ chances, Atom.kind p.1 = .percentChance) (hp : ∀ p ∈ chances, Balanced p.2)
      (hc : closer.kind = .endRandom) (hr : Balanced rest) :
      Balanced (opener :: (body ++ (parts chances ++ (closer :: rest))))

namespace Nesting

def after (stack : List Nesting) : List Atom → List Nesting
  | [] => stack
  | a :: rest => after (step stack a).1 rest

def problems (stack : List Nesting) : List Atom → List Diagnostic
  | [] => []
  | a :: rest => (step stack a).2.toList ++ problems (step stack a).1 rest

theorem problems_append (stack : List Nesting) (xs ys : List Atom) :
    problems stack (xs ++ ys) = problems stack xs ++ problems (after stack xs) ys := by
  induction xs generalizing stack with
  | nil => rfl
  | cons a xs ih => simp [problems, after, ih]

/-- What an atom that fits does to what is open. -/
inductive Move : List Nesting → Atom → List Nesting → Prop
  | plain {s a} (h : a.kind.isMarker = false) : Move s a s
  | openBlock {s a} (h : a.kind = .openBlock) : Move s a (⟨.brace, a⟩ :: s)
  | ifThen {s a} (h : a.kind = .ifThen) : Move s a (⟨.ifThen, a⟩ :: s)
  | startRandom {s a} (h : a.kind = .startRandom) : Move s a (⟨.startRandom, a⟩ :: s)
  | closeBlock {o s a} (h : a.kind = .closeBlock) : Move (⟨.brace, o⟩ :: s) a s
  | elseIf {n s a} (h : a.kind = .elseIf) (hn : n.opener.continues = true) :
      Move (n :: s) a (⟨.elseIf, a⟩ :: s)
  | elseThen {n s a} (h : a.kind = .elseThen) (hn : n.opener.continues = true) :
      Move (n :: s) a (⟨.elseThen, a⟩ :: s)
  | endIf {n s a} (h : a.kind = .endIf) (hn : n.opener.isBranch = true) : Move (n :: s) a s
  | firstChance {o s a} (h : a.kind = .percentChance) :
      Move (⟨.startRandom, o⟩ :: s) a (⟨.percentChance, a⟩ :: ⟨.startRandom, o⟩ :: s)
  | nextChance {c o s a} (h : a.kind = .percentChance) :
      Move (⟨.percentChance, c⟩ :: ⟨.startRandom, o⟩ :: s) a
        (⟨.percentChance, a⟩ :: ⟨.startRandom, o⟩ :: s)
  | endRandom {o s a} (h : a.kind = .endRandom) : Move (⟨.startRandom, o⟩ :: s) a s
  | endChance {c o s a} (h : a.kind = .endRandom) :
      Move (⟨.percentChance, c⟩ :: ⟨.startRandom, o⟩ :: s) a s

theorem Move.step_eq {s t : List Nesting} {a : Atom} (h : Move s a t) : step s a = (t, none) := by
  cases h with
  | plain h => cases a <;> simp [Atom.kind, Atom.Kind.isMarker] at h <;> rfl
  | openBlock h =>
    cases a <;> simp [Atom.kind] at h
    rfl
  | ifThen h =>
    cases a <;> simp [Atom.kind] at h
    rfl
  | startRandom h =>
    cases a <;> simp [Atom.kind] at h
    rfl
  | closeBlock h =>
    cases a <;> simp [Atom.kind] at h
    rfl
  | elseIf h hn =>
    cases a <;> simp [Atom.kind] at h
    simp [step, branch, close, pop?, hn]
  | elseThen h hn =>
    cases a <;> simp [Atom.kind] at h
    simp [step, branch, close, pop?, hn]
  | endIf h hn =>
    cases a <;> simp [Atom.kind] at h
    simp [step, close, pop?, hn]
  | firstChance h =>
    cases a <;> simp [Atom.kind] at h
    rfl
  | nextChance h =>
    cases a <;> simp [Atom.kind] at h
    rfl
  | endRandom h =>
    cases a <;> simp [Atom.kind] at h
    rfl
  | endChance h =>
    cases a <;> simp [Atom.kind] at h
    rfl

theorem close_cases {sort : Opener → Bool} {name : Text} {a : Atom} {s : List Nesting}
    (h : (close sort name a s).2 = none) :
    ∃ n r, s = n :: r ∧ sort n.opener = true ∧ close sort name a s = (r, none) := by
  cases s with
  | nil => simp [close, pop?] at h
  | cons n r =>
    by_cases hn : sort n.opener = true
    · exact ⟨n, r, rfl, hn, by simp [close, pop?, hn]⟩
    · simp [close, pop?, hn] at h

/-- Under a branch of a random group, if there is one on top, is the group. -/
theorem closeChance_cases {s r : List Nesting} {o : Atom} (h : closeChance s = ⟨.startRandom, o⟩ :: r) :
    s = ⟨.startRandom, o⟩ :: r ∨ ∃ c, s = ⟨.percentChance, c⟩ :: ⟨.startRandom, o⟩ :: r := by
  cases s with
  | nil => simp [closeChance, pop?] at h
  | cons n s =>
    obtain ⟨opener, c⟩ := n
    by_cases hn : opener = .percentChance
    · subst hn
      exact .inr ⟨c, by simpa [closeChance, pop?] using h⟩
    · exact .inl (by simpa [closeChance, pop?, hn] using h)

theorem move_of_step {s : List Nesting} {a : Atom} (h : (step s a).2 = none) :
    Move s a (step s a).1 := by
  cases a with
  | openBlock w => exact .openBlock rfl
  | ifThen w v => exact .ifThen rfl
  | startRandom w => exact .startRandom rfl
  | closeBlock w =>
    obtain ⟨⟨opener, o⟩, r, rfl, hn, hc⟩ := close_cases h
    obtain rfl : opener = .brace := by simpa using hn
    exact .closeBlock rfl
  | elseIf w v =>
    obtain ⟨n, r, rfl, hn, hc⟩ := close_cases h
    rw [step, branch, hc]
    exact .elseIf rfl hn
  | elseThen w =>
    obtain ⟨n, r, rfl, hn, hc⟩ := close_cases h
    rw [step, branch, hc]
    exact .elseThen rfl hn
  | endIf w =>
    obtain ⟨n, r, rfl, hn, hc⟩ := close_cases h
    rw [step, hc]
    exact .endIf rfl hn
  | percentChance w v =>
    simp only [step, chance] at h ⊢
    split at h
    · next o r hs =>
      rw [hs]
      obtain rfl | ⟨c, rfl⟩ := closeChance_cases hs
      · exact .firstChance rfl
      · exact .nextChance rfl
    · simp at h
  | endRandom w =>
    obtain ⟨⟨opener, o⟩, r, hs, hn, hc⟩ := close_cases h
    obtain rfl : opener = .startRandom := by simpa using hn
    rw [step, hc]
    obtain rfl | ⟨c, rfl⟩ := closeChance_cases hs
    · exact .endRandom rfl
    · exact .endChance rfl
  | const => exact .plain rfl
  | define => exact .plain rfl
  | undefine => exact .plain rfl
  | sectionMark => exact .plain rfl
  | command => exact .plain rfl
  | comment => exact .plain rfl
  | other => exact .plain rfl

inductive Passes : List Nesting → List Atom → List Nesting → Prop
  | nil {s} : Passes s [] s
  | cons {s t u a rest} (head : Move s a t) (tail : Passes t rest u) : Passes s (a :: rest) u

theorem passes_iff {s t : List Nesting} {atoms : List Atom} :
    Passes s atoms t ↔ problems s atoms = [] ∧ after s atoms = t := by
  induction atoms generalizing s with
  | nil =>
    constructor
    · rintro ⟨⟩
      exact ⟨rfl, rfl⟩
    · rintro ⟨_, rfl⟩
      exact .nil
  | cons a rest ih =>
    constructor
    · rintro (_ | ⟨hm, hp⟩)
      simpa [problems, after, hm.step_eq] using ih.1 hp
    · rintro ⟨hp, ht⟩
      simp only [problems, List.append_eq_nil_iff, Option.toList_eq_nil_iff] at hp
      exact .cons (move_of_step hp.1) (ih.2 ⟨hp.2, ht⟩)

theorem Passes.append {s t u : List Nesting} {xs ys : List Atom} (hx : Passes s xs t)
    (hy : Passes t ys u) : Passes s (xs ++ ys) u := by
  induction hx with
  | nil => exact hy
  | cons hm _ ih => exact .cons hm (ih hy)

theorem passes_branches {n : Nesting} {s : List Nesting} {ps : List (Atom × List Atom)}
    (hn : n.opener.continues = true) (hk : ∀ p ∈ ps, p.1.kind = .elseIf)
    (hp : ∀ p ∈ ps, ∀ t, Passes t p.2 t) :
    ∃ m : Nesting, m.opener.continues = true ∧ Passes (n :: s) (parts ps) (m :: s) := by
  induction ps generalizing n with
  | nil => exact ⟨n, hn, .nil⟩
  | cons p ps ih =>
    have hmove : Move (n :: s) p.1 (⟨.elseIf, p.1⟩ :: s) := .elseIf (hk p (by simp)) hn
    have hbody : Passes (⟨.elseIf, p.1⟩ :: s) p.2 (⟨.elseIf, p.1⟩ :: s) := hp p (by simp) _
    obtain ⟨m, hm, hrest⟩ := @ih ⟨.elseIf, p.1⟩ rfl (fun q hq => hk q (by simp [hq]))
      (fun q hq => hp q (by simp [hq]))
    exact ⟨m, hm, .cons hmove (hbody.append hrest)⟩

theorem passes_last {n : Nesting} {s : List Nesting} {last : Option (Atom × List Atom)}
    (hn : n.opener.continues = true) (hk : ∀ p ∈ last, p.1.kind = .elseThen)
    (hp : ∀ p ∈ last, ∀ t, Passes t p.2 t) :
    ∃ m : Nesting, m.opener.isBranch = true ∧ Passes (n :: s) (parts last.toList) (m :: s) := by
  cases last with
  | none =>
    refine ⟨n, ?_, .nil⟩
    cases ho : n.opener <;> simp_all [Opener.continues, Opener.isBranch]
  | some p =>
    have hbody : Passes (⟨.elseThen, p.1⟩ :: s) p.2 (⟨.elseThen, p.1⟩ :: s) := hp p rfl _
    exact ⟨⟨.elseThen, p.1⟩, rfl, .cons (.elseThen (hk p rfl) hn) (by simpa [parts] using hbody)⟩

inductive InRandom (s : List Nesting) : List Nesting → Prop
  | group {o} : InRandom s (⟨.startRandom, o⟩ :: s)
  | chance {c o} : InRandom s (⟨.percentChance, c⟩ :: ⟨.startRandom, o⟩ :: s)

theorem passes_chances {s t : List Nesting} {ps : List (Atom × List Atom)} (ht : InRandom s t)
    (hk : ∀ p ∈ ps, p.1.kind = .percentChance) (hp : ∀ p ∈ ps, ∀ t, Passes t p.2 t) :
    ∃ u, InRandom s u ∧ Passes t (parts ps) u := by
  induction ps generalizing t with
  | nil => exact ⟨t, ht, .nil⟩
  | cons p ps ih =>
    obtain ⟨o, hmove⟩ : ∃ o, Move t p.1 (⟨.percentChance, p.1⟩ :: ⟨.startRandom, o⟩ :: s) := by
      cases ht with
      | @group o => exact ⟨o, .firstChance (hk p (by simp))⟩
      | @chance c o => exact ⟨o, .nextChance (hk p (by simp))⟩
    obtain ⟨u, hu, hrest⟩ := ih (.chance (c := p.1) (o := o)) (fun q hq => hk q (by simp [hq]))
      (fun q hq => hp q (by simp [hq]))
    exact ⟨u, hu, .cons hmove ((hp p (by simp) _).append hrest)⟩

theorem passes_of_balanced {atoms : List Atom} (h : Balanced atoms) (s : List Nesting) :
    Passes s atoms s := by
  induction h generalizing s with
  | nil => exact .nil
  | plain ha _ ih => exact .cons (.plain ha) (ih s)
  | block ho _ hc _ ihb ihr =>
    exact .cons (.openBlock ho) ((ihb _).append (.cons (.closeBlock hc) (ihr s)))
  | @condition opener _ _ _ _ _ ho _ hk _ hlk _ hc _ ihb ihp ihl ihr =>
    -- Each branch takes the place of the one before it, so the end closes the last of them.
    obtain ⟨m, hm, hbranches⟩ := @passes_branches ⟨.ifThen, opener⟩ s _ rfl hk ihp
    obtain ⟨l, hl, hlast⟩ := @passes_last m s _ hm hlk ihl
    exact .cons (.ifThen ho) ((ihb _).append (hbranches.append (hlast.append
      (.cons (.endIf hc hl) (ihr s)))))
  | @random opener _ _ closer _ ho _ hk _ hc _ ihb ihp ihr =>
    obtain ⟨u, hu, hchances⟩ := @passes_chances s _ _ (.group (o := opener)) hk ihp
    have hclose : Move u closer s := by
      cases hu with
      | group => exact .endRandom hc
      | chance => exact .endChance hc
    exact .cons (.startRandom ho) ((ihb _).append (hchances.append (.cons hclose (ihr s))))

inductive BlockTail : List Atom → Prop
  | mk {body closer} (hb : Balanced body) (hc : closer.kind = .closeBlock) : BlockTail (body ++ [closer])

inductive BranchTail : List Atom → Prop
  | mk {body branches closer} {last : Option (Atom × List Atom)} (hb : Balanced body)
      (hk : ∀ p ∈ branches, Atom.kind p.1 = .elseIf) (hp : ∀ p ∈ branches, Balanced p.2)
      (hlk : ∀ p ∈ last, p.1.kind = .elseThen) (hlp : ∀ p ∈ last, Balanced p.2)
      (hc : closer.kind = .endIf) :
      BranchTail (body ++ (parts branches ++ (parts last.toList ++ [closer])))

inductive LastTail : List Atom → Prop
  | mk {body closer} (hb : Balanced body) (hc : closer.kind = .endIf) : LastTail (body ++ [closer])

inductive RandomTail : List Atom → Prop
  | mk {body chances closer} (hb : Balanced body)
      (hk : ∀ p ∈ chances, Atom.kind p.1 = .percentChance) (hp : ∀ p ∈ chances, Balanced p.2)
      (hc : closer.kind = .endRandom) : RandomTail (body ++ (parts chances ++ [closer]))

/-- What may follow inside an open construct, up to the atom that closes it; that of a branch of a random
group closes the group. -/
def Tail : Opener → List Atom → Prop
  | .brace => BlockTail
  | .ifThen => BranchTail
  | .elseIf => BranchTail
  | .elseThen => LastTail
  | .startRandom => RandomTail
  | .percentChance => RandomTail

theorem tail_of_continues {opener : Opener} (h : opener.continues = true) : Tail opener = BranchTail := by
  cases opener <;> simp [Opener.continues] at h <;> rfl

theorem tail_endIf {opener : Opener} {a : Atom} (ho : opener.isBranch = true) (ha : a.kind = .endIf) :
    Tail opener [a] := by
  have hb : BranchTail [a] :=
    @BranchTail.mk [] [] a none .nil (by simp) (by simp) (by simp) (by simp) ha
  have hl : LastTail [a] := @LastTail.mk [] a .nil ha
  cases opener with
  | ifThen => exact hb
  | elseIf => exact hb
  | elseThen => exact hl
  | _ => simp [Opener.isBranch] at ho

theorem randomTail_endRandom {a : Atom} (ha : a.kind = .endRandom) : RandomTail [a] :=
  @RandomTail.mk [] [] a .nil (by simp) (by simp) ha

theorem RandomTail.chance {inner : List Atom} {a : Atom} (h : RandomTail inner)
    (ha : a.kind = .percentChance) : RandomTail (a :: inner) := by
  obtain @⟨body, chances, closer, hb, hk, hp, hc⟩ := h
  have ht := @RandomTail.mk [] ((a, body) :: chances) closer .nil (by simpa [ha] using hk)
    (by simpa [hb] using hp) hc
  simpa [parts] using ht

/-- The atoms close all that is open, and nothing else is left open. -/
inductive Completes : List Nesting → List Atom → Prop
  | nil {atoms} (h : Balanced atoms) : Completes [] atoms
  | cons {n s inner rest} (hn : n.opener ≠ .percentChance) (ht : Tail n.opener inner)
      (hr : Completes s rest) : Completes (n :: s) (inner ++ rest)
  | chance {c o s inner rest} (ht : RandomTail inner) (hr : Completes s rest) :
      Completes (⟨.percentChance, c⟩ :: ⟨.startRandom, o⟩ :: s) (inner ++ rest)

theorem Tail.prepend {opener : Opener} {inner u : List Atom} (h : Tail opener inner)
    (hu : ∀ b, Balanced b → Balanced (u ++ b)) : Tail opener (u ++ inner) := by
  have hblock : ∀ {t}, BlockTail t → BlockTail (u ++ t) := by
    rintro _ ⟨hb, hc⟩
    rw [← List.append_assoc]
    exact .mk (hu _ hb) hc
  have hbranch : ∀ {t}, BranchTail t → BranchTail (u ++ t) := by
    rintro _ ⟨hb, hk, hp, hlk, hlp, hc⟩
    rw [← List.append_assoc]
    exact .mk (hu _ hb) hk hp hlk hlp hc
  have hlast : ∀ {t}, LastTail t → LastTail (u ++ t) := by
    rintro _ ⟨hb, hc⟩
    rw [← List.append_assoc]
    exact .mk (hu _ hb) hc
  have hrandom : ∀ {t}, RandomTail t → RandomTail (u ++ t) := by
    rintro _ ⟨hb, hk, hp, hc⟩
    rw [← List.append_assoc]
    exact .mk (hu _ hb) hk hp hc
  cases opener with
  | brace => exact hblock h
  | ifThen => exact hbranch h
  | elseIf => exact hbranch h
  | elseThen => exact hlast h
  | startRandom => exact hrandom h
  | percentChance => exact hrandom h

theorem Completes.prepend {s : List Nesting} {atoms u : List Atom} (h : Completes s atoms)
    (hu : ∀ b, Balanced b → Balanced (u ++ b)) : Completes s (u ++ atoms) := by
  cases h with
  | nil h => exact .nil (hu _ h)
  | cons hn ht hr =>
    rw [← List.append_assoc]
    exact .cons hn (ht.prepend hu) hr
  | chance ht hr =>
    rw [← List.append_assoc]
    exact .chance (@Tail.prepend .percentChance _ _ ht hu) hr

/-- A completion of what is open after an atom makes, with the atom, one of what was open before. -/
theorem Move.completes {s t : List Nesting} {a : Atom} {atoms : List Atom} (hm : Move s a t)
    (h : Completes t atoms) : Completes s (a :: atoms) := by
  cases hm with
  | plain ha => exact @Completes.prepend s atoms [a] h fun b hb => .plain ha hb
  | openBlock ha =>
    obtain _ | ⟨_, ⟨hb, hc⟩, hr⟩ := h
    exact hr.prepend (u := a :: (_ ++ [_])) fun b hb' => by simpa using Balanced.block ha hb hc hb'
  | ifThen ha =>
    obtain _ | ⟨_, ⟨hb, hk, hp, hlk, hlp, hc⟩, hr⟩ := h
    exact hr.prepend (u := a :: (_ ++ (_ ++ (_ ++ [_])))) fun b hb' => by
      simpa using Balanced.condition ha hb hk hp hlk hlp hc hb'
  | startRandom ha =>
    obtain _ | ⟨_, ⟨hb, hk, hp, hc⟩, hr⟩ := h
    exact hr.prepend (u := a :: (_ ++ (_ ++ [_]))) fun b hb' => by
      simpa using Balanced.random ha hb hk hp hc hb'
  | closeBlock ha => exact @Completes.cons _ _ [a] _ (by simp) (@BlockTail.mk [] a .nil ha) h
  | @elseIf n s _ ha hn =>
    obtain _ | ⟨_, ht, hr⟩ := h
    obtain @⟨body, branches, closer, last, hb, hk, hp, hlk, hlp, hc⟩ := ht
    have hn' : n.opener ≠ .percentChance := by
      intro he
      simp [he, Opener.continues] at hn
    have ht := @BranchTail.mk [] ((a, body) :: branches) closer last .nil (by simpa [ha] using hk)
      (by simpa [hb] using hp) hlk hlp hc
    rw [← tail_of_continues hn] at ht
    simpa [parts] using Completes.cons hn' ht hr
  | @elseThen n s _ ha hn =>
    obtain _ | ⟨_, ht, hr⟩ := h
    obtain @⟨body, closer, hb, hc⟩ := ht
    have hn' : n.opener ≠ .percentChance := by
      intro he
      simp [he, Opener.continues] at hn
    have ht := @BranchTail.mk [] [] closer (some (a, body)) .nil (by simp) (by simp)
      (by simpa using ha) (by simpa using hb) hc
    rw [← tail_of_continues hn] at ht
    simpa [parts] using Completes.cons hn' ht hr
  | @endIf n s _ ha hn =>
    have hn' : n.opener ≠ .percentChance := by
      intro he
      simp [he, Opener.isBranch] at hn
    exact @Completes.cons _ _ [a] _ hn' (tail_endIf hn ha) h
  | @firstChance o s _ ha =>
    obtain _ | ⟨hn, _, _⟩ | ⟨ht, hr⟩ := h
    · exact absurd rfl hn
    -- What completes a chance completes its group as well, so the group has the chance in its tail.
    · exact @Completes.cons ⟨.startRandom, o⟩ s (a :: _) _ (by simp) (ht.chance ha) hr
  | @nextChance c o s _ ha =>
    obtain _ | ⟨hn, _, _⟩ | ⟨ht, hr⟩ := h
    · exact absurd rfl hn
    · exact .chance (ht.chance ha) hr
  | endRandom ha => exact @Completes.cons _ _ [a] _ (by simp) (randomTail_endRandom ha) h
  | endChance ha => exact @Completes.chance _ _ _ [a] _ (randomTail_endRandom ha) h

theorem Passes.completes {s t : List Nesting} {atoms more : List Atom} (hp : Passes s atoms t)
    (h : Completes t more) : Completes s (atoms ++ more) := by
  -- From the last atom back: what completes the stack after an atom, put after it, completes the one before.
  induction hp with
  | nil => exact h
  | cons hm _ ih => exact hm.completes (ih h)

theorem Move.exists_completes {s t : List Nesting} {a : Atom} (hm : Move s a t)
    (h : ∃ atoms, Completes s atoms) : ∃ atoms, Completes t atoms := by
  obtain ⟨atoms, h⟩ := h
  cases hm with
  | plain => exact ⟨atoms, h⟩
  | openBlock =>
    exact ⟨_, .cons (by simp) (@BlockTail.mk [] (.closeBlock default) .nil rfl) h⟩
  | ifThen => exact ⟨_, .cons (by simp) (tail_endIf (a := .endIf default) rfl rfl) h⟩
  | startRandom => exact ⟨_, .cons (by simp) (randomTail_endRandom (a := .endRandom default) rfl) h⟩
  | closeBlock =>
    obtain _ | ⟨_, _, hr⟩ := h
    exact ⟨_, hr⟩
  | elseIf _ hn =>
    obtain _ | ⟨_, _, hr⟩ := h
    · exact ⟨_, .cons (by simp) (tail_endIf (a := .endIf default) rfl rfl) hr⟩
    · simp [Opener.continues] at hn
  | elseThen _ hn =>
    obtain _ | ⟨_, _, hr⟩ := h
    · exact ⟨_, .cons (by simp) (tail_endIf (a := .endIf default) rfl rfl) hr⟩
    · simp [Opener.continues] at hn
  | endIf _ hn =>
    obtain _ | ⟨_, _, hr⟩ := h
    · exact ⟨_, hr⟩
    · simp [Opener.isBranch] at hn
  | firstChance =>
    obtain _ | ⟨_, _, hr⟩ := h
    exact ⟨_, .chance (randomTail_endRandom (a := .endRandom default) rfl) hr⟩
  | nextChance =>
    obtain _ | ⟨hn, _, _⟩ | ⟨_, hr⟩ := h
    · exact absurd rfl hn
    · exact ⟨_, .chance (randomTail_endRandom (a := .endRandom default) rfl) hr⟩
  | endRandom =>
    obtain _ | ⟨_, _, hr⟩ := h
    exact ⟨_, hr⟩
  | endChance =>
    obtain _ | ⟨hn, _, _⟩ | ⟨_, hr⟩ := h
    · exact absurd rfl hn
    · exact ⟨_, hr⟩

theorem Passes.exists_completes {s t : List Nesting} {atoms : List Atom} (hp : Passes s atoms t)
    (h : ∃ more, Completes s more) : ∃ more, Completes t more := by
  induction hp with
  | nil => exact h
  | cons hm _ ih => exact ih (hm.exists_completes h)

theorem passes_nil_iff_balanced {atoms : List Atom} : Passes [] atoms [] ↔ Balanced atoms := by
  constructor
  · intro h
    obtain ⟨hb⟩ : Completes [] (atoms ++ []) := h.completes (.nil .nil)
    simpa using hb
  · intro h
    exact passes_of_balanced h []

theorem exists_passes_iff_extends {atoms : List Atom} :
    (∃ t, Passes [] atoms t) ↔ ∃ rest, Balanced (atoms ++ rest) := by
  constructor
  · rintro ⟨t, h⟩
    obtain ⟨rest, hr⟩ := h.exists_completes ⟨[], .nil .nil⟩
    obtain ⟨hb⟩ := h.completes hr
    exact ⟨rest, hb⟩
  · rintro ⟨rest, h⟩
    have hp := (passes_iff.1 (passes_of_balanced h [])).1
    rw [problems_append, List.append_eq_nil_iff] at hp
    exact ⟨_, passes_iff.2 ⟨hp.1, rfl⟩⟩

theorem problems_nil_iff_extends (atoms : List Atom) :
    problems [] atoms = [] ↔ ∃ rest, Balanced (atoms ++ rest) := by
  rw [← exists_passes_iff_extends]
  constructor
  · intro h
    exact ⟨_, passes_iff.2 ⟨h, rfl⟩⟩
  · rintro ⟨t, h⟩
    exact (passes_iff.1 h).1

/-- The stack of open constructs recognises the balanced scripts: there is no problem just with the beginnings
of such scripts, nothing is left open just after a whole one, and the first problem is with the first atom
that no balanced script goes on with. -/
theorem recognises_balanced (atoms : List Atom) :
    (problems [] atoms = [] ↔ ∃ rest, Balanced (atoms ++ rest)) ∧
    (problems [] atoms = [] ∧ after [] atoms = [] ↔ Balanced atoms) ∧
    ∀ a, (problems [] atoms = [] ∧ (step (after [] atoms) a).2.isSome = true ↔
      (∃ rest, Balanced (atoms ++ rest)) ∧ ¬ ∃ rest, Balanced (atoms ++ a :: rest)) := by
  refine ⟨problems_nil_iff_extends atoms, ?_, fun a => ?_⟩
  · rw [← passes_nil_iff_balanced, passes_iff]
  · have hnext := problems_nil_iff_extends (atoms ++ [a])
    simp only [List.append_assoc, List.singleton_append] at hnext
    rw [← problems_nil_iff_extends, ← hnext, problems_append]
    cases hp : (step (after [] atoms) a).2 with
    | none => simp [problems, hp]
    | some d => simp [problems, hp]

end Nesting

end MapScript
