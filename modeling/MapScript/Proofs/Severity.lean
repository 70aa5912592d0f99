import MapScript.Proofs.ItemPass
import MapScript.Rule.Watch

/-! How serious the problems are that the rules report: each check reports errors only, or gives advice, which is a
warning that nothing can be done about without a review. Two checks are neither, and they alone offer
replacements in a script without errors: names are put in capitals, and names in comments between backticks. -/

namespace MapScript

/-- A warning without a replacement that can be made without a review. -/
structure Diagnostic.Advice (d : Diagnostic) : Prop where
  isError : d.isError = false
  isSafe : ∀ s ∈ d.suggestions, s.replacement.isSafe = false

namespace Diagnostic

variable {d : Diagnostic} {s : Span} {message : Text}

@[simp] theorem isError_error : (error s message).isError = true := rfl

@[simp] theorem isError_warning : (warning s message).isError = false := rfl

@[simp] theorem isError_withCode {code : Text} : (d.withCode code).isError = d.isError := rfl

@[simp] theorem isError_note : (d.note s message).isError = d.isError := rfl

@[simp] theorem isError_suggest {replacement : Replacement} :
    (d.suggest s message replacement).isError = d.isError := rfl

@[simp] theorem advice_warning : (warning s message).Advice := ⟨rfl, by simp [warning]⟩

@[simp] theorem advice_withCode {code : Text} : (d.withCode code).Advice ↔ d.Advice :=
  ⟨fun h => ⟨h.1, h.2⟩, fun h => ⟨h.1, h.2⟩⟩

@[simp] theorem advice_note : (d.note s message).Advice ↔ d.Advice :=
  ⟨fun h => ⟨h.1, h.2⟩, fun h => ⟨h.1, h.2⟩⟩

@[simp] theorem advice_suggest {replacement : Replacement} :
    (d.suggest s message replacement).Advice ↔ d.Advice ∧ replacement.isSafe = false := by
  constructor
  · intro h
    have hall := h.2
    simp only [suggest, List.mem_append, List.mem_singleton, or_imp, forall_and, forall_eq] at hall
    exact ⟨⟨h.1, hall.1⟩, hall.2⟩
  · rintro ⟨h, hr⟩
    refine ⟨h.1, ?_⟩
    simpa [suggest, or_imp, forall_and, hr] using h.2

end Diagnostic

namespace Rule

namespace ArgTypes

theorem advice_suggestName {d : Diagnostic} (hd : d.Advice) (w : Word) (names : List Text) :
    (suggestName d w names).Advice := by
  unfold suggestName
  split
  · simp [hd, Replacement.isSafe]
  · exact hd

theorem advice_checkDefined (scope : Scope) (w : Word) : ∀ d ∈ checkDefined scope w, d.Advice := by
  unfold checkDefined
  split
  · simp
  · simpa using advice_suggestName Diagnostic.advice_warning w _

theorem advice_checkValued (scope : Scope) (w : Word) : ∀ d ∈ checkValued scope w, d.Advice := by
  unfold checkValued
  split
  · simp
  · split
    · simp
    · simpa using advice_suggestName Diagnostic.advice_warning w _

theorem checkNumber_isError (scope : Scope) (name arg : Word) :
    ∀ d ∈ checkNumber scope name arg, d.isError = true := by
  unfold checkNumber
  split
  · simp
  · dsimp only
    split <;> simp

theorem checkName_isError (arg : Word) : ∀ d ∈ checkName arg, d.isError = true := by
  unfold checkName
  split <;> simp

theorem checkCapitals_isError (arg : Word) : ∀ d ∈ checkCapitals arg, d.isError = false := by
  unfold checkCapitals
  split <;> simp

theorem advice_checkValue (arg : Option (Word × Int)) (good : Int → Bool) (message : Text) :
    ∀ d ∈ checkValue arg good message, d.Advice := by
  unfold checkValue
  split
  · split <;> simp
  · simp

theorem advice_checkAssign {args : List Word} {found : List Diagnostic} (h : checkAssign args = .ok found) :
    ∀ d ∈ found, d.Advice := by
  simp only [checkAssign, bind_eq_ok, pure_eq_ok] at h
  obtain ⟨number, -, mode, -, flags, -, rfl⟩ := h
  simp only [List.forall_mem_append]
  refine ⟨⟨⟨?_, ?_⟩, ?_⟩, advice_checkValue _ _ _⟩
  · unfold checkAssignTarget
    split
    · simp
    · split <;> simp
  · unfold checkAssignNumber
    split
    · exact advice_checkValue _ _ _
    · exact advice_checkValue _ _ _
    · simp
  · unfold checkAssignMode
    split
    · exact advice_checkValue _ _ _
    · exact advice_checkValue _ _ _
    · simp

theorem advice_checkRanges {name : Word} {args : List Word} {found : List Diagnostic}
    (h : checkRanges name args = .ok found) : ∀ d ∈ found, d.Advice := by
  unfold checkRanges at h
  split at h
  · simp only [bind_eq_ok, pure_eq_ok] at h
    obtain ⟨elevation, -, rfl⟩ := h
    exact advice_checkValue _ _ _
  · split at h
    · simp only [bind_eq_ok, pure_eq_ok] at h
      obtain ⟨first, -, second, -, rfl⟩ := h
      exact List.forall_mem_append.2 ⟨advice_checkValue _ _ _, advice_checkValue _ _ _⟩
    · split at h
      · cases args with
        | nil =>
          simp only [pure_eq_ok] at h
          simp [← h]
        | cons arg args =>
          simp only [pure_eq_ok] at h
          rw [← h]
          split <;> simp
      · split at h
        · exact advice_checkAssign h
        · simp only [pure_eq_ok] at h
          simp [← h]

end ArgTypes

theorem ActorAreas.advice_onAtom {known areas : List Int} {atom : Atom} {found : List Diagnostic}
    (h : onAtom known atom = .ok (found, areas)) : ∀ d ∈ found, d.Advice := by
  unfold onAtom at h
  split at h
  · simp only [bind_eq_ok] at h
    obtain ⟨value, -, h⟩ := h
    split at h
    · split at h
      · simp only [pure_eq_ok, Prod.mk.injEq] at h
        simp [← h.1]
      · split at h
        · simp only [pure_eq_ok, Prod.mk.injEq] at h
          simp [← h.1]
        · simp only [pure_eq_ok, Prod.mk.injEq] at h
          simp [← h.1]
    · simp only [pure_eq_ok, Prod.mk.injEq] at h
      simp [← h.1]
  · simp only [pure_eq_ok, Prod.mk.injEq] at h
    simp [← h.1]

theorem Compatibility.advice_onAtom (level : Level) (guards : Guards) (atom : Atom) :
    ∀ d ∈ onAtom level guards atom, d.Advice := by
  unfold onAtom
  split
  · split
    · simp [Replacement.isSafe]
    · simp
  · simp

theorem DeadComment.advice_onAtom (nesting : List Nesting) (atom : Atom) :
    ∀ d ∈ onAtom nesting atom, d.Advice := by
  unfold onAtom
  split
  · intro d hd
    obtain ⟨group, -, rfl⟩ := List.mem_map.1 hd
    simp [problem, Replacement.isSafe]
  · simp

theorem AttributeCase.onAtom_isError (atom : Atom) : ∀ d ∈ onAtom atom, d.isError = true := by
  unfold onAtom
  split
  · split <;> simp
  · simp

theorem UnknownAttribute.onAtom_isError (atom : Atom) : ∀ d ∈ onAtom atom, d.isError = true := by
  unfold onAtom
  split
  · split
    · simp
    · dsimp only
      split <;> simp
  · simp

theorem Inclusion.onAtom_isError (builtinMap : Bool) (atom : Atom) :
    ∀ d ∈ onAtom builtinMap atom, d.isError = true := by
  unfold onAtom
  split
  · split
    · simp
    · split
      · simp
      · split <;> simp
  · simp

theorem IncorrectSection.onAtom_isError (current : Option Word) (atom : Atom) :
    ∀ d ∈ onAtom current atom, d.isError = true := by
  unfold onAtom
  split
  · split
    · unfold problem
      split
      · simp
      · split <;> simp
    · simp
  · simp

theorem CommentContents.checkName_isError (tracker : Tracker) (offset : Nat) (atom : Atom) :
    ∀ d ∈ checkName tracker offset atom, d.isError = false := by
  unfold checkName
  split
  · split <;> simp
  · simp

theorem CommentContents.advice_checkCloser (offset : Nat) (items : List Item) (closer : Option Word) :
    ∀ d ∈ checkCloser offset items closer, d.Advice := by
  unfold checkCloser
  split
  · split <;> simp
  · simp

theorem CommentContents.onAtom_isError (tracker : Tracker) (atom : Atom) :
    ∀ d ∈ onAtom tracker atom, d.isError = false := by
  unfold onAtom
  split
  · refine List.forall_mem_append.2 ⟨fun d hd => ?_, fun d hd => (advice_checkCloser _ _ _ d hd).isError⟩
    obtain ⟨item, -, hd⟩ := List.mem_flatMap.1 hd
    split at hd
    · simp at hd
    · exact checkName_isError tracker _ _ d hd
  · simp

end Rule

namespace Nesting

theorem unbalanced_isError (name : Text) (atom : Atom) (stack : List Nesting) :
    (unbalanced name atom stack).isError = true := by
  cases stack <;> simp [unbalanced]

theorem exists_unbalanced_close (sort : Opener → Bool) (name : Text) (atom : Atom) (stack : List Nesting) :
    ∀ d ∈ (close sort name atom stack).2, ∃ name stack, d = unbalanced name atom stack := by
  intro d hd
  unfold close at hd
  split at hd
  · simp at hd
  · exact ⟨name, stack, (Option.some.inj hd).symm⟩

theorem exists_unbalanced (stack : List Nesting) (atom : Atom) :
    ∀ d ∈ (step stack atom).2, ∃ name stack, d = unbalanced name atom stack := by
  cases atom with
  | closeBlock | endIf | endRandom | elseIf | elseThen => exact exists_unbalanced_close _ _ _ _
  | percentChance head value =>
    intro d hd
    simp only [step, chance] at hd
    split at hd
    · simp at hd
    · exact ⟨_, _, (Option.some.inj hd).symm⟩
  | _ => simp [step]

theorem step_isError (stack : List Nesting) (atom : Atom) : ∀ d ∈ (step stack atom).2, d.isError = true := by
  intro d hd
  obtain ⟨name, stack, rfl⟩ := exists_unbalanced stack atom d hd
  exact unbalanced_isError name atom stack

end Nesting

end MapScript
