import MapScript.Proofs.ItemPass
import MapScript.Proofs.WordPass

/-! The ranges that a check speaks of: those of the words and atoms it is shown, of what is open and of the
section mark, and nothing else, except where a call goes on in the next word. -/

namespace MapScript

variable {P : Span → Prop}

/-- All ranges of a diagnostic are such as `P` allows. -/
structure Diagnostic.Placed (P : Span → Prop) (d : Diagnostic) : Prop where
  span : P d.span
  notes : ∀ note ∈ d.notes, P note.span
  suggestions : ∀ suggestion ∈ d.suggestions, P suggestion.span

namespace Diagnostic

@[simp] theorem placed_error {s : Span} {message : Text} : (error s message).Placed P ↔ P s :=
  ⟨Placed.span, fun h => ⟨h, by simp [error], by simp [error]⟩⟩

@[simp] theorem placed_warning {s : Span} {message : Text} : (warning s message).Placed P ↔ P s :=
  ⟨Placed.span, fun h => ⟨h, by simp [warning], by simp [warning]⟩⟩

@[simp] theorem placed_withCode {d : Diagnostic} {code : Text} : (d.withCode code).Placed P ↔ d.Placed P :=
  ⟨fun h => ⟨h.span, h.notes, h.suggestions⟩, fun h => ⟨h.span, h.notes, h.suggestions⟩⟩

@[simp] theorem placed_note {d : Diagnostic} {s : Span} {message : Text} :
    (d.note s message).Placed P ↔ d.Placed P ∧ P s := by
  constructor
  · intro h
    exact ⟨⟨h.span, fun n hn => h.notes n (List.mem_append_left _ hn), h.suggestions⟩,
      h.notes ⟨s, message⟩ (by simp [note])⟩
  · rintro ⟨h, hs⟩
    refine ⟨h.span, fun n hn => ?_, h.suggestions⟩
    cases List.mem_append.1 hn with
    | inl hn => exact h.notes n hn
    | inr hn => rw [List.mem_singleton.1 hn]; exact hs

@[simp] theorem placed_suggest {d : Diagnostic} {s : Span} {message : Text} {replacement : Replacement} :
    (d.suggest s message replacement).Placed P ↔ d.Placed P ∧ P s := by
  constructor
  · intro h
    exact ⟨⟨h.span, h.notes, fun n hn => h.suggestions n (List.mem_append_left _ hn)⟩,
      h.suggestions ⟨s, message, replacement⟩ (by simp [suggest])⟩
  · rintro ⟨h, hs⟩
    refine ⟨h.span, h.notes, fun n hn => ?_⟩
    cases List.mem_append.1 hn with
    | inl hn => exact h.suggestions n hn
    | inr hn => rw [List.mem_singleton.1 hn]; exact hs

end Diagnostic

structure Atom.Placed (P : Span → Prop) (a : Atom) : Prop where
  span : P a.span
  words : ∀ w ∈ a.words, P w.span
  content : ∀ {opener content closer stop}, a = .comment opener content closer stop →
    ∀ item ∈ Item.parse opener.file content, P (item.atom.span.shift opener.stop)

structure Tracker.Placed (P : Span → Prop) (t : Tracker) : Prop where
  nesting : ∀ n ∈ t.nesting, P n.atom.span
  sectionMark : ∀ w ∈ t.scope.sectionMark, P w.span

namespace Rule

namespace ArgTypes

theorem placed_suggestName {d : Diagnostic} (hd : d.Placed P) {w : Word} (hw : P w.span) (names : List Text) :
    (suggestName d w names).Placed P := by
  unfold suggestName
  split
  · simp [hd, hw]
  · exact hd

theorem placed_checkDefined (scope : Scope) {w : Word} (hw : P w.span) :
    ∀ d ∈ checkDefined scope w, d.Placed P := by
  unfold checkDefined
  split
  · simp
  · simpa using placed_suggestName (by simpa using hw) hw _

theorem placed_checkValued (scope : Scope) {w : Word} (hw : P w.span) :
    ∀ d ∈ checkValued scope w, d.Placed P := by
  unfold checkValued
  split
  · simp
  · split
    · simpa using hw
    · simpa using placed_suggestName (by simpa using hw) hw _

theorem placed_checkNumber (scope : Scope) (name : Word) {w : Word} (hw : P w.span) :
    ∀ d ∈ checkNumber scope name w, d.Placed P := by
  unfold checkNumber
  split
  · simp
  · dsimp only
    split <;> simpa using hw

theorem placed_checkName {w : Word} (hw : P w.span) : ∀ d ∈ checkName w, d.Placed P := by
  unfold checkName
  split
  · simpa using hw
  · simp

theorem placed_checkCapitals {w : Word} (hw : P w.span) : ∀ d ∈ checkCapitals w, d.Placed P := by
  unfold checkCapitals
  split
  · simpa using hw
  · simp

theorem placed_checkArg (scope : Scope) (name : Word) (type : ArgType) {w : Word} (hw : P w.span) :
    ∀ d ∈ checkArg scope name type w, d.Placed P := by
  have hor : ∀ {x y : Option Diagnostic}, (∀ d ∈ x, d.Placed P) → (∀ d ∈ y, d.Placed P) →
      ∀ d ∈ x <|> y, d.Placed P := by
    intro x y hx hy
    cases x with
    | none => simpa using hy
    | some d => simpa using hx
  cases type with
  | number => exact placed_checkNumber scope name hw
  | word => exact hor (placed_checkName hw) (placed_checkCapitals hw)
  | optionalToken => exact hor (placed_checkName hw) (placed_checkDefined scope hw)
  | token => exact hor (placed_checkName hw) (placed_checkValued scope hw)
  | fileName => simp [checkArg]

theorem placed_checkArgs (scope : Scope) {atom : Atom} (hspan : P atom.span) (name : Word) (types : List ArgType)
    {args : List Word} (hargs : ∀ arg ∈ args, P arg.span) :
    ∀ d ∈ checkArgs scope atom name types args, d.Placed P := by
  induction types generalizing args with
  | nil => simp [checkArgs]
  | cons type types ih =>
    cases args with
    | nil => simpa [checkArgs] using hspan
    | cons arg args =>
      intro d hd
      cases List.mem_append.1 hd with
      | inl hd => exact placed_checkArg scope name type (hargs arg (by simp)) d (Option.mem_toList.1 hd)
      | inr hd => exact ih (fun a ha => hargs a (by simp [ha])) d hd

theorem placed_checkValue {args : List Word} (hargs : ∀ arg ∈ args, P arg.span) {i : Nat}
    {value : Option (Word × Int)} (h : argValue args i = .ok value) (good : Int → Bool) (message : Text) :
    ∀ d ∈ checkValue value good message, d.Placed P := by
  cases value with
  | none => simp [checkValue]
  | some pair =>
    obtain ⟨w, n⟩ := pair
    have hw : w ∈ args := by
      unfold argValue at h
      cases ha : args[i]? with
      | none => simp [ha, pure_eq_ok] at h
      | some arg =>
        simp only [ha, bind_eq_ok, pure_eq_ok, Option.map_eq_some_iff, Prod.mk.injEq] at h
        obtain ⟨_, -, _, -, rfl, -⟩ := h
        exact List.mem_of_getElem? ha
    unfold checkValue
    dsimp only
    split
    · simp
    · simpa using hargs w hw

theorem placed_checkAssign {args : List Word} (hargs : ∀ arg ∈ args, P arg.span) {found : List Diagnostic}
    (h : checkAssign args = .ok found) : ∀ d ∈ found, d.Placed P := by
  simp only [checkAssign, bind_eq_ok, pure_eq_ok] at h
  obtain ⟨number, hn, mode, hm, flags, hf, rfl⟩ := h
  intro d hd
  simp only [List.mem_append] at hd
  obtain ((hd | hd) | hd) | hd := hd
  · cases args with
    | nil => simp [checkAssignTarget] at hd
    | cons first args =>
      simp only [checkAssignTarget] at hd
      split at hd
      · simp at hd
      · rw [List.mem_singleton.1 hd]
        simpa using hargs first (by simp)
  · unfold checkAssignNumber at hd
    split at hd
    · exact placed_checkValue hargs hn _ _ d hd
    · exact placed_checkValue hargs hn _ _ d hd
    · simp at hd
  · unfold checkAssignMode at hd
    split at hd
    · exact placed_checkValue hargs hm _ _ d hd
    · exact placed_checkValue hargs hm _ _ d hd
    · simp at hd
  · exact placed_checkValue hargs hf _ _ d hd

theorem placed_checkRanges {name : Word} {args : List Word} (hargs : ∀ arg ∈ args, P arg.span)
    {found : List Diagnostic} (h : checkRanges name args = .ok found) : ∀ d ∈ found, d.Placed P := by
  unfold checkRanges at h
  split at h
  · simp only [bind_eq_ok, pure_eq_ok] at h
    obtain ⟨elevation, he, rfl⟩ := h
    exact placed_checkValue hargs he _ _
  · split at h
    · simp only [bind_eq_ok, pure_eq_ok] at h
      obtain ⟨first, hf, second, hs, rfl⟩ := h
      intro d hd
      cases List.mem_append.1 hd with
      | inl hd => exact placed_checkValue hargs hf _ _ d hd
      | inr hd => exact placed_checkValue hargs hs _ _ d hd
    · split at h
      · cases args with
        | nil =>
          simp only [pure_eq_ok] at h
          simp [← h]
        | cons arg args =>
          simp only [pure_eq_ok] at h
          rw [← h]
          split
          · simpa using hargs arg (by simp)
          · simp
      · split at h
        · exact placed_checkAssign hargs h
        · simp only [pure_eq_ok] at h
          simp [← h]

theorem placed_onAtom {scope : Scope} {atom : Atom} (ha : atom.Placed P) {found : List Diagnostic}
    (h : onAtom scope atom = .ok found) : ∀ d ∈ found, d.Placed P := by
  have hw := ha.words
  cases atom with
  | ifThen head condition | elseIf head condition =>
    simp only [onAtom, pure_eq_ok] at h
    rw [← h]
    simpa using placed_checkDefined scope (hw condition (by simp [Atom.words, Atom.tail]))
  | define head name | undefine head name =>
    simp only [onAtom, pure_eq_ok] at h
    rw [← h]
    simpa using placed_checkArg scope head .word (hw name (by simp [Atom.words, Atom.tail]))
  | const head name value =>
    simp only [onAtom, pure_eq_ok] at h
    rw [← h]
    intro d hd
    cases List.mem_append.1 hd with
    | inl hd =>
      exact placed_checkArg scope head .word (hw name (by simp [Atom.words, Atom.tail])) d (Option.mem_toList.1 hd)
    | inr hd =>
      cases value with
      | none => simp at hd
      | some value =>
        exact placed_checkArg scope head .number (hw value (by simp [Atom.words, Atom.tail])) d
          (Option.mem_toList.1 hd)
  | command name args =>
    simp only [onAtom, bind_eq_ok, pure_eq_ok] at h
    obtain ⟨ranges, hr, rfl⟩ := h
    have hargs : ∀ arg ∈ args, P arg.span := fun arg harg => hw arg (by simp [Atom.words, Atom.tail, harg])
    intro d hd
    cases List.mem_append.1 hd with
    | inl hd => exact placed_checkArgs scope ha.span name _ hargs d hd
    | inr hd => exact placed_checkRanges hargs hr d hd
  | _ =>
    simp only [onAtom, pure_eq_ok] at h
    simp [← h]

end ArgTypes

theorem ActorAreas.placed_onAtom {known areas : List Int} {atom : Atom} (ha : atom.Placed P)
    {found : List Diagnostic} (h : onAtom known atom = .ok (found, areas)) : ∀ d ∈ found, d.Placed P := by
  unfold onAtom at h
  split at h
  · next name arg args =>
    simp only [bind_eq_ok] at h
    obtain ⟨value, -, h⟩ := h
    have harg : P arg.span := ha.words arg (by simp [Atom.words, Atom.tail])
    split at h
    · split at h
      · simp only [pure_eq_ok, Prod.mk.injEq] at h
        simp [← h.1]
      · split at h
        · simp only [pure_eq_ok, Prod.mk.injEq] at h
          rw [← h.1]
          simpa using harg
        · simp only [pure_eq_ok, Prod.mk.injEq] at h
          simp [← h.1]
    · simp only [pure_eq_ok, Prod.mk.injEq] at h
      simp [← h.1]
  · simp only [pure_eq_ok, Prod.mk.injEq] at h
    simp [← h.1]

theorem AttributeCase.placed_onAtom {atom : Atom} (ha : atom.Placed P) : ∀ d ∈ onAtom atom, d.Placed P := by
  unfold onAtom
  split
  · next word =>
    have hw : P word.span := ha.span
    split
    · simpa using hw
    · simp
  · simp

theorem UnknownAttribute.placed_onAtom {atom : Atom} (ha : atom.Placed P) : ∀ d ∈ onAtom atom, d.Placed P := by
  unfold onAtom
  split
  · next word =>
    have hw : P word.span := ha.span
    split
    · simp
    · dsimp only
      split <;> simpa using hw
  · simp

theorem Compatibility.placed_onAtom {level : Level} {guards : Guards} {atom : Atom} (ha : atom.Placed P) :
    ∀ d ∈ onAtom level guards atom, d.Placed P := by
  unfold onAtom
  split
  · split
    · simpa using ha.span
    · simp
  · simp

theorem Inclusion.placed_onAtom {builtinMap : Bool} {atom : Atom} (ha : atom.Placed P) :
    ∀ d ∈ onAtom builtinMap atom, d.Placed P := by
  unfold onAtom
  split
  · split
    · simp
    · split
      · simpa using ha.span
      · split
        · simpa using ha.span
        · simp
  · simp

theorem DeadComment.placed_onAtom {nesting : List Nesting} (hn : ∀ n ∈ nesting, P n.atom.span) {atom : Atom}
    (ha : atom.Placed P) : ∀ d ∈ onAtom nesting atom, d.Placed P := by
  unfold onAtom
  split
  · intro d hd
    obtain ⟨group, hg, rfl⟩ := List.mem_map.1 hd
    have hgroup := hn group (List.mem_reverse.1 (List.mem_of_mem_filter hg))
    simp [problem, ha.span, hgroup]
  · simp

theorem IncorrectSection.placed_onAtom {current : Option Word} (hc : ∀ w ∈ current, P w.span) {atom : Atom}
    (ha : atom.Placed P) : ∀ d ∈ onAtom current atom, d.Placed P := by
  unfold onAtom
  split
  · split
    · cases current with
      | none => simpa [problem] using ha.span
      | some w =>
        have hw : P w.span := hc w rfl
        simp only [problem]
        split
        · simp
        · simp [ha.span, hw]
    · simp
  · simp

theorem CommentContents.placed_onAtom {tracker : Tracker} {atom : Atom} (ha : atom.Placed P) :
    ∀ d ∈ onAtom tracker atom, d.Placed P := by
  unfold onAtom
  split
  · next opener content closer stop =>
    have hin := ha.content rfl
    intro d hd
    cases List.mem_append.1 hd with
    | inl hd =>
      obtain ⟨item, hi, hd⟩ := List.mem_flatMap.1 hd
      split at hd
      · simp at hd
      · unfold checkName at hd
        split at hd
        · next word hw =>
          have hspan : P (word.span.shift opener.stop) := by
            have := hin item hi
            rwa [hw] at this
          split at hd
          · rw [List.mem_singleton.1 hd]
            simpa using hspan
          · simp at hd
        · simp at hd
    | inr hd =>
      unfold checkCloser at hd
      split at hd
      · next last mark hl hm =>
        have hlast := hin last (List.mem_of_getLast? hl)
        have hmark : P mark.span := ha.words mark (by simp [Atom.words, Atom.tail])
        split at hd
        · rw [List.mem_singleton.1 hd]
          simp [hlast, hmark]
        · simp at hd
      · simp at hd
  · simp

end Rule

theorem Watch.placed_onAtom {watch watch' : Watch} {tracker : Tracker} {atom : Atom} {found : List Diagnostic}
    (ht : tracker.Placed P) (ha : atom.Placed P) (h : watch.onAtom tracker atom = .ok (watch', found)) :
    ∀ d ∈ found, d.Placed P := by
  obtain ⟨rule, memory⟩ := watch
  cases rule with
  | argTypes =>
    simp only [onAtom, bind_eq_ok, pure_eq_ok, Prod.mk.injEq] at h
    obtain ⟨_, h, -, rfl⟩ := h
    exact Rule.ArgTypes.placed_onAtom ha h
  | actorAreasMatch =>
    simp only [onAtom, bind_eq_ok, pure_eq_ok, Prod.mk.injEq] at h
    obtain ⟨⟨found, areas⟩, h, -, rfl⟩ := h
    exact Rule.ActorAreas.placed_onAtom ha h
  | attributeCase =>
    obtain ⟨-, rfl⟩ := Prod.mk.inj (pure_eq_ok.1 h)
    exact Rule.AttributeCase.placed_onAtom ha
  | commentContents =>
    obtain ⟨-, rfl⟩ := Prod.mk.inj (pure_eq_ok.1 h)
    exact Rule.CommentContents.placed_onAtom ha
  | compatibility =>
    obtain ⟨-, rfl⟩ := Prod.mk.inj (pure_eq_ok.1 h)
    exact Rule.Compatibility.placed_onAtom ha
  | deadComment =>
    obtain ⟨-, rfl⟩ := Prod.mk.inj (pure_eq_ok.1 h)
    exact Rule.DeadComment.placed_onAtom ht.nesting ha
  | inclusion =>
    obtain ⟨-, rfl⟩ := Prod.mk.inj (pure_eq_ok.1 h)
    exact Rule.Inclusion.placed_onAtom ha
  | incorrectSection =>
    obtain ⟨-, rfl⟩ := Prod.mk.inj (pure_eq_ok.1 h)
    exact Rule.IncorrectSection.placed_onAtom ht.sectionMark ha
  | unknownAttribute =>
    obtain ⟨-, rfl⟩ := Prod.mk.inj (pure_eq_ok.1 h)
    exact Rule.UnknownAttribute.placed_onAtom ha

namespace Nesting

theorem placed_unbalanced {atom : Atom} (ha : P atom.span) (name : Text) {stack : List Nesting}
    (hs : ∀ n ∈ stack, P n.atom.span) : (unbalanced name atom stack).Placed P := by
  cases stack with
  | nil => simpa [unbalanced] using ha
  | cons top rest => simp [unbalanced, ha, hs top]

theorem pop?_subset {sort : Opener → Bool} {stack rest : List Nesting} (h : pop? sort stack = some rest) :
    rest ⊆ stack := by
  cases stack with
  | nil => simp [pop?] at h
  | cons top more =>
    simp only [pop?, Option.ite_none_right_eq_some, Option.some.injEq] at h
    rw [← h.2]
    exact List.subset_cons_self top more

theorem closeChance_subset (stack : List Nesting) : closeChance stack ⊆ stack := by
  unfold closeChance
  cases h : pop? (· == .percentChance) stack with
  | none => exact List.Subset.refl stack
  | some rest => exact pop?_subset h

variable {atom : Atom} (ha : P atom.span) {stack : List Nesting} (hs : ∀ n ∈ stack, P n.atom.span)

include ha hs

theorem placed_close (sort : Opener → Bool) (name : Text) :
    (∀ n ∈ (close sort name atom stack).1, P n.atom.span) ∧ ∀ d ∈ (close sort name atom stack).2, d.Placed P := by
  unfold close
  cases h : pop? sort stack with
  | none => exact ⟨hs, by simpa using placed_unbalanced ha name hs⟩
  | some rest => exact ⟨fun n hn => hs n (pop?_subset h hn), by simp⟩

theorem placed_branch (opener : Opener) :
    (∀ n ∈ (branch opener atom stack).1, P n.atom.span) ∧ ∀ d ∈ (branch opener atom stack).2, d.Placed P := by
  obtain ⟨hrest, hproblem⟩ := placed_close ha hs Opener.continues (Text.lower atom.head.text)
  exact ⟨by simpa [branch, ha] using hrest, hproblem⟩

theorem placed_step :
    (∀ n ∈ (step stack atom).1, P n.atom.span) ∧ ∀ d ∈ (step stack atom).2, d.Placed P := by
  have hchance : ∀ n ∈ closeChance stack, P n.atom.span := fun n hn => hs n (closeChance_subset stack hn)
  cases atom with
  | openBlock | ifThen | startRandom => exact ⟨by simpa [step, ha] using hs, by simp [step]⟩
  | closeBlock => exact placed_close ha hs _ _
  | elseIf | elseThen => exact placed_branch ha hs _
  | endIf => exact placed_close ha hs _ _
  | percentChance =>
    refine ⟨by simpa [step, chance, ha] using hchance, ?_⟩
    simp only [step, chance]
    split
    · simp
    · simpa using placed_unbalanced ha _ hchance
  | endRandom => exact placed_close ha hchance _ _
  | _ => exact ⟨hs, by simp [step]⟩

end Nesting

theorem Scope.sectionMark_readHeader (scope : Scope) (content : Text) :
    (scope.readHeader content).sectionMark = scope.sectionMark := by
  unfold readHeader
  induction Text.anyLines content generalizing scope with
  | nil => rfl
  | cons line lines ih =>
    rw [List.foldl_cons, ih]
    unfold readHeaderLine
    split <;> rfl

theorem Scope.sectionMark_updateHeader (scope : Scope) (atom : Atom) :
    (scope.updateHeader atom).sectionMark = scope.sectionMark := by
  unfold updateHeader
  split
  · rfl
  · split
    · exact sectionMark_readHeader _ _
    · rfl

theorem Tracker.Placed.update {t : Tracker} (ht : t.Placed P) {atom : Atom} (ha : atom.Placed P) :
    (t.update atom).1.Placed P ∧ ∀ d ∈ (t.update atom).2, d.Placed P := by
  obtain ⟨hnesting, hproblem⟩ := Nesting.placed_step ha.span ht.nesting
  refine ⟨⟨hnesting, ?_⟩, hproblem⟩
  cases atom with
  | sectionMark name =>
    have hname : P name.span := ha.span
    simpa [Tracker.update, Scope.update, Scope.record] using hname
  | _ =>
    simp only [Tracker.update, Scope.update, Scope.record, Scope.sectionMark_updateHeader]
    exact ht.sectionMark

structure Item.Placed (P : Span → Prop) (item : Item) : Prop where
  atom : item.atom.Placed P
  flaws : ∀ flaw ∈ item.flaws, P flaw.span

namespace Checker

theorem placed_writeItem {c c' : Checker} {item : Item} {found : List Diagnostic} (hc : c.tracker.Placed P)
    (hi : item.Placed P) (h : c.writeItem item = .ok (c', found)) :
    c'.tracker.Placed P ∧ ∀ d ∈ found, d.Placed P := by
  obtain ⟨watches, problems, hw, rfl, rfl⟩ := writeItem_eq_ok.1 h
  obtain ⟨hupdate, hunbalanced⟩ := hc.update hi.atom
  refine ⟨hupdate, fun d hd => ?_⟩
  simp only [List.mem_append, Option.mem_toList, Option.map_eq_some_iff] at hd
  obtain (hd | ⟨p, hp, rfl⟩) | hd := hd
  · obtain ⟨watch, -, watch', ps, ho, p, hp, rfl⟩ := (Watch.mem_allOnAtom hw).1 hd
    exact Diagnostic.placed_withCode.2 (Watch.placed_onAtom hc hi.atom ho p hp)
  · exact Diagnostic.placed_withCode.2 (hunbalanced p hp)
  · obtain ⟨flaw, hf, rfl⟩ := List.mem_map.1 hd
    simpa using hi.flaws flaw (List.mem_of_mem_filter hf)

theorem placed_writeItems {c c' : Checker} {items : List Item} {found : List Diagnostic}
    (hc : c.tracker.Placed P) (hi : ∀ item ∈ items, item.Placed P)
    (h : c.writeItems items = .ok (c', found)) : ∀ d ∈ found, d.Placed P := by
  induction items generalizing c found with
  | nil =>
    simp only [writeItems, pure_eq_ok, Prod.mk.injEq] at h
    simp [← h.2]
  | cons item items ih =>
    obtain ⟨d, problems, more, hw, hr, rfl⟩ := writeItems_cons.1 h
    obtain ⟨hd, hfound⟩ := placed_writeItem hc (hi item (by simp)) hw
    have hmore := ih hd (fun i hmem => hi i (by simp [hmem])) hr
    intro x hx
    cases List.mem_append.1 hx with
    | inl hx => exact hfound x hx
    | inr hx => exact hmore x hx

end Checker

theorem Marks.placed_problem (inComment : Bool) {w : Word} (hw : P w.span) :
    ∀ d ∈ problem inComment w, d.Placed P := by
  have hopening : ∀ d ∈ openingProblem w, d.Placed P := by
    simp only [openingProblem]
    split
    · split <;> simpa using hw
    · simp
  have hclosing : ∀ d ∈ closingProblem w, d.Placed P := by
    simp only [closingProblem]
    split
    · simpa using hw
    · simp
  unfold problem
  dsimp only
  split
  · split
    · intro d hd
      cases ho : openingProblem w with
      | none => exact hclosing d (by simpa [ho] using hd)
      | some e => exact hopening d (by simpa [ho] using hd)
    · simpa using hw
  · split
    · simpa using hw
    · exact hopening

theorem Rule.ArgTypes.placed_splitCall {first next : Word} :
    (splitCall first next).Placed P ↔ P (first.span.through next.span) := by
  simp [splitCall]

namespace Checker

/-- When words are checked, `next` is taken for the rest of a call that started in `first`. -/
def Joins (c : Checker) (words : List Word) (first next : Word) : Prop :=
  ∃ before after, words = before ++ next :: after ∧
    Marks.inside (c.writeWords before).1.tracker.cursor.inComment next.text = false ∧
    Marks.problem false next = none ∧ Watch.pending? (c.writeWords before).1.watches = some first

theorem placed_writeWords {c : Checker} (hc : c.tracker.Placed P) (words : List Word) :
    (c.writeWords words).1.tracker.Placed P := by
  induction words generalizing c with
  | nil => exact hc
  | cons w words ih =>
    rw [writeWords]
    exact ih ⟨hc.nesting, hc.sectionMark⟩

theorem mem_snd_writeWords_iff {c : Checker} {words : List Word} {d : Diagnostic} :
    d ∈ (c.writeWords words).2 ↔
      (∃ before w after, words = before ++ w :: after ∧
        ∃ p ∈ Marks.problem (Marks.inside (c.writeWords before).1.tracker.cursor.inComment w.text) w,
          d = p.withCode syntaxCode) ∨
      ∃ first next, c.Joins words first next ∧
        d = (Rule.ArgTypes.splitCall first next).withCode Rule.argTypes.name := by
  rw [mem_snd_writeWords]
  constructor
  · rintro ⟨before, next, after, hs, hd⟩
    rw [snd_writeWord] at hd
    cases hm : Marks.problem (Marks.inside (c.writeWords before).1.tracker.cursor.inComment next.text) next with
    | some p =>
      rw [hm] at hd
      obtain rfl : p.withCode syntaxCode = d := by simpa using hd
      exact .inl ⟨before, next, after, hs, p, hm, rfl⟩
    | none =>
      cases hi : Marks.inside (c.writeWords before).1.tracker.cursor.inComment next.text with
      | true =>
        rw [hi] at hm
        simp [hm, hi] at hd
      | false =>
        rw [hi] at hm
        simp only [hi, hm, Option.map_none, Option.none_or, Bool.false_eq_true, if_false, Option.mem_def,
          Option.map_eq_some_iff] at hd
        obtain ⟨first, hf, rfl⟩ := hd
        exact .inr ⟨first, next, ⟨before, after, hs, hi, hm, hf⟩, rfl⟩
  · rintro (⟨before, w, after, hs, p, hp, rfl⟩ | ⟨first, next, ⟨before, after, hs, hi, hm, hf⟩, rfl⟩)
    · refine ⟨before, w, after, hs, ?_⟩
      rw [snd_writeWord, Option.mem_def.1 hp]
      rfl
    · refine ⟨before, next, after, hs, ?_⟩
      rw [snd_writeWord, hi, hm, hf]
      rfl

theorem exists_of_not_placed {c : Checker} {words : List Word} (hw : ∀ w ∈ words, P w.span) {d : Diagnostic} :
    d ∈ (c.writeWords words).2 ∧ ¬ d.Placed P ↔
      ∃ first next, c.Joins words first next ∧ ¬ P (first.span.through next.span) ∧
        d = (Rule.ArgTypes.splitCall first next).withCode Rule.argTypes.name := by
  rw [mem_snd_writeWords_iff]
  constructor
  · rintro ⟨⟨before, w, after, hs, p, hm, rfl⟩ | ⟨first, next, hj, rfl⟩, hp⟩
    · exact absurd (Diagnostic.placed_withCode.2 (Marks.placed_problem _ (hw w (by simp [hs])) p hm)) hp
    · refine ⟨first, next, hj, fun h => hp ?_, rfl⟩
      exact Diagnostic.placed_withCode.2 (Rule.ArgTypes.placed_splitCall.2 h)
  · rintro ⟨first, next, hj, hp, rfl⟩
    refine ⟨.inr ⟨first, next, hj, rfl⟩, fun h => hp ?_⟩
    exact Rule.ArgTypes.placed_splitCall.1 (Diagnostic.placed_withCode.1 h)

end Checker

end MapScript
