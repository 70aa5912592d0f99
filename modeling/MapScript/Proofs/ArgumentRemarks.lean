import MapScript.Proofs.Calls

/-! What the rule for the types of arguments can say of an atom, and that it says what is wrong with each argument. -/

namespace MapScript

def Atom.condition? : Atom → Option Word
  | .ifThen _ condition => some condition
  | .elseIf _ condition => some condition
  | _ => none

def Atom.slots : Atom → List (ArgType × Word)
  | .define _ name => [(.word, name)]
  | .undefine _ name => [(.word, name)]
  | .const _ name value => (.word, name) :: value.toList.map fun v => (.number, v)
  | .command name args => (((Catalog.find? name.text).map Entry.args).getD []).zip args
  | _ => []

def Atom.Lacks (a : Atom) : Prop :=
  ∃ name args entry, a = .command name args ∧ Catalog.find? name.text = some entry ∧ args.length < entry.arity

namespace Rule.ArgTypes

/-- What can be said of an atom: about the name in a condition, about an argument against its type, that arguments
are missing, or about the range of an argument that is a numeral or does not have to be one. -/
inductive Remark (scope : Scope) (a : Atom) : Diagnostic → Prop
  | condition {w : Word} {d : Diagnostic} (hw : w ∈ a.condition?) (hd : d ∈ checkDefined scope w) : Remark scope a d
  | slot {type : ArgType} {w : Word} {d : Diagnostic} (hw : (type, w) ∈ a.slots)
      (hd : d ∈ checkArg scope a.head type w) : Remark scope a d
  | missing (ha : a.Lacks) : Remark scope a (.error a.span ("Missing arguments to " ++ a.head.text))
  | range {w : Word} (ha : a.kind = .command) (hw : w ∈ a.tail)
      (hn : Numeral.isNumeral w.text = true ∨ ∃ type, type ≠ .number ∧ (type, w) ∈ a.slots) (message : Text) :
      Remark scope a (.warning w.span message)

theorem mem_checkArgs_iff {scope : Scope} {a : Atom} {name : Word} {types : List ArgType} {args : List Word}
    {d : Diagnostic} :
    d ∈ checkArgs scope a name types args ↔
      (∃ type w, (type, w) ∈ types.zip args ∧ d ∈ checkArg scope name type w) ∨
        args.length < types.length ∧ d = .error a.span ("Missing arguments to " ++ name.text) := by
  induction types generalizing args with
  | nil => simp [checkArgs]
  | cons type types ih =>
    cases args with
    | nil => simp [checkArgs]
    | cons arg args =>
      simp only [checkArgs, List.mem_append, Option.mem_toList, ih, List.zip_cons_cons, List.mem_cons,
        List.length_cons, Nat.add_lt_add_iff_right, Prod.mk.injEq]
      constructor
      · rintro (hd | ⟨u, w, hw, hd⟩ | hm)
        · exact .inl ⟨type, arg, .inl ⟨rfl, rfl⟩, hd⟩
        · exact .inl ⟨u, w, .inr hw, hd⟩
        · exact .inr hm
      · rintro (⟨u, w, ⟨rfl, rfl⟩ | hw, hd⟩ | hm)
        · exact .inl hd
        · exact .inr (.inl ⟨u, w, hw, hd⟩)
        · exact .inr (.inr hm)

theorem mem_of_argValue {args : List Word} {i : Nat} {found : Option (Word × Int)} (h : argValue args i = .ok found)
    {w : Word} {n : Int} (hw : (w, n) ∈ found) : w ∈ args ∧ Numeral.isNumeral w.text = true := by
  unfold argValue at h
  split at h
  · next arg ha =>
    simp only [bind_eq_ok, pure_eq_ok, Numeral.value?] at h
    obtain ⟨value, hv, rfl⟩ := h
    obtain ⟨m, rfl, he⟩ := Option.map_eq_some_iff.1 hw
    obtain ⟨rfl, rfl⟩ := Prod.mk.inj he
    refine ⟨List.mem_of_getElem? ha, ?_⟩
    by_contra hn
    rw [if_neg hn] at hv
    cases hv
  · rw [pure_eq_ok] at h
    simp [← h] at hw

/-- A warning about an argument that is a numeral, or about what an assignment is to. -/
def Ranged (name : Word) (args : List Word) (d : Diagnostic) : Prop :=
  ∃ w message, d = .warning w.span message ∧
    (w ∈ args ∧ Numeral.isNumeral w.text = true ∨ name.text = "assign_to" ∧ w ∈ args.head?)

theorem ranged_of_checkValue {name : Word} {args : List Word} {i : Nat} {value : Option (Word × Int)}
    (h : argValue args i = .ok value) {good : Int → Bool} {message : Text} {d : Diagnostic}
    (hd : d ∈ checkValue value good message) : Ranged name args d := by
  unfold checkValue at hd
  split at hd
  · next w n =>
    split at hd
    · simp at hd
    · exact ⟨w, message, List.mem_singleton.1 hd, .inl (mem_of_argValue h rfl)⟩
  · simp at hd

theorem ranged_of_checkAssign {name : Word} (hname : name.text = "assign_to") {args : List Word}
    {found : List Diagnostic} (h : checkAssign args = .ok found) {d : Diagnostic} (hd : d ∈ found) :
    Ranged name args d := by
  simp only [checkAssign, bind_eq_ok, pure_eq_ok] at h
  obtain ⟨number, hnumber, mode, hmode, flags, hflags, rfl⟩ := h
  simp only [List.mem_append] at hd
  rcases hd with ((hd | hd) | hd) | hd
  · cases args with
    | nil => simp [checkAssignTarget] at hd
    | cons first rest =>
      rw [checkAssignTarget] at hd
      split at hd
      · simp at hd
      · exact ⟨first, _, List.mem_singleton.1 hd, .inr ⟨hname, rfl⟩⟩
  · unfold checkAssignNumber at hd
    split at hd
    · exact ranged_of_checkValue hnumber hd
    · exact ranged_of_checkValue hnumber hd
    · simp at hd
  · unfold checkAssignMode at hd
    split at hd
    · exact ranged_of_checkValue hmode hd
    · exact ranged_of_checkValue hmode hd
    · simp at hd
  · exact ranged_of_checkValue hflags hd

theorem ranged_of_checkRanges {name : Word} {args : List Word} {found : List Diagnostic}
    (h : checkRanges name args = .ok found) {d : Diagnostic} (hd : d ∈ found) : Ranged name args d := by
  unfold checkRanges at h
  split at h
  · simp only [bind_eq_ok, pure_eq_ok] at h
    obtain ⟨value, hv, rfl⟩ := h
    exact ranged_of_checkValue hv hd
  · split at h
    · simp only [bind_eq_ok, pure_eq_ok] at h
      obtain ⟨first, hfirst, second, hsecond, rfl⟩ := h
      cases List.mem_append.1 hd with
      | inl hd => exact ranged_of_checkValue hfirst hd
      | inr hd => exact ranged_of_checkValue hsecond hd
    · split at h
      · split at h
        · next arg rest =>
          obtain rfl := pure_eq_ok.1 h
          split at hd
          · next hzone =>
            refine ⟨arg, _, List.mem_singleton.1 hd, .inl ⟨List.mem_cons_self, ?_⟩⟩
            rw [beq_iff_eq.1 hzone]
            decide
          · simp at hd
        · obtain rfl := pure_eq_ok.1 h
          simp at hd
      · split at h
        · next hassign => exact ranged_of_checkAssign (beq_iff_eq.1 hassign) h hd
        · obtain rfl := pure_eq_ok.1 h
          simp at hd

theorem args_assign : (Catalog.find? "assign_to").map Entry.args = some [.token, .number, .number, .number] := by
  decide +kernel

theorem remark_of_onAtom {scope : Scope} {a : Atom} {problems : List Diagnostic} (h : onAtom scope a = .ok problems)
    {d : Diagnostic} (hd : d ∈ problems) : Remark scope a d := by
  cases a with
  | ifThen head w | elseIf head w =>
    obtain rfl := pure_eq_ok.1 h
    exact .condition rfl (Option.mem_toList.1 hd)
  | define head w | undefine head w =>
    obtain rfl := pure_eq_ok.1 h
    exact .slot (List.mem_singleton.2 rfl) (Option.mem_toList.1 hd)
  | const head name value =>
    obtain rfl := pure_eq_ok.1 h
    cases List.mem_append.1 hd with
    | inl hd => exact .slot List.mem_cons_self (Option.mem_toList.1 hd)
    | inr hd =>
      obtain ⟨v, rfl, hv⟩ := Option.bind_eq_some_iff.1 (Option.mem_toList.1 hd)
      exact .slot (List.mem_cons_of_mem _ (List.mem_singleton.2 rfl)) hv
  | command name args =>
    simp only [onAtom, bind_eq_ok, pure_eq_ok] at h
    obtain ⟨ranges, hranges, rfl⟩ := h
    cases List.mem_append.1 hd with
    | inl hd =>
      rcases mem_checkArgs_iff.1 hd with ⟨type, w, hw, hd⟩ | ⟨hl, rfl⟩
      · exact .slot hw hd
      · cases he : Catalog.find? name.text with
        | none => simp [he] at hl
        | some entry => exact .missing ⟨name, args, entry, rfl, he, by simpa [he, Entry.arity] using hl⟩
    | inr hd =>
      obtain ⟨w, message, rfl, ⟨hw, hn⟩ | ⟨hname, hw⟩⟩ := ranged_of_checkRanges hranges hd
      · exact .range rfl hw (.inl hn) message
      · obtain ⟨rest, rfl⟩ := List.head?_eq_some_iff.1 hw
        refine .range rfl List.mem_cons_self (.inr ⟨.token, by decide, ?_⟩) message
        simp [Atom.slots, hname, args_assign]
  | _ =>
    obtain rfl := pure_eq_ok.1 h
    simp at hd

/-- What is wrong with an argument is said of the atom. -/
theorem mem_onAtom_of_slot {scope : Scope} {a : Atom} {problems : List Diagnostic} (h : onAtom scope a = .ok problems)
    {type : ArgType} {w : Word} (hw : (type, w) ∈ a.slots) {d : Diagnostic} (hd : d ∈ checkArg scope a.head type w) :
    d ∈ problems := by
  cases a with
  | define head name | undefine head name =>
    obtain ⟨rfl, rfl⟩ := Prod.mk.inj (List.mem_singleton.1 hw)
    obtain rfl := pure_eq_ok.1 h
    exact Option.mem_toList.2 hd
  | const head name value =>
    obtain rfl := pure_eq_ok.1 h
    cases List.mem_cons.1 hw with
    | inl hw =>
      obtain ⟨rfl, rfl⟩ := Prod.mk.inj hw
      exact List.mem_append_left _ (Option.mem_toList.2 hd)
    | inr hw =>
      obtain ⟨v, hv, he⟩ := List.mem_map.1 hw
      obtain ⟨rfl, rfl⟩ := Prod.mk.inj he
      rw [Option.mem_toList] at hv
      refine List.mem_append_right _ (Option.mem_toList.2 ?_)
      rw [hv]
      exact hd
  | command name args =>
    simp only [onAtom, bind_eq_ok, pure_eq_ok] at h
    obtain ⟨ranges, hranges, rfl⟩ := h
    exact List.mem_append_left _ (mem_checkArgs_iff.2 (.inl ⟨type, w, hw, hd⟩))
  | _ => simp [Atom.slots] at hw

theorem message_suggestName {d : Diagnostic} (hd : d.suggestions = []) {w : Word} {names : List Text} {s : Suggestion}
    (hs : s ∈ (suggestName d w names).suggestions) : s.message.startsWith "Did you mean" = true := by
  unfold suggestName at hs
  split at hs
  · obtain rfl : s = _ := by simpa [Diagnostic.suggest, hd] using hs
    rfl
  · simp [hd] at hs

theorem message_checkDefined {scope : Scope} {w : Word} {d : Diagnostic} (h : d ∈ checkDefined scope w) {s : Suggestion}
    (hs : s ∈ d.suggestions) : s.message.startsWith "Did you mean" = true := by
  unfold checkDefined at h
  split at h
  · simp at h
  · obtain rfl := Option.some.inj h
    exact message_suggestName rfl hs

theorem message_checkValued {scope : Scope} {w : Word} {d : Diagnostic} (h : d ∈ checkValued scope w) {s : Suggestion}
    (hs : s ∈ d.suggestions) : s.message.startsWith "Did you mean" = true := by
  unfold checkValued at h
  split at h
  · simp at h
  · split at h
    · obtain rfl := Option.some.inj h
      simp [Diagnostic.warning] at hs
    · obtain rfl := Option.some.inj h
      exact message_suggestName rfl hs

theorem suggestions_checkName {w : Word} {d : Diagnostic} (h : d ∈ checkName w) : d.suggestions = [] := by
  unfold checkName at h
  split at h
  · obtain rfl := Option.some.inj h
    rfl
  · simp at h

/-- What is offered for an atom concerns names, capitals and a missing `rnd`, and never blanks. -/
theorem Remark.message {scope : Scope} {a : Atom} {d : Diagnostic} (h : Remark scope a d) {s : Suggestion}
    (hs : s ∈ d.suggestions) : s.message.startsWith "Did you mean" = true ∨
      s.message = "Did you forget the `rnd`?" ∨ s.message = "Use uppercase for constants" := by
  have hother : ∀ {w : Word} {other : Option Diagnostic}, d ∈ (checkName w <|> other) → d ∈ other := by
    intro w other hd
    simp only [Option.orElse_eq_orElse, Option.orElse_eq_or, Option.mem_def, Option.or_eq_some_iff] at hd
    obtain hd | ⟨-, hd⟩ := hd
    · simp [suggestions_checkName hd] at hs
    · exact hd
  cases h with
  | condition hw hd => exact .inl (message_checkDefined hd hs)
  | missing | range => simp [Diagnostic.error, Diagnostic.warning] at hs
  | @slot type w d hw hd =>
    cases type with
    | number =>
      rw [suggestion_of_checkNumber hd hs]
      exact .inr (.inl rfl)
    | word =>
      have hcapitals := hother hd
      unfold checkCapitals at hcapitals
      split at hcapitals
      · obtain rfl := Option.some.inj hcapitals
        obtain rfl : s = _ := by simpa [Diagnostic.suggest, Diagnostic.warning] using hs
        exact .inr (.inr rfl)
      · simp at hcapitals
    | optionalToken => exact .inl (message_checkDefined (hother hd) hs)
    | token => exact .inl (message_checkValued (hother hd) hs)
    | fileName => simp [checkArg] at hd

end Rule.ArgTypes

end MapScript
