import MapScript.Proofs.Limits

/-! Calls of `rnd`, and those that are offered in place of an argument. Two words are put together only if that gives
a call. Before an argument in brackets `rnd` is put whatever stands in the brackets, so that this may give none. -/

namespace MapScript

namespace Text

theorem join_fields (sep : Glyph) (t : Text) : join [sep] (fields sep t) = t := by
  induction t with
  | nil => simp [fields, join]
  | cons g t ih =>
    obtain ⟨field, more, hf⟩ := List.exists_cons_of_ne_nil (fields_ne_nil sep t)
    rw [hf] at ih
    by_cases hg : g = sep
    · rw [fields, if_pos hg, hf, join, List.intercalate_cons_cons, ← join, ih, hg]
      rfl
    · rw [fields, if_neg hg, hf, ← ih]
      cases more with
      | nil => simp [join]
      | cons next more => simp [join, List.intercalate_cons_cons]

theorem fields_join {sep : Glyph} {parts : List Text} (hne : parts ≠ []) (h : ∀ part ∈ parts, sep ∉ part) :
    fields sep (join [sep] parts) = parts := by
  induction parts with
  | nil => exact absurd rfl hne
  | cons part rest ih =>
    have hpart : fields sep part = [part] := fields_of_notMem (h part (by simp))
    cases rest with
    | nil => simpa [join] using hpart
    | cons next rest =>
      have hrest := ih (by simp) fun p hp => h p (List.mem_cons_of_mem part hp)
      rw [join, List.intercalate_cons_cons, List.append_assoc, List.singleton_append, ← join, fields_append_cons,
        hpart, hrest]
      rfl

end Text

namespace Numeral

theorem mem_of_isNumeral {t : Text} (h : isNumeral t = true) {g : Glyph} (hg : g ∈ t) :
    g = .char '+' ∨ g = .char '-' ∨ isDigit g = true := by
  obtain ⟨sign, hs, ht⟩ := exists_sign t
  have hdigits : ∀ x ∈ (splitSign t).2, isDigit x = true := by
    simp only [isNumeral, Bool.and_eq_true, List.all_eq_true] at h
    exact h.2
  rw [ht] at hg
  cases List.mem_append.1 hg with
  | inl hg =>
    simp only [List.mem_cons, List.not_mem_nil, or_false] at hs
    rcases hs with rfl | rfl | rfl
    · simp at hg
    · exact .inl (List.mem_singleton.1 hg)
    · exact .inr (.inl (List.mem_singleton.1 hg))
  | inr hg => exact .inr (.inr (hdigits g hg))

theorem not_isBlank_of_isDigit {g : Glyph} (h : isDigit g = true) : g.isBlank = false := by
  obtain ⟨c, rfl, hlow, hhigh⟩ := isDigit_iff.1 h
  have hl : 48 ≤ c.toNat := hlow
  have hh : c.toNat ≤ 57 := hhigh
  rw [Glyph.isBlank, Bool.eq_false_iff]
  intro hc
  obtain ⟨r, hr, hfirst, hlast⟩ := Run.exists_of_cover hc
  -- Every run of blanks ends before the digits or starts after them.
  have hruns : ∀ r ∈ Glyph.blankRuns, r.last < 48 ∨ 57 < r.first := by decide
  have := hruns r hr
  omega

theorem not_isBlank_of_isNumeral {t : Text} (h : isNumeral t = true) : ∀ g ∈ t, g.isBlank = false := by
  intro g hg
  rcases mem_of_isNumeral h hg with rfl | rfl | hd
  · decide
  · decide
  · exact not_isBlank_of_isDigit hd

theorem comma_notMem_of_isNumeral {t : Text} (h : isNumeral t = true) : Glyph.char ',' ∉ t := by
  intro hg
  rcases mem_of_isNumeral h hg with he | he | hd
  · exact absurd he (by decide)
  · exact absurd he (by decide)
  · exact absurd hd (by decide)

end Numeral

namespace Rnd

/-- Numerals in brackets with commas between them: what comes after `rnd` in a call. -/
def IsList (t : Text) : Prop :=
  ∃ args, args ≠ [] ∧ (∀ arg ∈ args, Numeral.isNumeral arg = true) ∧ t = "(" ++ (Text.join "," args ++ ")")

theorem slice_call (inner : Text) : Text.slice (opening ++ (inner ++ ")")) 4 ((opening ++ (inner ++ ")")).length - 1) =
    inner := by
  have hlen : (opening ++ (inner ++ ")")).length - 1 = (opening ++ inner).length := by
    simp [opening, Text.ofString]
  rw [hlen]
  exact Text.slice_middle opening inner ")"

theorem isCall_append (inner : Text) :
    isCall (opening ++ (inner ++ ")")) = (Text.fields (.char ',') inner).all Numeral.isNumeral := by
  have hs : Text.startsWith (opening ++ (inner ++ ")")) opening = true := by
    simp [Text.startsWith]
  have he : Text.endsWith (opening ++ (inner ++ ")")) ")" = true := by
    rw [Text.endsWith, List.isSuffixOf_iff_suffix]
    exact ⟨opening ++ inner, by simp⟩
  rw [isCall, hs, he, slice_call]
  rfl

theorem exists_inner {t : Text} (hs : t.startsWith opening = true) (he : t.endsWith ")" = true) :
    ∃ inner, t = opening ++ (inner ++ ")") := by
  obtain ⟨rest, rfl⟩ := List.isPrefixOf_iff_prefix.1 hs
  obtain ⟨front, hf⟩ := List.isSuffixOf_iff_suffix.1 he
  rcases rest.eq_nil_or_concat with rfl | ⟨inner, last, rfl⟩
  · have hlast := congrArg List.getLast? hf
    simp [opening, Text.ofString] at hlast
  · have hlast := congrArg List.getLast? hf
    refine ⟨inner, ?_⟩
    simp [Text.ofString] at hlast
    simp [hlast, Text.ofString]

theorem isCall_iff {t : Text} : isCall t = true ↔ ∃ list, IsList list ∧ t = "rnd" ++ list := by
  have hopening : ∀ inner : Text, opening ++ (inner ++ ")") = "rnd" ++ ("(" ++ (inner ++ ")")) := fun _ => rfl
  constructor
  · intro h
    have hshape : t.startsWith opening = true ∧ t.endsWith ")" = true := by
      simp only [isCall, Bool.and_eq_true] at h
      exact h.1
    obtain ⟨inner, rfl⟩ := exists_inner hshape.1 hshape.2
    rw [isCall_append, List.all_eq_true] at h
    refine ⟨_, ⟨Text.fields (.char ',') inner, Text.fields_ne_nil _ _, h, rfl⟩, ?_⟩
    rw [hopening]
    exact congrArg (fun x : Text => "rnd" ++ ("(" ++ (x ++ ")"))) (Text.join_fields (.char ',') inner).symm
  · rintro ⟨_, ⟨args, hne, hargs, rfl⟩, rfl⟩
    have hfields : Text.fields (.char ',') (Text.join "," args) = args :=
      Text.fields_join hne fun arg harg => Numeral.comma_notMem_of_isNumeral (hargs arg harg)
    rw [← hopening, isCall_append, hfields, List.all_eq_true]
    exact hargs

theorem isCall_rnd_append {list : Text} : isCall ("rnd" ++ list) = true ↔ IsList list := by
  rw [isCall_iff]
  constructor
  · rintro ⟨other, ho, he⟩
    exact List.append_cancel_left he ▸ ho
  · intro h
    exact ⟨list, h, rfl⟩

theorem IsList.not_isBlank {list : Text} (h : IsList list) : ∀ g ∈ list, g.isBlank = false := by
  obtain ⟨args, -, hargs, rfl⟩ := h
  have hmark : ∀ g ∈ (Text.ofString "(" ++ ("," ++ ")") : Text), g.isBlank = false := by decide
  have hjoin : ∀ g ∈ Text.join "," args, g.isBlank = false := by
    clear hmark
    induction args with
    | nil => simp [Text.join]
    | cons arg rest ih =>
      have harg := Numeral.not_isBlank_of_isNumeral (hargs arg (by simp))
      have hrest := ih fun a ha => hargs a (List.mem_cons_of_mem arg ha)
      cases rest with
      | nil => simpa [Text.join] using harg
      | cons next rest =>
        rw [Text.join, List.intercalate_cons_cons, ← Text.join]
        intro g hg
        simp only [List.mem_append, or_assoc] at hg
        rcases hg with hg | hg | hg
        · exact harg g hg
        · rw [List.mem_singleton.1 hg]
          decide
        · exact hrest g hg
  intro g hg
  simp only [List.mem_append] at hg hmark
  rcases hg with hg | hg | hg
  · exact hmark g (.inl hg)
  · exact hjoin g hg
  · exact hmark g (.inr (.inr hg))

theorem not_isBlank_of_isCall {t : Text} (h : isCall t = true) : ∀ g ∈ t, g.isBlank = false := by
  obtain ⟨list, hl, rfl⟩ := isCall_iff.1 h
  intro g hg
  cases List.mem_append.1 hg with
  | inl hg =>
    have hrnd : ∀ g ∈ Text.ofString "rnd", g.isBlank = false := by decide
    exact hrnd g hg
  | inr hg => exact hl.not_isBlank g hg

theorem isCall_of_joined? {t call : Text} (h : joined? t = some call) :
    call = Text.removeBlanks t ∧ isCall call = true := by
  simp only [joined?, Option.ite_none_right_eq_some, Option.some.injEq, Bool.and_eq_true] at h
  exact ⟨h.2.symm, h.2 ▸ h.1.2⟩

theorem joined?_of_isCall {t : Text} (h : isCall t = true) : joined? t = none := by
  simp [joined?, h]

/-- What is put in place of a text that should be a call is one exactly if the text is one without its blanks. -/
theorem isCall_joined?_getD {t : Text} : isCall ((joined? t).getD t) = true ↔ isCall (Text.removeBlanks t) = true := by
  cases hj : joined? t with
  | some call =>
    obtain ⟨rfl, hc⟩ := isCall_of_joined? hj
    simp [hc]
  | none =>
    rw [Option.getD_none]
    constructor
    · intro h
      rwa [Text.removeBlanks_eq_self (not_isBlank_of_isCall h)]
    · intro h
      by_contra hc
      have hblank : ∀ g ∈ t, g.isBlank = false := by
        simpa [joined?, Bool.eq_false_iff.2 hc, h] using hj
      rw [Text.removeBlanks_eq_self hblank] at h
      exact hc h

end Rnd

namespace Rule.ArgTypes

open Rnd (isCall joined? IsList)

/-- For an argument that is no number there is at most one fix: `rnd` before it, and no blanks if that makes a call. -/
theorem suggestion_of_checkNumber {scope : Scope} {name arg : Word} {d : Diagnostic}
    (h : d ∈ checkNumber scope name arg) {s : Suggestion} (hs : s ∈ d.suggestions) :
    s = ⟨arg.span, "Did you forget the `rnd`?",
      .safe ((joined? ("rnd" ++ arg.text)).getD ("rnd" ++ arg.text))⟩ := by
  unfold checkNumber at h
  split at h
  · simp at h
  · dsimp only at h
    split at h
    · obtain rfl := Option.some.inj h
      simpa [Diagnostic.suggest, Diagnostic.error] using hs
    · obtain rfl := Option.some.inj h
      simp [Diagnostic.error] at hs

/-- The fix for an argument is a call exactly if the argument, less its blanks, is a list of numerals. -/
theorem isCall_of_checkNumber {scope : Scope} {name arg : Word} {d : Diagnostic} (h : d ∈ checkNumber scope name arg)
    {s : Suggestion} (hs : s ∈ d.suggestions) {t : Text} (ht : s.replacement = .safe t) :
    isCall t = true ↔ IsList (Text.removeBlanks arg.text) := by
  have hrnd : Text.removeBlanks ("rnd" ++ arg.text) = "rnd" ++ Text.removeBlanks arg.text := by
    rw [Text.removeBlanks_append]
    rfl
  rw [suggestion_of_checkNumber h hs, Replacement.safe.injEq] at ht
  rw [← ht, Rnd.isCall_joined?_getD, hrnd, Rnd.isCall_rnd_append]

theorem isCall_of_splitCall {first next : Word} {s : Suggestion} (hs : s ∈ (splitCall first next).suggestions)
    {t : Text} (ht : s.replacement.text? = some t) : s.span = first.span.through next.span ∧
      t = Text.removeBlanks (first.text ++ " " ++ next.text) ∧ isCall t = true := by
  rw [splitCall] at hs
  cases hj : joined? (first.text ++ " " ++ next.text) with
  | some call =>
    rw [hj] at hs
    obtain rfl : s = ⟨first.span.through next.span, "rnd() must not contain spaces", .safe call⟩ := by
      simpa [Diagnostic.suggest, Diagnostic.error] using hs
    obtain rfl := Option.some.inj ht
    exact ⟨rfl, Rnd.isCall_of_joined? hj⟩
  | none =>
    rw [hj] at hs
    obtain rfl : s = ⟨first.span.through next.span, "rnd() must not contain spaces", .absent⟩ := by
      simpa [Diagnostic.suggest, Diagnostic.error] using hs
    simp [Replacement.text?] at ht

theorem checkNumber_of_isCall (scope : Scope) (name : Word) {arg : Word} (h : isCall arg.text = true) :
    checkNumber scope name arg = none := by
  rw [checkNumber, if_pos]
  simp [isNumber, h]

/-- A safe fix is a call that needs no more fixing, and so is accepted as a number, if it puts two words together.
`rnd` before an argument gives such a call exactly if the argument is a list of numerals when its blanks are gone. -/
theorem isCall_fix_iff (scope : Scope) (name arg : Word) :
    (∀ d ∈ checkNumber scope name arg, ∀ s ∈ d.suggestions, ∀ t, s.replacement = .safe t →
      ((isCall t = true ∧ joined? t = none) ↔ IsList (Text.removeBlanks arg.text))) ∧
    (∀ cursor unfinished, ∀ d ∈ (onWord cursor unfinished arg).1, ∀ s ∈ d.suggestions, ∀ t, s.replacement = .safe t →
      isCall t = true ∧ joined? t = none) ∧
    (isCall arg.text = true ∧ joined? arg.text = none → checkNumber scope name arg = none) := by
  refine ⟨?_, ?_, fun h => checkNumber_of_isCall scope name h.1⟩
  · intro d hd s hs t ht
    rw [← isCall_of_checkNumber hd hs ht]
    exact and_iff_left_of_imp Rnd.joined?_of_isCall
  · intro cursor unfinished d hd s hs t ht
    cases unfinished with
    | none =>
      have hquiet : (onWord cursor none arg).1 = none := by
        simp only [onWord]
        split
        · split <;> rfl
        · rfl
      simp [hquiet] at hd
    | some first =>
      obtain rfl : splitCall first arg = d := by simpa [onWord] using hd
      obtain ⟨-, -, hc⟩ := isCall_of_splitCall hs (congrArg Replacement.text? ht)
      exact ⟨hc, Rnd.joined?_of_isCall hc⟩

theorem isCall_fix_brackets :
    (∃ d ∈ checkNumber ⟨.conquerors, [], [], [], [], [], none, false⟩ ⟨"create_elevation", 0, 0⟩ ⟨"(1,5)", 0, 17⟩,
      ∃ s ∈ d.suggestions, s.replacement = .safe "rnd(1,5)" ∧
      ((isCall "rnd(1,5)" = true ∧ joined? "rnd(1,5)" = none) ↔ IsList (Text.removeBlanks "(1,5)"))) ∧
    (∃ d ∈ (onWord ⟨none, 0, false⟩ (some ⟨"rnd(1,", 0, 17⟩) ⟨"5)", 0, 24⟩).1, ∃ s ∈ d.suggestions,
      s.replacement = .safe "rnd(1,5)" ∧ isCall "rnd(1,5)" = true ∧ joined? "rnd(1,5)" = none) ∧
    checkNumber ⟨.conquerors, [], [], [], [], [], none, false⟩ ⟨"create_elevation", 0, 0⟩ ⟨"rnd(1,5)", 0, 17⟩ =
      none := by
  have hd : checkNumber ⟨.conquerors, [], [], [], [], [], none, false⟩ ⟨"create_elevation", 0, 0⟩ ⟨"(1,5)", 0, 17⟩ =
      some ((Diagnostic.error ⟨0, 17, 22⟩ "Expected a number argument to create_elevation, but got (1,5)").suggest
        ⟨0, 17, 22⟩ "Did you forget the `rnd`?" (.safe "rnd(1,5)")) := by decide +kernel
  have hsplit : (onWord ⟨none, 0, false⟩ (some ⟨"rnd(1,", 0, 17⟩) ⟨"5)", 0, 24⟩).1 =
      some ((Diagnostic.error ⟨0, 17, 26⟩ "Incorrect rnd() call").suggest
        ⟨0, 17, 26⟩ "rnd() must not contain spaces" (.safe "rnd(1,5)")) := by decide +kernel
  refine ⟨⟨_, hd, _, List.mem_singleton.2 rfl, rfl, ?_⟩, ⟨_, hsplit, _, List.mem_singleton.2 rfl, rfl, ?_⟩, ?_⟩
  · exact (isCall_fix_iff _ _ _).1 _ hd _ (List.mem_singleton.2 rfl) _ rfl
  · exact (isCall_fix_iff ⟨.conquerors, [], [], [], [], [], none, false⟩ ⟨"create_elevation", 0, 0⟩ _).2.1 _ _ _ hsplit _
      (List.mem_singleton.2 rfl) _ rfl
  · exact (isCall_fix_iff _ _ _).2.2 (by decide)

/-- An open bracket alone gets a fix that is no call, and that is reported in turn. -/
theorem not_isCall_fix_bracket :
    ((checkNumber (.initial .conquerors) ⟨"create_elevation", 0, 0⟩ ⟨"(5", 0, 17⟩).elim []
      fun d => d.suggestions.map Suggestion.replacement) = [.safe "rnd(5"] ∧ isCall "rnd(5" = false ∧
    (checkNumber (.initial .conquerors) ⟨"create_elevation", 0, 0⟩ ⟨"rnd(5", 0, 17⟩).isSome = true := by
  decide +kernel

end Rule.ArgTypes

end MapScript
