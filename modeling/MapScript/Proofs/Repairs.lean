import MapScript.Proofs.Respelling
import MapScript.Proofs.Severity
import MapScript.Proofs.Statements

/-! The replacements that a check without errors offers. They put names in capitals and names in comments between
backticks, and every statement is read again as before, but for its name. -/

namespace MapScript

namespace Edit

theorem fixable_append (xs ys : List Diagnostic) :
    fixable false none (xs ++ ys) = fixable false none xs ++ fixable false none ys := List.flatMap_append

theorem fixable_withCode (ds : List Diagnostic) (code : Text) :
    fixable false none (ds.map (·.withCode code)) = fixable false none ds := by
  rw [fixable, List.flatMap_map]
  rfl

theorem fixable_eq_nil {ds : List Diagnostic} (h : ∀ d ∈ ds, d.Advice) : fixable false none ds = [] := by
  refine List.flatMap_eq_nil_iff.2 fun d hd => List.filter_eq_nil_iff.2 fun s hs => ?_
  simp [Replacement.isAllowed, (h d hd).isSafe s hs]

end Edit

theorem Diagnostic.eq_nil_of_isError {ds : List Diagnostic} (h : ∀ d ∈ ds, d.isError = true)
    (he : ∀ d ∈ ds, d.isError = false) : ds = [] := by
  refine List.eq_nil_iff_forall_not_mem.2 fun d hd => ?_
  simpa [h d hd] using he d hd

def Atom.named? : Atom → Option Word
  | .const _ name _ => some name
  | .define _ name => some name
  | .undefine _ name => some name
  | _ => none

namespace Rule

open Edit

namespace ArgTypes

theorem checkArg_word {scope : Scope} {head name : Word}
    (he : ∀ d ∈ checkArg scope head .word name, d.isError = false) :
    Numeral.isNumeral name.text = false ∧ checkArg scope head .word name = checkCapitals name := by
  have hname : Numeral.isNumeral name.text = false := by
    by_contra hn
    rw [Bool.not_eq_false] at hn
    simp [checkArg, checkName, hn] at he
  exact ⟨hname, by simp [checkArg, checkName, hname]⟩

theorem isError_or_advice_checkArg {type : ArgType} (h : type ≠ .word) (scope : Scope) (name arg : Word) :
    ∀ d ∈ checkArg scope name type arg, d.isError = true ∨ d.Advice := by
  have hor : ∀ {x y : Option Diagnostic}, (∀ d ∈ x, d.isError = true) → (∀ d ∈ y, d.Advice) →
      ∀ d ∈ x <|> y, d.isError = true ∨ d.Advice := by
    intro x y hx hy
    cases x with
    | none => simpa using fun d hd => .inr (hy d hd)
    | some d => simpa using .inl (hx d rfl)
  cases type with
  | number => exact fun d hd => .inl (checkNumber_isError scope name arg d hd)
  | word => exact absurd rfl h
  | optionalToken => exact hor (checkName_isError arg) (advice_checkDefined scope arg)
  | token => exact hor (checkName_isError arg) (advice_checkValued scope arg)
  | fileName => simp [checkArg]

theorem isError_or_advice_checkArgs {types : List ArgType} (h : .word ∉ types) (scope : Scope) (atom : Atom)
    (name : Word) (args : List Word) :
    ∀ d ∈ checkArgs scope atom name types args, d.isError = true ∨ d.Advice := by
  induction types generalizing args with
  | nil => simp [checkArgs]
  | cons type types ih =>
    rw [List.mem_cons, not_or] at h
    cases args with
    | nil => simp [checkArgs]
    | cons arg args =>
      intro d hd
      cases List.mem_append.1 hd with
      | inl hd =>
        exact isError_or_advice_checkArg (Ne.symm h.1) scope name arg d (Option.mem_toList.1 hd)
      | inr hd => exact ih h.2 args d hd

theorem fixable_onAtom {scope : Scope} {atom : Atom} {found : List Diagnostic} (h : onAtom scope atom = .ok found)
    (he : ∀ d ∈ found, d.isError = false)
    (hword : ∀ {name args entry}, atom = .command name args → Catalog.find? name.text = some entry →
      .word ∉ entry.args) :
    fixable false none found = fixable false none (atom.named?.bind checkCapitals).toList := by
  cases atom with
  | ifThen head condition | elseIf head condition =>
    simp only [onAtom, pure_eq_ok] at h
    rw [← h, fixable_eq_nil (by simpa using advice_checkDefined scope condition)]
    rfl
  | define head name | undefine head name =>
    simp only [onAtom, pure_eq_ok] at h
    rw [← h] at he ⊢
    rw [(checkArg_word (by simpa using he)).2]
    rfl
  | const head name value =>
    simp only [onAtom, pure_eq_ok] at h
    rw [← h, List.forall_mem_append] at he
    have hvalue : (value.bind (checkArg scope head .number)).toList = [] := by
      refine Diagnostic.eq_nil_of_isError (fun d hd => ?_) he.2
      obtain ⟨v, -, hd⟩ := Option.bind_eq_some_iff.1 (Option.mem_toList.1 hd)
      exact checkNumber_isError scope head v d hd
    rw [← h, hvalue, List.append_nil, (checkArg_word (by simpa using he.1)).2]
    rfl
  | command name args =>
    simp only [onAtom, bind_eq_ok, pure_eq_ok] at h
    obtain ⟨ranges, hr, rfl⟩ := h
    refine (fixable_eq_nil (List.forall_mem_append.2 ⟨fun d hd => ?_, advice_checkRanges hr⟩)).trans rfl
    have hnone : .word ∉ ((Catalog.find? name.text).map Entry.args).getD [] := by
      cases hf : Catalog.find? name.text with
      | none => simp
      | some entry => simpa using hword rfl hf
    rcases isError_or_advice_checkArgs hnone scope _ name args d hd with herr | had
    · exact absurd herr (by simp [he d (List.mem_append_left _ hd)])
    · exact had
  | _ =>
    simp only [onAtom, pure_eq_ok] at h
    rw [← h]
    rfl

end ArgTypes

end Rule

open Edit

/-- The replacements that a rule offers for a statement without errors. -/
def Atom.repairs (a : Atom) (tracker : Tracker) : Rule → List Suggestion
  | .argTypes => fixable false none (a.named?.bind Rule.ArgTypes.checkCapitals).toList
  | .commentContents => fixable false none (Rule.CommentContents.onAtom tracker a)
  | _ => []

section Repairs

variable {tracker : Tracker} {atom : Atom}
  (hword : ∀ {name args entry}, atom = .command name args → Catalog.find? name.text = some entry →
    .word ∉ entry.args)

include hword

theorem Watch.fixable_onAtom {watch watch' : Watch} {found : List Diagnostic}
    (h : watch.onAtom tracker atom = .ok (watch', found)) (he : ∀ d ∈ found, d.isError = false) :
    fixable false none found = atom.repairs tracker watch.rule := by
  cases hrule : watch.rule <;>
    simp only [onAtom, hrule, bind_eq_ok, pure_eq_ok, Prod.mk.injEq] at h
  case argTypes =>
    obtain ⟨problems, ho, -, rfl⟩ := h
    exact Rule.ArgTypes.fixable_onAtom ho he hword
  case commentContents =>
    rw [← h.2]
    rfl
  case compatibility =>
    rw [← h.2]
    exact fixable_eq_nil (Rule.Compatibility.advice_onAtom _ _ _)
  case deadComment =>
    rw [← h.2]
    exact fixable_eq_nil (Rule.DeadComment.advice_onAtom _ _)
  case actorAreasMatch =>
    obtain ⟨⟨problems, areas⟩, ho, -, rfl⟩ := h
    exact fixable_eq_nil (Rule.ActorAreas.advice_onAtom ho)
  case attributeCase =>
    rw [Diagnostic.eq_nil_of_isError (h.2 ▸ Rule.AttributeCase.onAtom_isError _) he]
    rfl
  case inclusion =>
    rw [Diagnostic.eq_nil_of_isError (h.2 ▸ Rule.Inclusion.onAtom_isError _ _) he]
    rfl
  case incorrectSection =>
    rw [Diagnostic.eq_nil_of_isError (h.2 ▸ Rule.IncorrectSection.onAtom_isError _ _) he]
    rfl
  case unknownAttribute =>
    rw [Diagnostic.eq_nil_of_isError (h.2 ▸ Rule.UnknownAttribute.onAtom_isError _) he]
    rfl

theorem Watch.fixable_allOnAtom {watches watches' : List Watch} {found : List Diagnostic}
    (h : allOnAtom tracker atom watches = .ok (watches', found)) (he : ∀ d ∈ found, d.isError = false) :
    fixable false none found = (watches.map Watch.rule).flatMap (atom.repairs tracker) := by
  induction watches generalizing watches' found with
  | nil =>
    simp only [allOnAtom, pure_eq_ok, Prod.mk.injEq] at h
    rw [← h.2]
    rfl
  | cons watch rest ih =>
    obtain ⟨watch', problems, rest', more, hw, hr, -, rfl⟩ := allOnAtom_cons h
    rw [List.forall_mem_append] at he
    have hproblems : ∀ d ∈ problems, d.isError = false := fun d hd =>
      he.1 (d.withCode watch.rule.name) (List.mem_map_of_mem hd)
    rw [fixable_append, fixable_withCode, fixable_onAtom hword hw hproblems, ih hr he.2]
    rfl

omit hword in
/-- A whole statement without errors fits what is open, and all that is said about it comes from the rules. -/
theorem Checker.writeItem_sound {c d : Checker} {found : List Diagnostic}
    (h : c.writeItem (.sound atom) = .ok (d, found)) (he : ∀ x ∈ found, x.isError = false) :
    ∃ watches, Watch.allOnAtom c.tracker atom c.watches = .ok (watches, found) ∧
      d = ⟨watches, (c.tracker.update atom).1⟩ ∧ (c.tracker.update atom).2 = none := by
  obtain ⟨watches, problems, hw, rfl, hfound⟩ := writeItem_eq_ok.1 h
  have hflaws : ∀ c : Checker, c.writeFlaws ⟨atom, []⟩ = [] := fun _ => rfl
  simp only [Item.sound, hflaws, List.append_nil] at hw hfound
  cases hproblem : (c.tracker.update atom).2 with
  | none => exact ⟨watches, by simpa [hfound, hproblem] using hw, rfl, rfl⟩
  | some x =>
    have hx : (x.withCode syntaxCode).isError = false := he _ (by simp [hfound, hproblem])
    have herror := Nesting.step_isError c.tracker.nesting atom x hproblem
    simp [herror] at hx

theorem Checker.fixable_writeItem {c d : Checker} (hc : c.rules = Rule.defaults) {found : List Diagnostic}
    (h : c.writeItem (.sound atom) = .ok (d, found)) (he : ∀ x ∈ found, x.isError = false) :
    fixable false none found = atom.repairs c.tracker .argTypes ++ atom.repairs c.tracker .commentContents := by
  obtain ⟨watches, hw, -, -⟩ := writeItem_sound h he
  have hrules : c.watches.map Watch.rule = Rule.defaults := hc
  rw [Watch.fixable_allOnAtom hword hw he, hrules]
  simp [Rule.defaults, Atom.repairs]

end Repairs

open Item (isArgument openMark closeMark)

namespace Text

def ticked (t : Text) : Text := "`" ++ t ++ "`"

theorem inked_ticked {t : Text} (h : t.Inked) : (ticked t).Inked := by
  refine ⟨by simp [ticked, ofString], fun g hg => ?_⟩
  simp only [ticked, List.mem_append] at hg
  rcases hg with (hg | hg) | hg
  · rw [List.mem_singleton.1 hg]
    decide
  · exact h.2 g hg
  · rw [List.mem_singleton.1 hg]
    decide

theorem startsWith_ticked (t : Text) : startsWith (ticked t) "`" = true := by
  simp [startsWith, ticked, ofString]

theorem respelt_ticked {t : Text} (h : isArgument t = true) : Respelt t (ticked t) := by
  have hstart := startsWith_ticked t
  have hopen : startsWith (ticked t) openMark = false := rfl
  have hcall : startsWith (ticked t) Rnd.opening = false := rfl
  have hclose : endsWith (ticked t) closeMark = false := by
    simp [endsWith, ticked, closeMark, ofString, List.isSuffixOf, List.isPrefixOf]
  have hshape : Catalog.isSectionShaped (ticked t) = false := by
    simp [Catalog.isSectionShaped, startsWith, ticked, ofString]
  have hname : Catalog.contains (ticked t) = false := by
    rw [Catalog.contains, Option.isSome_eq_false_iff, Option.isNone_iff_eq_none, Option.eq_none_iff_forall_not_mem]
    intro entry he
    exact absurd hstart (by simp [(Catalog.spelling_of_find? he).2.1])
  have hword : Item.nonArguments.contains (ticked t) = false := by
    have hall : ∀ u ∈ Item.nonArguments, startsWith u "`" = false := by decide
    refine Bool.eq_false_iff.2 fun hc => ?_
    exact absurd hstart (by simp [hall _ (List.contains_iff_mem.1 hc)])
  have hrest : Rnd.isUnfinished (ticked t) = false := by
    rw [Rnd.isUnfinished, hcall, Bool.false_and, Bool.false_or]
    refine beq_eq_false_iff_ne.2 fun heq => ?_
    rw [heq] at hstart
    exact absurd hstart (by decide)
  refine .inr ⟨h, ?_, hrest, by simp [hshape]⟩
  rw [isArgument, hword, hname, hopen, hclose]
  rfl

end Text

theorem Word.shift_span (w : Word) (offset : Nat) : (w.shift offset).span = w.span.shift offset := by
  simp [span, Span.shift]

theorem respells_capitals {name : Word} (hi : name.text.Inked) (ha : isArgument name.text = true)
    (hs : Catalog.isSectionShaped name.text = false) :
    Respells (fixable false none (Rule.ArgTypes.checkCapitals name).toList) [name] [name.text.capitalised] := by
  unfold Rule.ArgTypes.checkCapitals Text.capitalised
  split
  · refine .replace rfl rfl (Text.inked_upper hi) (.inr ⟨ha, ?_⟩) .nil
    exact ⟨Text.isArgument_upper ha hs, Text.isUnfinished_upper _, Text.isSectionShaped_of_upper⟩
  · exact .keep name .nil

theorem Keyword.alone?_cases {k : Keyword} {build : Word → Atom} (h : k.alone? = some build) :
    build = .openBlock ∨ build = .closeBlock ∨ build = .elseThen ∨ build = .endIf ∨ build = .startRandom ∨
      build = .endRandom := by
  cases k <;> simp only [alone?, Option.some.injEq, reduceCtorEq] at h <;> simp [← h]

theorem Keyword.unary?_cases {k : Keyword} {build : Word → Word → Atom} {missing : Flaw.Kind}
    (h : k.unary? = some (build, missing)) :
    build = .ifThen ∨ build = .elseIf ∨ build = .percentChance ∨ build = .define ∨ build = .undefine := by
  cases k <;> simp only [unary?, Option.some.injEq, Prod.mk.injEq, reduceCtorEq] at h <;> simp [← h.1]

namespace Rule.CommentContents

theorem checkName_of_kind (tracker : Tracker) (offset : Nat) {a : Atom} (h : a.kind ≠ .other) :
    checkName tracker offset a = [] := by
  cases a with
  | other => exact absurd rfl h
  | _ => rfl

theorem checkName_of_reading (tracker : Tracker) (offset : Nat) {content : Text} {w : Word} {rest : List Word}
    {item : Item} {used : Nat} (h : Item.Reading content w rest item used) :
    (if wantsMore item then [] else checkName tracker offset item.atom) = [] ∨
      Lead.of w.text = .unknown ∧ used = 0 ∧
        (if wantsMore item then [] else checkName tracker offset item.atom) = checkName tracker offset (.other w) := by
  cases h with
  | unknown hw => exact .inr ⟨hw, rfl, rfl⟩
  | starved hw hk hr => exact .inl (if_pos (by simpa [wantsMore, Item.flawed] using Keyword.wantsMore_of_unary? hk))
  | alone hw hk =>
    exact .inl (checkName_of_kind tracker offset (Atom.Legible.alone hw hk).kind_ne_other)
  | unary hw hk =>
    obtain rfl | rfl | rfl | rfl | rfl := Keyword.unary?_cases hk <;> exact .inl rfl
  | _ => exact .inl rfl

theorem respells_checkName (tracker : Tracker) (offset : Nat) {w : Word} (hi : w.text.Inked)
    (ha : isArgument w.text = true) :
    ∃ texts, Respells (fixable false none (checkName tracker offset (.other w))) [w.shift offset] texts := by
  unfold checkName
  dsimp only
  split
  · exact ⟨_, .replace (Word.shift_span w offset).symm rfl (Text.inked_ticked hi) (Text.respelt_ticked ha) .nil⟩
  · exact ⟨_, .kept _⟩

theorem exists_respells {tracker : Tracker} {offset : Nat} {content : Text} {words : List Word}
    (hi : ∀ w ∈ words, w.text.Inked)
    (ha : ∀ w ∈ words, Lead.of w.text = .unknown → isArgument w.text = true) :
    ∃ texts, Respells (fixable false none (checkItems tracker offset (Item.readFrom content 0 words)))
      (words.map fun w => w.shift offset) texts := by
  induction hn : words.length using Nat.strong_induction_on generalizing words with
  | _ n ih =>
    cases words with
    | nil => exact ⟨[], .nil⟩
    | cons w rest =>
      have hr := Item.reading content w rest
      generalize (Item.read content w rest).1 = item at hr
      generalize (Item.read content w rest).2 = used at hr
      have hsub : ∀ v ∈ rest.drop used, v ∈ w :: rest := fun v hv => List.mem_cons_of_mem w (List.mem_of_mem_drop hv)
      have hlt : (rest.drop used).length < n := by
        simp only [← hn, List.length_cons, List.length_drop]
        omega
      obtain ⟨texts, hmore⟩ := ih _ hlt (fun v hv => hi v (hsub v hv)) (fun v hv => ha v (hsub v hv)) rfl
      have hfirst : ∃ first, Respells
          (fixable false none (if wantsMore item then [] else checkName tracker offset item.atom))
          ((w :: rest.take used).map fun v => v.shift offset) first := by
        rcases checkName_of_reading tracker offset hr with hnone | ⟨hw, rfl, hname⟩
        · rw [hnone]
          exact ⟨_, .kept _⟩
        · rw [hname]
          exact respells_checkName tracker offset (hi w List.mem_cons_self) (ha w List.mem_cons_self hw)
      obtain ⟨first, hfirst⟩ := hfirst
      have hboth := hfirst.append hmore
      rw [← List.map_append, List.cons_append, List.take_append_drop] at hboth
      refine ⟨first ++ texts, ?_⟩
      rwa [Item.readFrom_cons hr, checkItems, List.flatMap_cons, fixable_append]

theorem fixable_onAtom {tracker : Tracker} (h : tracker.nesting = []) (a : Atom) :
    fixable false none (onAtom tracker a) = [] := by
  have hread : namesAreRead tracker = false := by simp [namesAreRead, h]
  cases a with
  | comment opener content closer stop =>
    have hitems : checkItems tracker opener.stop (Item.parse opener.file content) = [] := by
      refine List.flatMap_eq_nil_iff.2 fun item _ => ?_
      split
      · rfl
      · unfold checkName
        split
        · rw [hread, Bool.false_and, if_neg Bool.false_ne_true]
        · rfl
    rw [onAtom, hitems, List.nil_append]
    exact fixable_eq_nil (advice_checkCloser _ _ _)
  | _ => rfl

end Rule.CommentContents

end MapScript
