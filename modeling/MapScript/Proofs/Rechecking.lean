import MapScript.Proofs.Recasting

/-! A script without errors, checked once more after its names were put in capitals. Everything goes as before, step
by step, except that a number may now be missing: a name that was defined under its old spelling. -/

namespace MapScript

def Atom.numbers : Atom → List Text
  | .const _ _ value => value.toList.map Word.text
  | .command name args =>
    (((((Catalog.find? name.text).map Entry.args).getD []).zip (args.map Word.text)).filter
      fun p => p.1 == .number).map Prod.snd
  | _ => []

theorem Atom.numbers_eq_nil {a : Atom} (hc : a.kind ≠ .const) (hm : a.kind ≠ .command) : a.numbers = [] := by
  cases a with
  | const => exact absurd rfl hc
  | command => exact absurd rfl hm
  | _ => rfl

namespace Atom.Recast

variable {a b : Atom}

theorem head (h : Recast a b) (ha : a.kind ≠ .comment) : b.head.text = a.head.text := by
  have htexts := h.texts ha
  cases a <;> exact (List.cons.inj htexts).1

theorem of_command {name' : Word} {args' : List Word} (h : Recast a (.command name' args')) :
    ∃ name args, a = .command name args ∧ name'.text = name.text ∧
      args'.map Word.text = args.map Word.text := by
  have hkind := h.kind
  cases a with
  | command name args => exact ⟨name, args, rfl, List.cons.inj (h.texts (by simp [Atom.kind]))⟩
  | _ => simp [Atom.kind] at hkind

theorem of_other {w' : Word} (h : Recast a (.other w')) : ∃ w, a = .other w ∧ w'.text = w.text := by
  have hkind := h.kind
  cases a with
  | other w => exact ⟨w, rfl, (List.cons.inj (h.texts (by simp [Atom.kind]))).1⟩
  | _ => simp [Atom.kind] at hkind

theorem of_named {name' : Word} (h : Recast a b) (hb : b.named? = some name') :
    ∃ name, a.named? = some name ∧ name'.text = name.text.capitalised := by
  have hkind := h.kind
  cases b with
  | define | undefine | const =>
    cases a with
    | define _ name | undefine _ name | const _ name _ =>
      simp [Atom.kind] at hkind <;>
      · cases hb
        exact ⟨name, rfl, (List.cons.inj (List.cons.inj (h.texts (by simp [Atom.kind]))).2).1⟩
    | _ => simp [Atom.kind] at hkind
  | _ => simp [named?] at hb

theorem numbers (h : Recast a b) : b.numbers = a.numbers := by
  have hkind := h.kind
  cases b with
  | const head' name' value' =>
    cases a with
    | const head name value => exact (List.cons.inj (List.cons.inj (h.texts (by simp [Atom.kind]))).2).2
    | _ => simp [Atom.kind] at hkind
  | command name' args' =>
    obtain ⟨name, args, rfl, hname, hargs⟩ := h.of_command
    rw [Atom.numbers, Atom.numbers, hname, hargs]
  | _ =>
    have hconst := ne_of_eq_of_ne hkind.symm (show _ ≠ Kind.const by simp [Atom.kind])
    have hcommand := ne_of_eq_of_ne hkind.symm (show _ ≠ Kind.command by simp [Atom.kind])
    exact (numbers_eq_nil hconst hcommand).symm

end Atom.Recast

namespace Rule

namespace ArgTypes

theorem checkNumber_eq_none_iff {scope : Scope} {name arg : Word} :
    checkNumber scope name arg = none ↔ isNumber scope arg.text = true := by
  unfold checkNumber
  split
  · simp_all
  · dsimp only
    split <;> simp_all

theorem exists_checkNumber {scope : Scope} {name arg : Word} :
    (∃ d ∈ checkNumber scope name arg, d.isError = true) ↔ isNumber scope arg.text = false := by
  rw [Bool.eq_false_iff, ne_eq, ← @checkNumber_eq_none_iff scope name arg, ← ne_eq, Option.ne_none_iff_exists']
  constructor
  · rintro ⟨d, hd, -⟩
    exact ⟨d, hd⟩
  · rintro ⟨d, hd⟩
    exact ⟨d, hd, checkNumber_isError scope name arg d hd⟩

theorem checkName_eq_none {arg : Word} (h : Numeral.isNumeral arg.text = false) : checkName arg = none := by
  rw [checkName, h]
  rfl

theorem exists_checkArg {scope scope' : Scope} {name name' arg arg' : Word} {type : ArgType}
    (ht : arg'.text = arg.text) (he : ∀ d ∈ checkArg scope name type arg, d.isError = false) :
    (∃ d ∈ checkArg scope' name' type arg', d.isError = true) ↔
      type = .number ∧ isNumber scope' arg.text = false := by
  have hname : (type = .word ∨ type = .token ∨ type = .optionalToken) → checkName arg' = none := by
    intro htype
    refine checkName_eq_none (Bool.eq_false_iff.2 fun hn => ?_)
    rw [ht] at hn
    rcases htype with rfl | rfl | rfl <;> simp [checkArg, checkName, hn] at he
  cases type with
  | number =>
    rw [← ht, ← @exists_checkNumber scope' name' arg']
    simp [checkArg]
  | word =>
    have hnone := checkCapitals_isError arg'
    simpa [checkArg, hname] using hnone
  | optionalToken =>
    have hnone := advice_checkDefined scope' arg'
    simpa [checkArg, hname] using fun d hd => (hnone d hd).isError
  | token =>
    have hnone := advice_checkValued scope' arg'
    simpa [checkArg, hname] using fun d hd => (hnone d hd).isError
  | fileName => simp [checkArg]

theorem exists_checkArgs {scope scope' : Scope} {atom atom' : Atom} {name name' : Word} {types : List ArgType}
    {args args' : List Word} (ht : args'.map Word.text = args.map Word.text)
    (he : ∀ d ∈ checkArgs scope atom name types args, d.isError = false) :
    (∃ d ∈ checkArgs scope' atom' name' types args', d.isError = true) ↔
      ∃ t ∈ ((types.zip (args'.map Word.text)).filter fun p => p.1 == .number).map Prod.snd,
        isNumber scope' t = false := by
  induction types generalizing args args' with
  | nil => simp [checkArgs]
  | cons type types ih =>
    cases args with
    | nil => simp [checkArgs] at he
    | cons arg args =>
      obtain ⟨arg', args', rfl, harg, hargs⟩ := List.map_eq_cons_iff.1 ht
      rw [checkArgs, List.forall_mem_append] at he
      have hfirst := @exists_checkArg scope scope' name name' arg arg' type harg (by simpa using he.1)
      have hrest := ih hargs he.2
      simp only [Option.mem_def] at hfirst
      rw [checkArgs, List.map_cons, List.zip_cons_cons, List.filter_cons]
      simp only [List.mem_append, Option.mem_toList, or_and_right, exists_or, hfirst, hrest]
      by_cases htype : type = .number
      · simp [htype, harg]
      · simp [htype]

theorem exists_argValue {args args' : List Word} (ht : args'.map Word.text = args.map Word.text) {i : Nat}
    {v : Option (Word × Int)} (h : argValue args i = .ok v) : ∃ v', argValue args' i = .ok v' := by
  have hget : args'[i]?.map Word.text = args[i]?.map Word.text := by
    rw [← List.getElem?_map, ht, List.getElem?_map]
  unfold argValue at h ⊢
  cases ha' : args'[i]? with
  | none => exact ⟨none, rfl⟩
  | some arg' =>
    rw [ha', Option.map_some, eq_comm, Option.map_eq_some_iff] at hget
    obtain ⟨arg, ha, hsame⟩ := hget
    simp only [ha, bind_eq_ok] at h
    obtain ⟨n, hn, -⟩ := h
    rw [hsame] at hn
    exact ⟨n.map fun n => (arg', n), by simp only [hn]; rfl⟩

theorem exists_checkRanges {name name' : Word} {args args' : List Word} (hn : name'.text = name.text)
    (ht : args'.map Word.text = args.map Word.text) {found : List Diagnostic}
    (h : checkRanges name args = .ok found) : ∃ found', checkRanges name' args' = .ok found' := by
  unfold checkRanges at h ⊢
  rw [hn]
  by_cases helevation : (name.text == "base_elevation") = true
  · rw [if_pos helevation] at h ⊢
    simp only [bind_eq_ok, pure_eq_ok] at h ⊢
    obtain ⟨v, hv, -⟩ := h
    obtain ⟨v', hv'⟩ := exists_argValue ht hv
    exact ⟨_, v', hv', rfl⟩
  rw [if_neg helevation] at h ⊢
  by_cases hposition : (name.text == "land_position") = true
  · rw [if_pos hposition] at h ⊢
    simp only [bind_eq_ok, pure_eq_ok] at h ⊢
    obtain ⟨v, hv, u, hu, -⟩ := h
    obtain ⟨v', hv'⟩ := exists_argValue ht hv
    obtain ⟨u', hu'⟩ := exists_argValue ht hu
    exact ⟨_, v', hv', u', hu', rfl⟩
  rw [if_neg hposition] at h ⊢
  by_cases hzone : (name.text == "zone") = true
  · rw [if_pos hzone]
    cases args' <;> exact ⟨_, rfl⟩
  rw [if_neg hzone] at h ⊢
  by_cases hassign : (name.text == "assign_to") = true
  · rw [if_pos hassign] at h ⊢
    simp only [checkAssign, bind_eq_ok, pure_eq_ok] at h ⊢
    obtain ⟨number, hnumber, mode, hmode, flags, hflags, -⟩ := h
    obtain ⟨number', hnumber'⟩ := exists_argValue ht hnumber
    obtain ⟨mode', hmode'⟩ := exists_argValue ht hmode
    obtain ⟨flags', hflags'⟩ := exists_argValue ht hflags
    exact ⟨_, number', hnumber', mode', hmode', flags', hflags', rfl⟩
  rw [if_neg hassign]
  exact ⟨_, rfl⟩

theorem named_isNumeral {scope : Scope} {atom : Atom} {found : List Diagnostic} (h : onAtom scope atom = .ok found)
    (he : ∀ d ∈ found, d.isError = false) : ∀ name ∈ atom.named?, Numeral.isNumeral name.text = false := by
  cases atom with
  | define head name | undefine head name =>
    simp only [onAtom, pure_eq_ok] at h
    rw [← h] at he
    simpa [Atom.named?] using (checkArg_word (by simpa using he)).1
  | const head name value =>
    simp only [onAtom, pure_eq_ok] at h
    rw [← h, List.forall_mem_append] at he
    simpa [Atom.named?] using (checkArg_word (by simpa using he.1)).1
  | _ => simp [Atom.named?]

/-- A statement that was right is wrong after the change only for want of a number. -/
theorem exists_onAtom_recast {scope scope' : Scope} {a b : Atom} (hab : a.Recast b) {found : List Diagnostic}
    (h : onAtom scope a = .ok found) (he : ∀ d ∈ found, d.isError = false) :
    ∃ found', onAtom scope' b = .ok found' ∧
      ((∃ d ∈ found', d.isError = true) ↔ ∃ t ∈ a.numbers, isNumber scope' t = false) := by
  rw [← hab.numbers]
  -- A name in capitals is no numeral if the name it was made from is none.
  have hnamed : ∀ name' ∈ b.named?, ∀ head', ∀ d ∈ checkArg scope' head' .word name', d.isError = false := by
    intro name' hname' head'
    obtain ⟨name, hname, htext⟩ := hab.of_named hname'
    have hn : Numeral.isNumeral name'.text = false := by
      refine Bool.eq_false_iff.2 fun hn => ?_
      exact Bool.eq_false_iff.1 (named_isNumeral h he name hname) (Text.isNumeral_of_capitalised (htext ▸ hn))
    simpa [checkArg, checkName_eq_none hn] using checkCapitals_isError name'
  cases b with
  | ifThen head condition | elseIf head condition =>
    refine ⟨_, rfl, ?_⟩
    simpa [Atom.numbers] using fun d hd => (advice_checkDefined scope' condition d hd).isError
  | define head name | undefine head name =>
    refine ⟨_, rfl, ?_⟩
    simpa [Atom.numbers] using hnamed name rfl head
  | const head name value =>
    refine ⟨_, rfl, ?_⟩
    have hfirst : ¬ ∃ d ∈ (checkArg scope' head .word name).toList, d.isError = true := by
      simpa using hnamed name rfl head
    simp only [List.mem_append, or_and_right, exists_or, hfirst, false_or]
    cases value with
    | none => simp [Atom.numbers]
    | some value => simpa [Atom.numbers, checkArg] using @exists_checkNumber scope' head value
  | command name' args' =>
    obtain ⟨name, args, rfl, hname, hargs⟩ := hab.of_command
    simp only [onAtom, bind_eq_ok, pure_eq_ok] at h ⊢
    obtain ⟨ranges, hr, rfl⟩ := h
    obtain ⟨ranges', hr'⟩ := exists_checkRanges hname hargs hr
    rw [List.forall_mem_append] at he
    refine ⟨_, ⟨ranges', hr', rfl⟩, ?_⟩
    have hlast : ¬ ∃ d ∈ ranges', d.isError = true := by
      simpa using fun d hd => (advice_checkRanges hr' d hd).isError
    simp only [List.mem_append, or_and_right, exists_or, hlast, or_false, Atom.numbers, hname]
    exact exists_checkArgs hargs he.1
  | _ => exact ⟨[], rfl, by simp [Atom.numbers]⟩

end ArgTypes

variable {a b : Atom} (hab : a.Recast b)

include hab

theorem ActorAreas.exists_onAtom_recast {known : List Int} {result : List Diagnostic × List Int}
    (h : onAtom known a = .ok result) (known' : List Int) : ∃ result', onAtom known' b = .ok result' := by
  cases b with
  | command name' args' =>
    obtain ⟨name, args, rfl, -, hargs⟩ := hab.of_command
    cases args' with
    | nil => exact ⟨_, rfl⟩
    | cons arg' args' =>
      obtain ⟨arg, args, rfl, harg, -⟩ := List.map_eq_cons_iff.1 hargs.symm
      simp only [onAtom, bind_eq_ok, harg] at h ⊢
      obtain ⟨value, hvalue, -⟩ := h
      refine exists_comm.1 ⟨value, ?_⟩
      simp only [hvalue, true_and]
      split
      · split
        · exact ⟨_, rfl⟩
        · split <;> exact ⟨_, rfl⟩
      · exact ⟨_, rfl⟩
  | _ => exact ⟨_, rfl⟩

theorem Inclusion.onAtom_recast {builtinMap : Bool} (h : onAtom builtinMap a = []) : onAtom builtinMap b = [] := by
  cases b with
  | command name' args' =>
    obtain ⟨name, args, rfl, hname, -⟩ := hab.of_command
    simp only [onAtom, hname] at h ⊢
    split at h
    · next hmap => rw [if_pos hmap]
    · next hmap =>
      split at h
      · simp at h
      · next hdrs =>
        split at h
        · simp at h
        · next hinclude => rw [if_neg hmap, if_neg hdrs, if_neg hinclude]
  | _ => rfl

theorem IncorrectSection.onAtom_recast {current current' : Option Word}
    (hc : current'.map Word.text = current.map Word.text) (h : onAtom current a = []) : onAtom current' b = [] := by
  cases b with
  | command name' args' =>
    obtain ⟨name, args, rfl, hname, -⟩ := hab.of_command
    simp only [onAtom, hname] at h ⊢
    cases hrequired : (Catalog.find? name.text).bind Entry.requiredSection with
    | none => rfl
    | some expected =>
      simp only [hrequired] at h ⊢
      cases current with
      | none => simp [problem] at h
      | some w =>
        obtain ⟨w', rfl, hw⟩ := Option.map_eq_some_iff.1 hc
        simp only [problem, hw] at h ⊢
        split at h
        · next heq => rw [if_pos heq]
        · simp at h
  | _ => rfl

theorem AttributeCase.onAtom_recast (h : onAtom a = []) : onAtom b = [] := by
  cases b with
  | other w' =>
    obtain ⟨w, rfl, hw⟩ := hab.of_other
    simp only [onAtom, hw] at h ⊢
    split at h
    · simp at h
    · rfl
  | _ => rfl

theorem UnknownAttribute.onAtom_recast (h : onAtom a = []) : onAtom b = [] := by
  cases b with
  | other w' =>
    obtain ⟨w, rfl, hw⟩ := hab.of_other
    simp only [onAtom, hw] at h ⊢
    split at h
    · next hd => rw [if_pos hd]
    · split at h <;> simp at h
  | _ => rfl

end Rule

/-- Two trackers that differ in the names that are defined and in what comments and words stand for. -/
structure Tracker.Alike (t t' : Tracker) : Prop where
  builtinMap : t'.builtinMap = t.builtinMap
  sectionMark : t'.scope.sectionMark.map Word.text = t.scope.sectionMark.map Word.text
  nesting : t'.nesting.map Nesting.opener = t.nesting.map Nesting.opener

namespace Watch

variable {t t' : Tracker} (ht : t.Alike t') {a b : Atom} (hab : a.Recast b)

include ht hab

theorem exists_onAtom_recast {watch watch' u : Watch} (hr : watch'.rule = watch.rule) {found : List Diagnostic}
    (h : watch.onAtom t a = .ok (u, found)) (he : ∀ d ∈ found, d.isError = false) :
    ∃ u' found', watch'.onAtom t' b = .ok (u', found') ∧
      ((∃ d ∈ found', d.isError = true) ↔
        watch.rule = .argTypes ∧ ∃ n ∈ a.numbers, Rule.ArgTypes.isNumber t'.scope n = false) := by
  cases hrule : watch.rule <;> rw [hrule] at hr <;>
    simp only [onAtom, hrule, hr, bind_eq_ok, pure_eq_ok, Prod.mk.injEq, reduceCtorEq, false_and, iff_false,
      true_and] at h ⊢
  case argTypes =>
    obtain ⟨problems, ho, -, rfl⟩ := h
    obtain ⟨found', ho', hiff⟩ := Rule.ArgTypes.exists_onAtom_recast hab ho he
    exact ⟨watch', found', ⟨found', ho', rfl, rfl⟩, hiff⟩
  case commentContents =>
    refine ⟨_, _, ⟨rfl, rfl⟩, ?_⟩
    simpa using Rule.CommentContents.onAtom_isError t' b
  case compatibility =>
    refine ⟨_, _, ⟨rfl, rfl⟩, ?_⟩
    simpa using fun d hd => (Rule.Compatibility.advice_onAtom _ _ _ d hd).isError
  case deadComment =>
    refine ⟨_, _, ⟨rfl, rfl⟩, ?_⟩
    simpa using fun d hd => (Rule.DeadComment.advice_onAtom _ _ d hd).isError
  case actorAreasMatch =>
    obtain ⟨result, ho, -, -⟩ := h
    obtain ⟨⟨found', areas'⟩, ho'⟩ := Rule.ActorAreas.exists_onAtom_recast hab ho watch'.memory.areas
    refine ⟨_, found', ⟨_, ho', rfl, rfl⟩, ?_⟩
    simpa using fun d hd => (Rule.ActorAreas.advice_onAtom ho' d hd).isError
  case attributeCase =>
    have hnil := Diagnostic.eq_nil_of_isError (h.2 ▸ Rule.AttributeCase.onAtom_isError a) he
    exact ⟨_, _, ⟨rfl, rfl⟩, by simp [Rule.AttributeCase.onAtom_recast hab (h.2.trans hnil)]⟩
  case inclusion =>
    have hnil := Diagnostic.eq_nil_of_isError (h.2 ▸ Rule.Inclusion.onAtom_isError _ a) he
    exact ⟨_, _, ⟨rfl, rfl⟩, by simp [ht.builtinMap, Rule.Inclusion.onAtom_recast hab (h.2.trans hnil)]⟩
  case incorrectSection =>
    have hnil := Diagnostic.eq_nil_of_isError (h.2 ▸ Rule.IncorrectSection.onAtom_isError _ a) he
    exact ⟨_, _, ⟨rfl, rfl⟩, by simp [Rule.IncorrectSection.onAtom_recast hab ht.sectionMark (h.2.trans hnil)]⟩
  case unknownAttribute =>
    have hnil := Diagnostic.eq_nil_of_isError (h.2 ▸ Rule.UnknownAttribute.onAtom_isError a) he
    exact ⟨_, _, ⟨rfl, rfl⟩, by simp [Rule.UnknownAttribute.onAtom_recast hab (h.2.trans hnil)]⟩

theorem exists_allOnAtom_recast {watches watches' us : List Watch}
    (hr : watches'.map Watch.rule = watches.map Watch.rule) {found : List Diagnostic}
    (h : allOnAtom t a watches = .ok (us, found)) (he : ∀ d ∈ found, d.isError = false) :
    ∃ us' found', allOnAtom t' b watches' = .ok (us', found') ∧
      ((∃ d ∈ found', d.isError = true) ↔
        .argTypes ∈ watches.map Watch.rule ∧ ∃ n ∈ a.numbers, Rule.ArgTypes.isNumber t'.scope n = false) := by
  induction watches generalizing watches' us found with
  | nil =>
    rw [List.map_nil, List.map_eq_nil_iff] at hr
    subst hr
    exact ⟨[], [], rfl, by simp⟩
  | cons watch rest ih =>
    obtain ⟨watch', rest', rfl, hrule, hrest⟩ := List.map_eq_cons_iff.1 hr
    obtain ⟨u, problems, us, more, hw, hmore, -, rfl⟩ := allOnAtom_cons h
    rw [List.forall_mem_append] at he
    have hproblems : ∀ d ∈ problems, d.isError = false := fun d hd =>
      he.1 (d.withCode watch.rule.name) (List.mem_map_of_mem hd)
    obtain ⟨u', problems', hw', hfirst⟩ := exists_onAtom_recast ht hab hrule hw hproblems
    obtain ⟨us', more', hmore', hsecond⟩ := ih hrest hmore he.2
    refine ⟨u' :: us', problems'.map (·.withCode u'.rule.name) ++ more', ?_, ?_⟩
    · rw [allOnAtom, bind_eq_ok]
      exact ⟨_, hw', bind_eq_ok.2 ⟨_, hmore', rfl⟩⟩
    · have hcoded : (∃ d ∈ problems'.map (·.withCode u'.rule.name), d.isError = true) ↔
          ∃ d ∈ problems', d.isError = true := by simp
      simp only [List.mem_append, or_and_right, exists_or, hcoded, hfirst, hsecond, List.map_cons,
        List.mem_cons, @eq_comm Rule .argTypes]

end Watch

namespace Nesting

theorem exists_cons {s' : List Nesting} {opener : Opener} {openers : List Opener}
    (h : s'.map Nesting.opener = opener :: openers) :
    ∃ o r, s' = ⟨opener, o⟩ :: r ∧ r.map Nesting.opener = openers := by
  obtain ⟨n, r, rfl, rfl, hr⟩ := List.map_eq_cons_iff.1 h
  exact ⟨n.atom, r, rfl, hr⟩

/-- What a statement may open or close hangs on its kind and on the kinds of what is open. -/
theorem Move.exists_alike {s t s' : List Nesting} {a b : Atom} (h : Move s a t) (hk : b.kind = a.kind)
    (hs : s'.map Nesting.opener = s.map Nesting.opener) :
    ∃ t', Move s' b t' ∧ t'.map Nesting.opener = t.map Nesting.opener := by
  cases h with
  | plain h => exact ⟨s', .plain (hk ▸ h), hs⟩
  | openBlock h => exact ⟨_, .openBlock (hk.trans h), by simp [hs]⟩
  | ifThen h => exact ⟨_, .ifThen (hk.trans h), by simp [hs]⟩
  | startRandom h => exact ⟨_, .startRandom (hk.trans h), by simp [hs]⟩
  | closeBlock h =>
    obtain ⟨o, r, rfl, hr⟩ := exists_cons hs
    exact ⟨r, .closeBlock (hk.trans h), hr⟩
  | elseIf h hn =>
    obtain ⟨n, r, rfl, ho, hr⟩ := List.map_eq_cons_iff.1 hs
    exact ⟨_, .elseIf (hk.trans h) (ho ▸ hn), by simp [hr]⟩
  | elseThen h hn =>
    obtain ⟨n, r, rfl, ho, hr⟩ := List.map_eq_cons_iff.1 hs
    exact ⟨_, .elseThen (hk.trans h) (ho ▸ hn), by simp [hr]⟩
  | endIf h hn =>
    obtain ⟨n, r, rfl, ho, hr⟩ := List.map_eq_cons_iff.1 hs
    exact ⟨r, .endIf (hk.trans h) (ho ▸ hn), hr⟩
  | firstChance h =>
    obtain ⟨o, r, rfl, hr⟩ := exists_cons hs
    exact ⟨_, .firstChance (hk.trans h), by simp [hr]⟩
  | nextChance h =>
    obtain ⟨c, r, rfl, hr⟩ := exists_cons hs
    obtain ⟨o, u, rfl, hu⟩ := exists_cons hr
    exact ⟨_, .nextChance (hk.trans h), by simp [hu]⟩
  | endRandom h =>
    obtain ⟨o, r, rfl, hr⟩ := exists_cons hs
    exact ⟨r, .endRandom (hk.trans h), hr⟩
  | endChance h =>
    obtain ⟨c, r, rfl, hr⟩ := exists_cons hs
    obtain ⟨o, u, rfl, hu⟩ := exists_cons hr
    exact ⟨u, .endChance (hk.trans h), hu⟩

end Nesting

/-- Whether some argument that has to be a number is none where it stands. -/
def Scope.Lacks (s : Scope) (atoms : List Atom) : Prop :=
  ∃ before a after, atoms = before ++ a :: after ∧
    ∃ n ∈ a.numbers, Rule.ArgTypes.isNumber (before.foldl update s) n = false

theorem Scope.lacks_cons {s : Scope} {a : Atom} {atoms : List Atom} :
    s.Lacks (a :: atoms) ↔
      (∃ n ∈ a.numbers, Rule.ArgTypes.isNumber s n = false) ∨ (s.update a).Lacks atoms := by
  constructor
  · rintro ⟨before, b, after, heq, hn⟩
    cases before with
    | nil =>
      obtain ⟨rfl, -⟩ := List.cons.inj heq
      exact .inl hn
    | cons first before =>
      obtain ⟨rfl, rfl⟩ := List.cons.inj heq
      exact .inr ⟨before, b, after, rfl, hn⟩
  · rintro (hn | ⟨before, b, after, rfl, hn⟩)
    · exact ⟨[], a, atoms, rfl, hn⟩
    · exact ⟨a :: before, b, after, rfl, hn⟩

theorem Scope.sectionMark_update (s : Scope) (a : Atom) :
    (s.update a).sectionMark = if a.kind = .sectionMark then some a.head else s.sectionMark := by
  cases a <;> simp [update, record, sectionMark_updateHeader, Atom.kind, Atom.head]

theorem Tracker.Alike.update {t t' : Tracker} (h : t.Alike t') {a b : Atom} (hab : a.Recast b)
    (hp : (t.update a).2 = none) : (t'.update b).2 = none ∧ (t.update a).1.Alike (t'.update b).1 := by
  obtain ⟨nesting, hmove, hopeners⟩ := (Nesting.move_of_step hp).exists_alike hab.kind h.nesting
  have hstep := hmove.step_eq
  refine ⟨by simp [Tracker.update, hstep], h.builtinMap, ?_, by simpa [Tracker.update, hstep] using hopeners⟩
  simp only [Tracker.update, Scope.sectionMark_update, hab.kind]
  split
  · next hk => simp [hab.head (by simp [hk])]
  · exact h.sectionMark

namespace Checker

theorem writeItem_recast {c d c' : Checker} (hr : c'.rules = c.rules) (ht : c.tracker.Alike c'.tracker)
    {a b : Atom} (hab : a.Recast b) {found : List Diagnostic} (h : c.writeItem (.sound a) = .ok (d, found))
    (he : ∀ x ∈ found, x.isError = false) :
    ∃ d' found', c'.writeItem (.sound b) = .ok (d', found') ∧ d'.rules = d.rules ∧ d.tracker.Alike d'.tracker ∧
      d'.tracker.scope = c'.tracker.scope.update b ∧
      ((∃ x ∈ found', x.isError = true) ↔
        .argTypes ∈ c.rules ∧ ∃ n ∈ a.numbers, Rule.ArgTypes.isNumber c'.tracker.scope n = false) := by
  obtain ⟨watches, hw, rfl, hbalanced⟩ := writeItem_sound h he
  obtain ⟨watches', problems', hw', hiff⟩ := Watch.exists_allOnAtom_recast ht hab hr hw he
  obtain ⟨hbalanced', halike⟩ := ht.update hab hbalanced
  refine ⟨_, _, writeItem_eq_ok.2 ⟨watches', problems', hw', rfl, rfl⟩, ?_, halike, rfl, ?_⟩
  · exact (Watch.rules_of_allOnAtom hw').trans (hr.trans (Watch.rules_of_allOnAtom hw).symm)
  · simpa [Item.sound, hbalanced', writeFlaws, rules] using hiff

theorem writeItems_recast {c d c' : Checker} (hr : c'.rules = c.rules) (ht : c.tracker.Alike c'.tracker)
    {as bs : List Atom} (hab : List.Forall₂ Atom.Recast as bs) {found : List Diagnostic}
    (h : c.writeItems (as.map .sound) = .ok (d, found)) (he : ∀ x ∈ found, x.isError = false) :
    ∃ d' found', c'.writeItems (bs.map .sound) = .ok (d', found') ∧
      ((∃ x ∈ found', x.isError = true) ↔
        .argTypes ∈ c.rules ∧ c'.tracker.scope.Lacks bs) := by
  induction hab generalizing c c' found with
  | nil => exact ⟨c', [], rfl, by simp [Scope.Lacks]⟩
  | @cons a b as bs hab _ ih =>
    obtain ⟨c₁, problems, more, hc, hd, rfl⟩ := writeItems_cons.1 h
    rw [List.forall_mem_append] at he
    obtain ⟨c₁', problems', hc', hr₁, ht₁, hscope, hfirst⟩ := writeItem_recast hr ht hab hc he.1
    obtain ⟨d', more', hd', hrest⟩ := ih hr₁ ht₁ hd he.2
    refine ⟨d', problems' ++ more', writeItems_cons.2 ⟨c₁', problems', more', hc', hd', rfl⟩, ?_⟩
    simp only [List.mem_append, or_and_right, exists_or, hfirst, hrest, rules_of_writeItem hc, ← hab.numbers,
      hscope, ← and_or_left, Scope.lacks_cons]

end Checker

end MapScript
