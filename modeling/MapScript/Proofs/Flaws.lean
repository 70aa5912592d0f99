import MapScript.Proofs.ItemPass
import MapScript.Proofs.Marks

/-! Flaws that the reader got past come out of a check: the check leaves out only those that a rule in use or
the pass over the words reports at the same place. -/

namespace MapScript

namespace Rule

theorem ArgTypes.exists_missing {types : List ArgType} {args : List Word} (h : args.length < types.length)
    (scope : Scope) (atom : Atom) (name : Word) :
    ∃ d ∈ checkArgs scope atom name types args, d.isError = true ∧ d.span = atom.span := by
  induction types generalizing args with
  | nil => simp at h
  | cons type types ih =>
    cases args with
    | nil => exact ⟨_, List.mem_singleton_self _, rfl, rfl⟩
    | cons arg args =>
      obtain ⟨d, hd, hsame⟩ := ih (Nat.lt_of_succ_lt_succ h)
      exact ⟨d, List.mem_append_right _ hd, hsame⟩

theorem ArgTypes.exists_onAtom {name : Word} {args : List Word} {entry : Entry}
    (he : Catalog.find? name.text = some entry) (hl : args.length < entry.arity) {scope : Scope}
    {problems : List Diagnostic} (h : onAtom scope (.command name args) = .ok problems) :
    ∃ d ∈ problems, d.isError = true ∧ d.span = (Atom.command name args).span := by
  simp only [onAtom, he, Option.map_some, Option.getD_some, bind_eq_ok, pure_eq_ok] at h
  obtain ⟨ranges, -, rfl⟩ := h
  obtain ⟨d, hd, hsame⟩ := exists_missing hl scope (.command name args) name
  exact ⟨d, List.mem_append_left _ hd, hsame⟩

theorem AttributeCase.exists_onAtom {w : Word} (hn : Catalog.contains w.text = false)
    (hl : Catalog.contains (Text.lower w.text) = true) :
    ∃ d ∈ onAtom (.other w), d.isError = true ∧ d.span = w.span := by
  have hne : (Text.lower w.text == w.text) = false := by
    by_contra he
    rw [Bool.not_eq_false, beq_iff_eq] at he
    rw [he, hn] at hl
    simp at hl
  have hfix : fixCase w.text = some (Text.lower w.text) := by simp [fixCase, hne, hn, hl]
  simp only [onAtom, hfix]
  exact ⟨_, List.mem_singleton_self _, rfl, rfl⟩

end Rule

theorem Marks.exists_problem {w : Word} (hs : Catalog.isSectionShaped w.text = true)
    (hn : Catalog.contains w.text = false) : ∃ d ∈ problem false w, d.isError = true ∧ d.span = w.span := by
  simp only [problem, hs, hn]
  split
  · exact ⟨_, rfl, rfl, rfl⟩
  · exact ⟨_, rfl, rfl, rfl⟩

theorem Item.Reading.of_flaw {source : Text} {w : Word} {rest : List Word} {item : Item} {used : Nat}
    (h : Reading source w rest item used) {flaw : Flaw} (hf : flaw ∈ item.flaws) :
    flaw.span = item.atom.span ∧
      (flaw.kind = .missingCommandArgs → ∃ args entry, item.atom = .command w args ∧
        Catalog.find? w.text = some entry ∧ args.length < entry.arity) ∧
      (flaw.kind = .unknownWord → item.atom = .other w ∧ Catalog.contains w.text = false) := by
  have hfits := Lead.of_fits w.text
  cases h with
  | mark | alone | unary | const | closed | command | inline => simp [sound] at hf
  | @starved _ k build missing hw hk hr =>
    obtain rfl := List.mem_singleton.1 hf
    cases k <;> simp only [Keyword.unary?, Option.some.injEq, Prod.mk.injEq, reduceCtorEq] at hk <;>
      obtain ⟨rfl, rfl⟩ := hk <;> exact ⟨rfl, by simp, by simp⟩
  | valueless | nameless | unclosed =>
    obtain rfl := List.mem_singleton.1 hf
    exact ⟨rfl, by simp, by simp⟩
  | @short entry args more hw hl ha hr =>
    obtain rfl := List.mem_singleton.1 hf
    rw [hw] at hfits
    exact ⟨rfl, fun _ => ⟨args, entry, rfl, hfits, hl⟩, by simp⟩
  | unknown hw =>
    obtain rfl := List.mem_singleton.1 hf
    rw [hw] at hfits
    exact ⟨rfl, by simp, fun _ => ⟨rfl, Option.isSome_eq_false_iff.2 (Option.isNone_iff_eq_none.2 hfits)⟩⟩

namespace Checker

open Marks

theorem exists_writeItem {c d : Checker} {item : Item} {found : List Diagnostic}
    (h : c.writeItem item = .ok (d, found)) {rule : Rule} (hu : c.uses rule = true) {span : Span}
    (hr : ∀ {watch watch' : Watch} {problems}, watch.rule = rule →
      watch.onAtom c.tracker item.atom = .ok (watch', problems) →
      ∃ p ∈ problems, p.isError = true ∧ p.span = span) :
    ∃ p ∈ found, p.isError = true ∧ p.span = span := by
  obtain ⟨watches, problems, hw, rfl, rfl⟩ := writeItem_eq_ok.1 h
  obtain ⟨watch, hm, hrule⟩ : ∃ watch ∈ c.watches, watch.rule = rule := by
    simpa [uses, rules] using hu
  obtain ⟨watch', ps, ho⟩ := Watch.onAtom_of_mem hw hm
  obtain ⟨p, hp, herr, hspan⟩ := hr hrule ho
  have hfound := (Watch.mem_allOnAtom hw).2 ⟨watch, hm, watch', ps, ho, p, hp, rfl⟩
  exact ⟨_, List.mem_append_left _ (List.mem_append_left _ hfound), herr, hspan⟩

theorem exists_writeWords {c : Checker} (hc : c.tracker.cursor.inComment = false) {words before rest : List Word}
    {w : Word} (hm : Apart words) (hs : words = before ++ w :: rest) (hb : goesOnAfter false before = false)
    (hshape : Catalog.isSectionShaped w.text = true) (hn : Catalog.contains w.text = false) :
    ∃ d ∈ (c.writeWords words).2, d.isError = true ∧ d.span = w.span := by
  have ho : w.text.startsWith Item.openMark = false := by
    by_contra ho
    rw [(hm w (by simp [hs])).1 (by simpa using ho)] at hshape
    exact absurd hshape (by decide)
  obtain ⟨d, hd, herr, hspan⟩ := exists_problem hshape hn
  have hin : inside (c.writeWords before).1.tracker.cursor.inComment w.text = false := by
    rw [inComment_writeWords, hc, hb, inside, ho]
    rfl
  refine ⟨d.withCode syntaxCode, mem_snd_writeWords.2 ⟨before, w, rest, hs, ?_⟩, herr, hspan⟩
  rw [snd_writeWord, hin, Option.mem_def.1 hd]
  rfl

/-- Of a flaw that is left out, the item or its first word is reported. -/
theorem exists_of_isCovered {c₁ c₂ : Checker} {item : Item} {problems : List Diagnostic} {source : Text}
    {w : Word} {rest : List Word} {used : Nat} (h : c₁.writeItem item = .ok (c₂, problems))
    (hr : Item.Reading source w rest item used) {flaw : Flaw} (hf : flaw ∈ item.flaws)
    (hc : c₂.isCovered item.atom flaw = true) :
    (∃ d ∈ problems, d.isError = true ∧ d.span = flaw.span) ∨
      flaw.span = w.span ∧ Catalog.isSectionShaped w.text = true ∧ Catalog.contains w.text = false := by
  obtain ⟨hspan, hshort, hunknown⟩ := hr.of_flaw hf
  have huses : ∀ rule, c₂.uses rule = c₁.uses rule := fun rule => by rw [uses, uses, rules_of_writeItem h]
  cases hk : flaw.kind with
  | missingCommandArgs =>
    obtain ⟨args, entry, hatom, he, hl⟩ := hshort hk
    simp only [isCovered, hk, huses] at hc
    refine .inl (exists_writeItem h hc fun hrule ho => ?_)
    simp only [Watch.onAtom, hrule, bind_eq_ok, pure_eq_ok, Prod.mk.injEq] at ho
    obtain ⟨found, ho, -, rfl⟩ := ho
    rw [hatom] at ho hspan
    rw [hspan]
    exact Rule.ArgTypes.exists_onAtom he hl ho
  | unknownWord =>
    obtain ⟨hatom, hn⟩ := hunknown hk
    rw [hatom] at hspan
    have hspan : flaw.span = w.span := hspan
    by_cases hs : Catalog.isSectionShaped w.text = true
    · exact .inr ⟨hspan, hs, hn⟩
    · simp only [isCovered, hk, hatom, huses, Atom.head, hs, Bool.false_or, Bool.and_eq_true] at hc
      refine .inl (exists_writeItem h hc.2 fun hrule ho => ?_)
      simp only [Watch.onAtom, hrule, pure_eq_ok, Prod.mk.injEq, hatom] at ho
      obtain ⟨-, rfl⟩ := ho
      rw [hspan]
      exact Rule.AttributeCase.exists_onAtom hn hc.1
  | _ => simp [isCovered, hk] at hc

end Checker

/-- No flaw is dropped: where marks are words of their own, a check of one source against any rules that does
not fail reports an error at the place of every flaw. -/
theorem Check.flaws_reported {level : Level} {rules : List Rule} {builtinMap : Bool} {name source : Text}
    (hm : Marks.Apart (Word.scan 0 source)) {report : Report}
    (h : Check.run ⟨level, rules, builtinMap, [⟨0, name, source⟩]⟩ = .ok report) :
    ∀ item ∈ Item.parse 0 source, ∀ flaw ∈ item.flaws,
      ∃ d ∈ report.diagnostics, d.isError = true ∧ d.span = flaw.span := by
  intro item hi flaw hf
  obtain ⟨d, onItems, hitems, hall⟩ := run_eq_ok h
  have hwords : words ⟨level, rules, builtinMap, [⟨0, name, source⟩]⟩ = Word.scan 0 source := by simp [words]
  have hparse : items ⟨level, rules, builtinMap, [⟨0, name, source⟩]⟩ = Item.parse 0 source := by simp [items]
  rw [hwords] at hall hitems
  rw [hparse] at hitems
  generalize hc : Checker.initial _ _ _ = c at hall hitems
  have hout : c.tracker.cursor.inComment = false := by rw [← hc]; rfl
  obtain ⟨before, w, rest, used, hs, hb, hr⟩ := Item.exists_reading_of_mem hm hi
  obtain ⟨c₁, c₂, problems, hw, hsub⟩ := Checker.writeItem_of_mem hitems hi
  by_cases hcov : c₂.isCovered item.atom flaw = true
  · cases Checker.exists_of_isCovered hw hr hf hcov with
    | inl hitem =>
      obtain ⟨d, hd, hsame⟩ := hitem
      exact ⟨d, (hall d).2 (.inr (hsub hd)), hsame⟩
    | inr hword =>
      obtain ⟨hspan, hshape, hn⟩ := hword
      obtain ⟨d, hd, hsame⟩ := Checker.exists_writeWords hout hm hs hb hshape hn
      exact ⟨d, (hall d).2 (.inl hd), hspan ▸ hsame⟩
  · obtain ⟨watches, ps, hwatch, rfl, rfl⟩ := Checker.writeItem_eq_ok.1 hw
    refine ⟨(Diagnostic.error flaw.span flaw.kind.message).withCode Checker.flawCode, ?_, rfl, rfl⟩
    refine (hall _).2 (.inr (hsub (List.mem_append_right _ (List.mem_map.2 ⟨flaw, ?_, rfl⟩))))
    simp [hf, hcov]

def fourFlaws : Text := "BASE_SIZE <NONE> zzz base_size"

theorem Check.fourFlaws_reported : Marks.Apart (Word.scan 0 fourFlaws) ∧
    (Item.parse 0 fourFlaws).map (fun item => item.flaws.map Flaw.kind) =
      [[.unknownWord], [.unknownWord], [.unknownWord], [.missingCommandArgs]] ∧
    ∃ report, Check.run ⟨.conquerors, Rule.defaults, false, [⟨0, [], fourFlaws⟩]⟩ = .ok report ∧
      ∀ item ∈ Item.parse 0 fourFlaws, ∀ flaw ∈ item.flaws,
        ∃ d ∈ report.diagnostics, d.isError = true ∧ d.span = flaw.span := by
  have hm : Marks.Apart (Word.scan 0 fourFlaws) := by decide
  obtain ⟨hflaws, hrun⟩ : (Item.parse 0 fourFlaws).map (fun item => item.flaws.map Flaw.kind) =
        [[.unknownWord], [.unknownWord], [.unknownWord], [.missingCommandArgs]] ∧
      (Check.run ⟨.conquerors, Rule.defaults, false, [⟨0, [], fourFlaws⟩]⟩).toOption.any (fun _ => true) = true := by
    decide +kernel
  obtain ⟨report, hrun, -⟩ := exists_eq_ok_iff.2 hrun
  exact ⟨hm, hflaws, report, hrun, Check.flaws_reported hm hrun⟩

end MapScript
