import MapScript.Proofs.Independence
import MapScript.Proofs.Recasting

/-! Where the problems that a rule finds come from: a word that is taken for the rest of a call, or an item, with what
is known after the items before it. -/

namespace MapScript

theorem Rule.name_ne_syntaxCode (rule : Rule) : rule.name ≠ Checker.syntaxCode := by
  cases rule <;> decide

theorem Rule.name_ne_flawCode (rule : Rule) : rule.name ≠ Checker.flawCode := by
  cases rule <;> decide

namespace Checker

theorem mem_writeItem_iff {c d : Checker} {item : Item} {found : List Diagnostic}
    (h : c.writeItem item = .ok (d, found)) {rule : Rule} {x : Diagnostic} :
    x ∈ found ∧ x.code = some rule.name ↔
      ∃ watch ∈ c.watches, watch.rule = rule ∧ ∃ watch' problems,
        watch.onAtom c.tracker item.atom = .ok (watch', problems) ∧ ∃ p ∈ problems, x = p.withCode rule.name := by
  obtain ⟨watches, problems, hw, rfl, rfl⟩ := writeItem_eq_ok.1 h
  rw [List.mem_append, List.mem_append]
  constructor
  · rintro ⟨(hx | hx) | hx, hcode⟩
    · obtain ⟨watch, hm, watch', ps, ho, p, hp, rfl⟩ := (Watch.mem_allOnAtom hw).1 hx
      obtain rfl : watch.rule = rule := Rule.name_injective (Option.some.inj hcode)
      exact ⟨watch, hm, rfl, watch', ps, ho, p, hp, rfl⟩
    · obtain ⟨p, -, rfl⟩ := Option.map_eq_some_iff.1 (Option.mem_toList.1 hx)
      exact absurd (Option.some.inj hcode).symm rule.name_ne_syntaxCode
    · obtain ⟨flaw, -, rfl⟩ := List.mem_map.1 hx
      exact absurd (Option.some.inj hcode).symm rule.name_ne_flawCode
  · rintro ⟨watch, hm, rfl, watch', ps, ho, p, hp, rfl⟩
    exact ⟨.inl (.inl ((Watch.mem_allOnAtom hw).2 ⟨watch, hm, watch', ps, ho, p, hp, rfl⟩)), rfl⟩

theorem mem_writeItems {c d : Checker} {items : List Item} {found : List Diagnostic}
    (h : c.writeItems items = .ok (d, found)) {x : Diagnostic} :
    x ∈ found ↔ ∃ before item after c₁ said c₂ problems, items = before ++ item :: after ∧
      c.writeItems before = .ok (c₁, said) ∧ c₁.writeItem item = .ok (c₂, problems) ∧ x ∈ problems := by
  constructor
  · intro hx
    induction items generalizing c found with
    | nil =>
      simp only [writeItems, pure_eq_ok, Prod.mk.injEq] at h
      simp [← h.2] at hx
    | cons item rest ih =>
      obtain ⟨c', problems, more, hc, hd, rfl⟩ := writeItems_cons.1 h
      cases List.mem_append.1 hx with
      | inl hx => exact ⟨[], item, rest, c, [], c', problems, rfl, rfl, hc, hx⟩
      | inr hx =>
        obtain ⟨before, other, after, c₁, said, c₂, ps, rfl, hb, ho, hx⟩ := ih hd hx
        exact ⟨item :: before, other, after, c₁, _, c₂, ps, rfl, writeItems_cons.2 ⟨c', problems, said, hc, hb, rfl⟩,
          ho, hx⟩
  · rintro ⟨before, item, after, c₁, said, c₂, problems, rfl, hb, ho, hx⟩
    obtain ⟨c', first, rest, hb', hrest, rfl⟩ := writeItems_append h
    obtain ⟨rfl, rfl⟩ : c' = c₁ ∧ first = said := by simpa [hb] using hb'.symm
    obtain ⟨c₃, ps, more, ho', -, rfl⟩ := writeItems_cons.1 hrest
    obtain ⟨rfl, rfl⟩ : c₃ = c₂ ∧ ps = problems := by simpa [ho] using ho'.symm
    exact List.mem_append_right _ (List.mem_append_left _ hx)

theorem rules_scope_of_writeItems {c d : Checker} {items : List Item} {found : List Diagnostic}
    (h : c.writeItems items = .ok (d, found)) :
    d.rules = c.rules ∧ d.tracker.scope = (items.map Item.atom).foldl Scope.update c.tracker.scope := by
  induction items generalizing c found with
  | nil =>
    simp only [writeItems, pure_eq_ok, Prod.mk.injEq] at h
    rw [← h.1]
    exact ⟨rfl, rfl⟩
  | cons item rest ih =>
    obtain ⟨c', problems, more, hc, hd, rfl⟩ := writeItems_cons.1 h
    obtain ⟨hrules, hscope⟩ := ih hd
    obtain ⟨watches, ps, hw, rfl, -⟩ := writeItem_eq_ok.1 hc
    exact ⟨hrules.trans (rules_of_writeItem hc), hscope⟩

end Checker

namespace Check

def scopeAfter (c : Check) (before : List Item) : Scope :=
  (before.map Item.atom).foldl Scope.update (.initial c.effectiveLevel)

/-- Under the name of a rule a check says what the rule says of one of the atoms, and for the types of arguments what
is said of a call in two words. -/
theorem exists_of_code {c : Check} {report : Report} (h : c.run = .ok report) {d : Diagnostic}
    (hd : d ∈ report.diagnostics) {rule : Rule} (hcode : d.code = some rule.name) :
    (rule = .argTypes ∧ ∃ first next, c.Joins first next ∧
      d = (Rule.ArgTypes.splitCall first next).withCode Rule.argTypes.name) ∨
    ∃ before item after, c.items = before ++ item :: after ∧ ∃ (watch watch' : Watch) (tracker : Tracker) (problems : _),
      watch.rule = rule ∧ tracker.scope = c.scopeAfter before ∧
      watch.onAtom tracker item.atom = .ok (watch', problems) ∧ ∃ p ∈ problems, d = p.withCode rule.name := by
  obtain ⟨last, onItems, hitems, hall⟩ := run_eq_ok h
  cases (hall d).1 hd with
  | inl hd =>
    rcases Checker.mem_snd_writeWords_iff.1 hd with ⟨-, w, -, -, p, -, rfl⟩ | ⟨first, next, hj, rfl⟩
    · exact absurd (Option.some.inj hcode).symm rule.name_ne_syntaxCode
    · exact .inl ⟨(Rule.name_injective (Option.some.inj hcode)).symm, first, next, hj, rfl⟩
  | inr hd =>
    obtain ⟨before, item, after, c₁, said, c₂, problems, hs, hb, ho, hx⟩ := (Checker.mem_writeItems hitems).1 hd
    obtain ⟨watch, -, hrule, watch', ps, hw, p, hp, rfl⟩ := (Checker.mem_writeItem_iff ho).1 ⟨hx, hcode⟩
    refine .inr ⟨before, item, after, hs, watch, watch', c₁.tracker, ps, hrule, ?_, hw, p, hp, rfl⟩
    rw [(Checker.rules_scope_of_writeItems hb).2, (Checker.tracker_writeWords _ _).2]
    rfl

theorem mem_of_joins {c : Check} {report : Report} (h : c.run = .ok report) {first next : Word}
    (hj : c.Joins first next) :
    (Rule.ArgTypes.splitCall first next).withCode Rule.argTypes.name ∈ report.diagnostics := by
  obtain ⟨last, onItems, -, hall⟩ := run_eq_ok h
  exact (hall _).2 (.inl (Checker.mem_snd_writeWords_iff.2 (.inr ⟨first, next, hj, rfl⟩)))

theorem exists_onAtom {c : Check} {report : Report} (h : c.run = .ok report) {rule : Rule} (hr : rule ∈ c.rules)
    {before after : List Item} {item : Item} (hs : c.items = before ++ item :: after) :
    ∃ (watch watch' : Watch) (tracker : Tracker) (problems : _), watch.rule = rule ∧
      tracker.scope = c.scopeAfter before ∧ watch.onAtom tracker item.atom = .ok (watch', problems) ∧
      ∀ p ∈ problems, p.withCode rule.name ∈ report.diagnostics := by
  obtain ⟨last, onItems, hitems, hall⟩ := run_eq_ok h
  have hsplit := hitems
  rw [hs] at hsplit
  obtain ⟨c₁, said, rest, hb, hrest, -⟩ := Checker.writeItems_append hsplit
  obtain ⟨c₂, problems, more, ho, -, -⟩ := Checker.writeItems_cons.1 hrest
  obtain ⟨hrules, hscope⟩ := Checker.rules_scope_of_writeItems hb
  obtain ⟨hsame, htracker⟩ := Checker.tracker_writeWords (.initial c.rules c.effectiveLevel c.builtinMap) c.words
  obtain ⟨watch, hm, hrule⟩ : ∃ watch ∈ c₁.watches, watch.rule = rule := by
    refine List.mem_map.1 (?_ : rule ∈ c₁.rules)
    rwa [hrules, hsame, Checker.rules_initial]
  obtain ⟨watches, ps, hw, -, -⟩ := Checker.writeItem_eq_ok.1 ho
  obtain ⟨watch', found, hf⟩ := Watch.onAtom_of_mem hw hm
  refine ⟨watch, watch', c₁.tracker, found, hrule, ?_, hf, fun p hp => ?_⟩
  · rw [hscope, htracker]
    rfl
  · have hsaid := (Checker.mem_writeItem_iff ho).2 ⟨watch, hm, hrule, watch', found, hf, p, hp, rfl⟩
    exact (hall _).2 (.inr ((Checker.mem_writeItems hitems).2 ⟨before, item, after, c₁, said, c₂, problems, hs, hb, ho,
      hsaid.1⟩))

end Check

theorem Watch.onAtom_argTypes {watch watch' : Watch} (hr : watch.rule = .argTypes) {tracker : Tracker} {a : Atom}
    {problems : List Diagnostic} (h : watch.onAtom tracker a = .ok (watch', problems)) :
    Rule.ArgTypes.onAtom tracker.scope a = .ok problems := by
  obtain ⟨rule, memory⟩ := watch
  obtain rfl : rule = .argTypes := hr
  simp only [onAtom, bind_eq_ok, pure_eq_ok, Prod.mk.injEq] at h
  obtain ⟨found, hfound, -, rfl⟩ := h
  exact hfound

end MapScript
