import MapScript.Check

/-! The pass over the items: what a step that does not fail comes from, and what a run keeps. -/

namespace MapScript

theorem bind_eq_ok {ε α β : Type} {x : Except ε α} {f : α → Except ε β} {b : β} :
    (x >>= f) = .ok b ↔ ∃ a, x = .ok a ∧ f a = .ok b := by
  cases x <;> simp [bind, Except.bind]

theorem pure_eq_ok {ε α : Type} {a b : α} : (pure a : Except ε α) = .ok b ↔ a = b := by
  simp [pure, Except.pure]

theorem exists_eq_ok_iff {ε α : Type} {x : Except ε α} {p : α → Bool} :
    (∃ a, x = .ok a ∧ p a = true) ↔ x.toOption.any p = true := by
  cases x <;> simp [Except.toOption]

namespace Watch

variable {tracker : Tracker} {atom : Atom}

theorem rule_of_onAtom {watch watch' : Watch} {problems : List Diagnostic}
    (h : watch.onAtom tracker atom = .ok (watch', problems)) : watch'.rule = watch.rule := by
  obtain ⟨rule, memory⟩ := watch
  cases rule with
  | argTypes | actorAreasMatch =>
    simp only [onAtom, bind_eq_ok, pure_eq_ok, Prod.mk.injEq] at h
    obtain ⟨_, _, rfl, _⟩ := h
    rfl
  | _ =>
    simp only [onAtom, pure_eq_ok, Prod.mk.injEq] at h
    obtain ⟨rfl, _⟩ := h
    rfl

theorem allOnAtom_cons {watch : Watch} {rest watches : List Watch} {found : List Diagnostic}
    (h : allOnAtom tracker atom (watch :: rest) = .ok (watches, found)) :
    ∃ watch' problems rest' more, watch.onAtom tracker atom = .ok (watch', problems) ∧
      allOnAtom tracker atom rest = .ok (rest', more) ∧ watches = watch' :: rest' ∧
      found = problems.map (·.withCode watch.rule.name) ++ more := by
  simp only [allOnAtom, bind_eq_ok, pure_eq_ok, Prod.mk.injEq] at h
  obtain ⟨⟨watch', problems⟩, hw, ⟨rest', more⟩, hr, rfl, rfl⟩ := h
  exact ⟨watch', problems, rest', more, hw, hr, rfl, by rw [rule_of_onAtom hw]⟩

theorem rules_of_allOnAtom {watches watches' : List Watch} {found : List Diagnostic}
    (h : allOnAtom tracker atom watches = .ok (watches', found)) :
    watches'.map Watch.rule = watches.map Watch.rule := by
  induction watches generalizing watches' found with
  | nil =>
    simp only [allOnAtom, pure_eq_ok, Prod.mk.injEq] at h
    obtain ⟨rfl, rfl⟩ := h
    rfl
  | cons watch rest ih =>
    obtain ⟨watch', problems, rest', more, hw, hr, rfl, rfl⟩ := allOnAtom_cons h
    rw [List.map_cons, List.map_cons, rule_of_onAtom hw, ih hr]

theorem onAtom_of_mem {watches watches' : List Watch} {found : List Diagnostic} {watch : Watch}
    (h : allOnAtom tracker atom watches = .ok (watches', found)) (hm : watch ∈ watches) :
    ∃ watch' problems, watch.onAtom tracker atom = .ok (watch', problems) := by
  induction watches generalizing watches' found with
  | nil => simp at hm
  | cons first rest ih =>
    obtain ⟨watch', problems, rest', more, hw, hr, -⟩ := allOnAtom_cons h
    cases List.mem_cons.1 hm with
    | inl he => exact ⟨watch', problems, he ▸ hw⟩
    | inr hm => exact ih hr hm

theorem mem_allOnAtom {watches watches' : List Watch} {found : List Diagnostic} {d : Diagnostic}
    (h : allOnAtom tracker atom watches = .ok (watches', found)) :
    d ∈ found ↔ ∃ watch ∈ watches, ∃ watch' problems, watch.onAtom tracker atom = .ok (watch', problems) ∧
      ∃ p ∈ problems, d = p.withCode watch.rule.name := by
  induction watches generalizing watches' found with
  | nil =>
    simp only [allOnAtom, pure_eq_ok, Prod.mk.injEq] at h
    obtain ⟨rfl, rfl⟩ := h
    simp
  | cons watch rest ih =>
    obtain ⟨watch', problems, rest', more, hw, hr, rfl, rfl⟩ := allOnAtom_cons h
    rw [List.mem_append, List.mem_map, ih hr]
    constructor
    · rintro (⟨p, hp, rfl⟩ | ⟨w, hm, hrest⟩)
      · exact ⟨watch, by simp, watch', problems, hw, p, hp, rfl⟩
      · exact ⟨w, by simp [hm], hrest⟩
    · rintro ⟨w, hm, w', ps, ho, p, hp, rfl⟩
      cases List.mem_cons.1 hm with
      | inl he =>
        subst he
        obtain ⟨rfl, rfl⟩ : watch' = w' ∧ problems = ps := by simpa [hw] using ho
        exact .inl ⟨p, hp, rfl⟩
      | inr hm => exact .inr ⟨w, hm, w', ps, ho, p, hp, rfl⟩

end Watch

namespace Checker

theorem writeItem_eq_ok {c d : Checker} {item : Item} {found : List Diagnostic} :
    c.writeItem item = .ok (d, found) ↔
      ∃ watches problems, Watch.allOnAtom c.tracker item.atom c.watches = .ok (watches, problems) ∧
        d = ⟨watches, (c.tracker.update item.atom).1⟩ ∧
        found = (problems ++ ((c.tracker.update item.atom).2.map (·.withCode syntaxCode)).toList)
          ++ d.writeFlaws item := by
  simp only [writeItem, writeAtom, bind_eq_ok, pure_eq_ok, Prod.mk.injEq]
  constructor
  · rintro ⟨⟨c', ps⟩, ⟨⟨watches, problems⟩, hw, hc⟩, rfl, rfl⟩
    obtain ⟨rfl, rfl⟩ := Prod.mk.inj hc
    exact ⟨watches, problems, hw, rfl, rfl⟩
  · rintro ⟨watches, problems, hw, rfl, rfl⟩
    exact ⟨_, ⟨_, hw, rfl⟩, rfl, rfl⟩

theorem writeItems_cons {c d : Checker} {item : Item} {rest : List Item} {found : List Diagnostic} :
    c.writeItems (item :: rest) = .ok (d, found) ↔
      ∃ c' problems more, c.writeItem item = .ok (c', problems) ∧ c'.writeItems rest = .ok (d, more) ∧
        found = problems ++ more := by
  simp only [writeItems, bind_eq_ok, pure_eq_ok, Prod.mk.injEq]
  constructor
  · rintro ⟨⟨c', problems⟩, hc, ⟨d', more⟩, hd, rfl, rfl⟩
    exact ⟨c', problems, more, hc, hd, rfl⟩
  · rintro ⟨c', problems, more, hc, hd, rfl⟩
    exact ⟨_, hc, _, hd, rfl, rfl⟩

theorem rules_of_writeItem {c d : Checker} {item : Item} {found : List Diagnostic}
    (h : c.writeItem item = .ok (d, found)) : d.rules = c.rules := by
  obtain ⟨watches, problems, hw, rfl, -⟩ := writeItem_eq_ok.1 h
  exact Watch.rules_of_allOnAtom hw

theorem writeItem_of_mem {c d : Checker} {items : List Item} {found : List Diagnostic}
    (h : c.writeItems items = .ok (d, found)) {item : Item} (hi : item ∈ items) :
    ∃ (c₁ c₂ : Checker) (problems : List Diagnostic), c₁.writeItem item = .ok (c₂, problems) ∧
      problems ⊆ found := by
  induction items generalizing c found with
  | nil => simp at hi
  | cons first rest ih =>
    obtain ⟨c', problems, more, hc, hd, rfl⟩ := writeItems_cons.1 h
    cases List.mem_cons.1 hi with
    | inl he =>
      subst he
      exact ⟨c, c', problems, hc, List.subset_append_left _ _⟩
    | inr hi =>
      obtain ⟨c₁, c₂, ps, hw, hs⟩ := ih hd hi
      exact ⟨c₁, c₂, ps, hw, List.Subset.trans hs (List.subset_append_right _ _)⟩

end Checker

theorem Check.run_eq_ok {c : Check} {report : Report} (h : c.run = .ok report) :
    ∃ d onItems,
      ((Checker.initial c.rules c.effectiveLevel c.builtinMap).writeWords c.words).1.writeItems c.items
        = .ok (d, onItems) ∧
      ∀ x, x ∈ report.diagnostics ↔
        x ∈ ((Checker.initial c.rules c.effectiveLevel c.builtinMap).writeWords c.words).2 ∨ x ∈ onItems := by
  simp only [run, problems, bind_eq_ok, pure_eq_ok] at h
  obtain ⟨found, ⟨⟨d, onItems⟩, hw, rfl⟩, rfl⟩ := h
  exact ⟨d, onItems, hw, fun x => by rw [List.mem_mergeSort, List.mem_append]⟩

end MapScript
