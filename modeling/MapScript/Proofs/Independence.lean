import MapScript.Proofs.Rewording

/-! Rules do not interfere: what a check says under one code does not depend on which other rules are in use, nor on
their order. -/

namespace MapScript

section Sorting

variable {α : Type}

theorem append_inj_of_split {q : α → Bool} {xs ys xs' ys' : List α} (h : xs ++ ys = xs' ++ ys')
    (hx : ∀ b ∈ xs, q b = true) (hy : ∀ b ∈ ys, q b = false) (hx' : ∀ b ∈ xs', q b = true)
    (hy' : ∀ b ∈ ys', q b = false) : xs = xs' ∧ ys = ys' := by
  have hfront : ∀ {us vs : List α}, (∀ b ∈ us, q b = true) → (∀ b ∈ vs, q b = false) → (us ++ vs).filter q = us := by
    intro us vs hu hv
    rw [List.filter_append, List.filter_eq_self.2 hu, List.filter_eq_nil_iff.2 (by simpa using hv), List.append_nil]
  have he : xs = xs' := by rw [← hfront hx hy, h, hfront hx' hy']
  subst he
  exact ⟨rfl, List.append_cancel_left h⟩

variable {le : α → α → Bool} (trans : ∀ a b c, le a b = true → le b c = true → le a c = true)
  (total : ∀ a b, (le a b || le b a) = true)

include trans total

/-- What sorting makes of a first element: it is put behind those below it, and before all others. -/
theorem exists_mergeSort_cons (a : α) (l : List α) :
    ∃ below rest, (a :: l).mergeSort le = below ++ a :: rest ∧ l.mergeSort le = below ++ rest ∧
      (∀ b ∈ below, (!le a b) = true) ∧ ∀ b ∈ rest, (!le a b) = false := by
  obtain ⟨below, rest, hal, hl, hbelow⟩ := List.mergeSort_cons trans total a l
  have hsorted := List.pairwise_mergeSort trans total (a :: l)
  rw [hal, List.pairwise_append, List.pairwise_cons] at hsorted
  exact ⟨below, rest, hal, hl, hbelow, fun b hb => by rw [hsorted.2.1.1 b hb, Bool.not_true]⟩

/-- The sort is stable: it makes of some of the elements what it makes of them among all. -/
theorem filter_mergeSort (p : α → Bool) (l : List α) :
    (l.mergeSort le).filter p = (l.filter p).mergeSort le := by
  induction l with
  | nil => rw [List.mergeSort_nil, List.filter_nil, List.mergeSort_nil]
  | cons a l ih =>
    obtain ⟨below, rest, hal, hl, hbelow, hrest⟩ := exists_mergeSort_cons trans total a l
    rw [hl, List.filter_append] at ih
    rw [hal, List.filter_append, List.filter_cons, List.filter_cons]
    split
    · obtain ⟨below', rest', ham, hm, hbelow', hrest'⟩ := exists_mergeSort_cons trans total a (l.filter p)
      have hcut := append_inj_of_split (ih.trans hm) (fun b hb => hbelow b (List.mem_filter.1 hb).1)
        (fun b hb => hrest b (List.mem_filter.1 hb).1) hbelow' hrest'
      rw [ham, hcut.1, hcut.2]
    · exact ih

end Sorting

theorem Span.le_trans (s t u : Span) (hst : s.le t = true) (htu : t.le u = true) : s.le u = true := by
  simp only [le, Bool.or_eq_true, decide_eq_true_eq, Bool.and_eq_true, beq_iff_eq] at *
  omega

theorem Span.le_total (s t : Span) : (s.le t || t.le s) = true := by
  simp only [le, Bool.or_eq_true, decide_eq_true_eq, Bool.and_eq_true, beq_iff_eq]
  omega

namespace Diagnostic

def under (code : Text) (found : List Diagnostic) : List Diagnostic := found.filter fun d => d.code = some code

@[simp] theorem under_append (code : Text) (xs ys : List Diagnostic) :
    under code (xs ++ ys) = under code xs ++ under code ys := List.filter_append xs ys

theorem under_withCode (code code' : Text) (found : List Diagnostic) :
    under code (found.map (·.withCode code')) = if code' = code then found.map (·.withCode code') else [] := by
  split <;> simp_all [under, List.filter_map, Function.comp_def, withCode]

end Diagnostic

open Diagnostic (under under_withCode under_append)

theorem Rule.name_injective {r s : Rule} (h : r.name = s.name) : r = s := by
  revert h
  cases r <;> cases s <;> decide

namespace Watch

variable (p : Rule → Bool) {code : Text} (hcode : ∀ rule : Rule, rule.name = code → p rule = true)

def only (watches : List Watch) : List Watch := watches.filter fun watch => p watch.rule

theorem only_cons_of_pos {watch : Watch} (h : p watch.rule = true) (rest : List Watch) :
    only p (watch :: rest) = watch :: only p rest := List.filter_cons_of_pos h

theorem only_cons_of_neg {watch : Watch} (h : p watch.rule = false) (rest : List Watch) :
    only p (watch :: rest) = only p rest := List.filter_cons_of_neg (by simp [h])

theorem onWord_of_ne {watch : Watch} (h : watch.rule ≠ .argTypes) (tracker : Tracker) (word : Word) :
    watch.onWord tracker word = (watch, none) := by
  obtain ⟨rule, memory⟩ := watch
  cases rule <;> first | rfl | exact absurd rfl h

theorem rule_onWord (watch : Watch) (tracker : Tracker) (word : Word) :
    (watch.onWord tracker word).1.rule = watch.rule := by
  obtain ⟨rule, memory⟩ := watch
  cases rule <;> rfl

/-- Only the rule for the types of arguments takes a word in, outside of comments and unless it was done before. -/
theorem fst_allOnWord_cons (tracker : Tracker) (word : Word) (watch : Watch) (rest : List Watch) :
    (allOnWord tracker word (watch :: rest)).1 =
      if watch.rule = .argTypes ∧ tracker.cursor.inComment = false then
        (watch.onWord tracker word).1 ::
          if (watch.onWord tracker word).2.isSome then rest else (allOnWord tracker word rest).1
      else watch :: (allOnWord tracker word rest).1 := by
  by_cases hr : watch.rule = .argTypes
  · rw [allOnWord]
    cases hc : tracker.cursor.inComment with
    | true => simp [hr, Rule.seesComments]
    | false =>
      cases ho : watch.onWord tracker word with
      | mk watch' problem => cases problem <;> simp [hr]
  · rw [allOnWord, onWord_of_ne hr]
    simp [hr]

theorem allOnWord_of_forall_ne {tracker : Tracker} {word : Word} {watches : List Watch}
    (h : ∀ watch ∈ watches, watch.rule ≠ .argTypes) : (allOnWord tracker word watches).1 = watches := by
  induction watches with
  | nil => rfl
  | cons watch rest ih =>
    rw [fst_allOnWord_cons, if_neg fun hw => h watch (by simp) hw.1, ih fun w hw => h w (by simp [hw])]

theorem allOnWord_only (tracker : Tracker) (word : Word) (watches : List Watch) :
    (allOnWord tracker word (only p watches)).1 = only p (allOnWord tracker word watches).1 := by
  induction watches with
  | nil => rfl
  | cons watch rest ih =>
    cases hp : p watch.rule with
    | true =>
      rw [only_cons_of_pos p hp, fst_allOnWord_cons, fst_allOnWord_cons, ih]
      split
      · rw [only_cons_of_pos p (by rw [rule_onWord, hp])]
        split <;> rfl
      · rw [only_cons_of_pos p hp]
    | false =>
      rw [only_cons_of_neg p hp, fst_allOnWord_cons]
      split
      · next hr =>
        rw [only_cons_of_neg p (by rw [rule_onWord, hp])]
        split
        · refine allOnWord_of_forall_ne fun w hw he => ?_
          have hkept := (List.mem_filter.1 hw).2
          rw [he, ← hr.1, hp] at hkept
          exact Bool.false_ne_true hkept
        · exact ih
      · rw [only_cons_of_neg p hp, ih]

theorem pending?_cons (watch : Watch) (rest : List Watch) :
    pending? (watch :: rest) =
      (if watch.rule = .argTypes then watch.memory.unfinished else none).or (pending? rest) := by
  simp only [pending?, List.findSome?_cons]
  split <;> simp_all

theorem pending?_only (watches : List Watch) :
    pending? (only p watches) = if p .argTypes = true then pending? watches else none := by
  induction watches with
  | nil => simp [only, pending?]
  | cons watch rest ih =>
    cases hp : p watch.rule with
    | true =>
      rw [only_cons_of_pos p hp, pending?_cons, pending?_cons, ih]
      by_cases hr : watch.rule = .argTypes
      · rw [hr] at hp
        rw [if_pos hp, if_pos hp]
      · simp only [if_neg hr, Option.none_or]
    | false =>
      rw [only_cons_of_neg p hp, pending?_cons, ih]
      by_cases hr : watch.rule = .argTypes
      · rw [hr] at hp
        simp [hp]
      · simp only [if_neg hr, Option.none_or]

include hcode

theorem allOnAtom_only {tracker : Tracker} {atom : Atom} {watches watches' : List Watch} {found : List Diagnostic}
    (h : allOnAtom tracker atom watches = .ok (watches', found)) :
    ∃ found', allOnAtom tracker atom (only p watches) = .ok (only p watches', found') ∧
      under code found' = under code found := by
  induction watches generalizing watches' found with
  | nil =>
    simp only [allOnAtom, pure_eq_ok, Prod.mk.injEq] at h
    obtain ⟨rfl, rfl⟩ := h
    exact ⟨[], rfl, rfl⟩
  | cons watch rest ih =>
    obtain ⟨watch', problems, rest', more, hw, hr, rfl, rfl⟩ := allOnAtom_cons h
    obtain ⟨more', hr', hmore⟩ := ih hr
    have hrule := rule_of_onAtom hw
    cases hp : p watch.rule with
    | true =>
      refine ⟨problems.map (·.withCode watch.rule.name) ++ more', ?_, by rw [under_append, under_append, hmore]⟩
      rw [only_cons_of_pos p hp, only_cons_of_pos p (by rw [hrule, hp])]
      simp only [allOnAtom, bind_eq_ok, pure_eq_ok]
      exact ⟨_, hw, _, hr', by rw [hrule]⟩
    | false =>
      have hother : watch.rule.name ≠ code := fun he => by simp [hcode _ he] at hp
      refine ⟨more', ?_, by rw [under_append, under_withCode, if_neg hother, List.nil_append, hmore]⟩
      rw [only_cons_of_neg p hp, only_cons_of_neg p (by rw [hrule, hp]), hr']

end Watch

namespace Checker

variable (p : Rule → Bool) {code : Text} (hcode : ∀ rule : Rule, rule.name = code → p rule = true)

def only (c : Checker) : Checker := ⟨Watch.only p c.watches, c.tracker⟩

theorem only_initial (rules : List Rule) (level : Level) (builtinMap : Bool) :
    (initial rules level builtinMap).only p = initial (rules.filter p) level builtinMap := by
  simp [only, initial, Watch.only, List.filter_map, Function.comp_def]

theorem writeWord_only (c : Checker) (w : Word) : ((c.only p).writeWord w).1 = (c.writeWord w).1.only p := by
  simp only [writeWord, only, Watch.allOnWord_only]

include hcode

theorem under_writeWord_only (c : Checker) (w : Word) :
    under code ((c.only p).writeWord w).2.toList = under code (c.writeWord w).2.toList := by
  rw [snd_writeWord, snd_writeWord]
  simp only [only, Watch.pending?_only]
  cases hp : p .argTypes with
  | true => rfl
  | false =>
    have hother : Rule.argTypes.name ≠ code := fun he => by simp [hcode _ he] at hp
    cases Marks.problem (Marks.inside c.tracker.cursor.inComment w.text) w with
    | some problem => rfl
    | none =>
      cases Watch.pending? c.watches with
      | none => rfl
      | some first =>
        split
        · rfl
        · have hsplit := under_withCode code Rule.argTypes.name [Rule.ArgTypes.splitCall first w]
          rw [if_neg hother] at hsplit
          exact hsplit.symm

theorem writeWords_only (c : Checker) (words : List Word) :
    ((c.only p).writeWords words).1 = (c.writeWords words).1.only p ∧
      under code ((c.only p).writeWords words).2 = under code (c.writeWords words).2 := by
  induction words generalizing c with
  | nil => exact ⟨rfl, rfl⟩
  | cons w words ih =>
    obtain ⟨hchecker, hfound⟩ := ih (c.writeWord w).1
    simp only [writeWords, writeWord_only, under_append, under_writeWord_only p hcode]
    exact ⟨hchecker, by rw [hfound]⟩

variable (hflaw : code ≠ flawCode)

include hflaw

theorem writeItem_only {c d : Checker} {item : Item} {found : List Diagnostic}
    (h : c.writeItem item = .ok (d, found)) :
    ∃ found', (c.only p).writeItem item = .ok (d.only p, found') ∧ under code found' = under code found := by
  obtain ⟨watches, problems, hw, rfl, rfl⟩ := writeItem_eq_ok.1 h
  obtain ⟨problems', hw', hproblems⟩ := Watch.allOnAtom_only p hcode hw
  have hnone : ∀ e : Checker, under code (e.writeFlaws item) = [] := by
    intro e
    have hmap := under_withCode code flawCode
      ((item.flaws.filter fun flaw => !e.isCovered item.atom flaw).map fun flaw => .error flaw.span flaw.kind.message)
    rw [if_neg hflaw.symm, List.map_map] at hmap
    exact hmap
  refine ⟨_, writeItem_eq_ok.2 ⟨_, problems', hw', rfl, rfl⟩, ?_⟩
  simp only [under_append, hnone, hproblems]
  rfl

theorem writeItems_only {c d : Checker} {items : List Item} {found : List Diagnostic}
    (h : c.writeItems items = .ok (d, found)) :
    ∃ found', (c.only p).writeItems items = .ok (d.only p, found') ∧ under code found' = under code found := by
  induction items generalizing c found with
  | nil =>
    simp only [writeItems, pure_eq_ok, Prod.mk.injEq] at h
    obtain ⟨rfl, rfl⟩ := h
    exact ⟨[], rfl, rfl⟩
  | cons item rest ih =>
    obtain ⟨c', problems, more, hc, hd, rfl⟩ := writeItems_cons.1 h
    obtain ⟨problems', hc', hproblems⟩ := writeItem_only p hcode hflaw hc
    obtain ⟨more', hd', hmore⟩ := ih hd
    refine ⟨problems' ++ more', writeItems_cons.2 ⟨_, _, _, hc', hd', rfl⟩, ?_⟩
    rw [under_append, under_append, hproblems, hmore]

omit hflaw hcode

/-- Whether a problem has the code of one of the rules, or that of the check of marks and balance. -/
def Voices (rules : List Rule) (d : Diagnostic) : Prop :=
  d.code = some syntaxCode ∨ ∃ rule ∈ rules, d.code = some rule.name

theorem voices_writeWord {c : Checker} {w : Word} {d : Diagnostic} (h : d ∈ (c.writeWord w).2) : Voices c.rules d := by
  rw [snd_writeWord, Option.mem_def, Option.or_eq_some_iff] at h
  obtain h | ⟨-, h⟩ := h
  · obtain ⟨problem, -, rfl⟩ := Option.map_eq_some_iff.1 h
    exact .inl rfl
  · split at h
    · simp at h
    · obtain ⟨first, hfirst, rfl⟩ := Option.map_eq_some_iff.1 h
      obtain ⟨watch, hm, hw⟩ := List.exists_of_findSome?_eq_some hfirst
      split at hw
      · next hr => exact .inr ⟨.argTypes, List.mem_map.2 ⟨watch, hm, hr⟩, rfl⟩
      · simp at hw

theorem voices_writeWords {c : Checker} {words : List Word} {d : Diagnostic} (h : d ∈ (c.writeWords words).2) :
    Voices c.rules d := by
  obtain ⟨before, w, after, -, hd⟩ := mem_snd_writeWords.1 h
  rw [← (tracker_writeWords c before).1]
  exact voices_writeWord hd

theorem under_flawCode_of_voices {rules : List Rule} {found : List Diagnostic} (h : ∀ d ∈ found, Voices rules d) :
    under flawCode found = [] := by
  have hnames : ∀ rule : Rule, rule.name ≠ flawCode := by
    intro rule
    cases rule <;> decide
  refine List.filter_eq_nil_iff.2 fun d hd => ?_
  rw [decide_eq_true_eq]
  intro hcode
  rcases h d hd with hs | ⟨rule, -, hr⟩
  · exact absurd (Option.some.inj (hs.symm.trans hcode)) (by decide)
  · exact hnames rule (Option.some.inj (hr.symm.trans hcode))

theorem writeFlaws_congr {c d : Checker} (htypes : .argTypes ∈ c.rules ↔ .argTypes ∈ d.rules)
    (hcase : .attributeCase ∈ c.rules ↔ .attributeCase ∈ d.rules) (item : Item) :
    c.writeFlaws item = d.writeFlaws item := by
  have huses : c.uses .argTypes = d.uses .argTypes ∧ c.uses .attributeCase = d.uses .attributeCase := by
    constructor <;> rw [uses, uses, Bool.eq_iff_iff, List.contains_iff_mem, List.contains_iff_mem] <;> assumption
  have hcovered : ∀ flaw, c.isCovered item.atom flaw = d.isCovered item.atom flaw := by
    intro flaw
    simp only [isCovered, huses.1, huses.2]
  simp only [writeFlaws, hcovered]

theorem writeFlaws_of_rules_eq {c d : Checker} (h : c.rules = d.rules) : c.writeFlaws = d.writeFlaws :=
  funext (writeFlaws_congr (by rw [h]) (by rw [h]))

theorem under_writeFlaws (c : Checker) (item : Item) : under flawCode (c.writeFlaws item) = c.writeFlaws item :=
  List.filter_eq_self.2 fun d hd => by
    obtain ⟨flaw, -, rfl⟩ := List.mem_map.1 hd
    rfl

theorem exists_writeItem_eq {c d : Checker} {item : Item} {found : List Diagnostic}
    (h : c.writeItem item = .ok (d, found)) :
    ∃ said, found = said ++ c.writeFlaws item ∧ ∀ x ∈ said, Voices c.rules x := by
  have hrules := rules_of_writeItem h
  obtain ⟨watches, problems, hw, rfl, rfl⟩ := writeItem_eq_ok.1 h
  refine ⟨_, by rw [writeFlaws_of_rules_eq hrules], fun x hx => ?_⟩
  rcases List.mem_append.1 hx with hx | hx
  · obtain ⟨watch, hm, -, -, -, problem, -, rfl⟩ := (Watch.mem_allOnAtom hw).1 hx
    exact .inr ⟨watch.rule, List.mem_map_of_mem hm, rfl⟩
  · obtain ⟨problem, -, rfl⟩ := Option.map_eq_some_iff.1 (Option.mem_toList.1 hx)
    exact .inl rfl

theorem under_flawCode_writeItems {c d : Checker} {items : List Item} {found : List Diagnostic}
    (h : c.writeItems items = .ok (d, found)) :
    under flawCode found = items.flatMap c.writeFlaws ∧
      ∀ x ∈ found, Voices c.rules x ∨ x.code = some flawCode := by
  induction items generalizing c found with
  | nil =>
    simp only [writeItems, pure_eq_ok, Prod.mk.injEq] at h
    obtain ⟨rfl, rfl⟩ := h
    exact ⟨rfl, by simp⟩
  | cons item rest ih =>
    obtain ⟨c', problems, more, hc, hd, rfl⟩ := writeItems_cons.1 h
    obtain ⟨said, rfl, hsaid⟩ := exists_writeItem_eq hc
    obtain ⟨hflaws, hvoices⟩ := ih hd
    have hrules := rules_of_writeItem hc
    rw [hrules] at hvoices
    refine ⟨?_, fun x hx => ?_⟩
    · rw [under_append, under_append, under_flawCode_of_voices hsaid, under_writeFlaws, hflaws,
        writeFlaws_of_rules_eq hrules, List.flatMap_cons, List.nil_append]
    · simp only [List.mem_append] at hx
      rcases hx with (hx | hx) | hx
      · exact .inl (hsaid x hx)
      · obtain ⟨flaw, -, rfl⟩ := List.mem_map.1 hx
        exact .inr rfl
      · exact hvoices x hx

end Checker

namespace Check

open Checker (syntaxCode flawCode Voices)

theorem under_mergeSort (code : Text) (found : List Diagnostic) :
    under code (found.mergeSort fun a b => a.span.le b.span)
      = (under code found).mergeSort fun a b => a.span.le b.span :=
  filter_mergeSort (fun a b c => Span.le_trans a.span b.span c.span) (fun a b => Span.le_total a.span b.span) _ found

theorem run_eq_ok_iff {c : Check} {report : Report} :
    c.run = .ok report ↔ ∃ d onItems,
      ((Checker.initial c.rules c.effectiveLevel c.builtinMap).writeWords c.words).1.writeItems c.items
        = .ok (d, onItems) ∧
      report = ⟨c.sources, (((Checker.initial c.rules c.effectiveLevel c.builtinMap).writeWords c.words).2
        ++ onItems).mergeSort fun a b => a.span.le b.span⟩ := by
  simp only [run, problems, bind_eq_ok, pure_eq_ok]
  constructor
  · rintro ⟨found, ⟨⟨d, onItems⟩, hw, rfl⟩, rfl⟩
    exact ⟨d, onItems, hw, rfl⟩
  · rintro ⟨d, onItems, hw, rfl⟩
    exact ⟨_, ⟨_, hw, rfl⟩, rfl⟩

theorem run_filter_rules {c : Check} {report : Report} (h : c.run = .ok report) (p : Rule → Bool) {code : Text}
    (hcode : ∀ rule : Rule, rule.name = code → p rule = true) (hflaw : code ≠ flawCode) :
    ∃ report', Check.run { c with rules := c.rules.filter p } = .ok report' ∧
      under code report'.diagnostics = under code report.diagnostics := by
  obtain ⟨d, onItems, hw, rfl⟩ := run_eq_ok_iff.1 h
  obtain ⟨hchecker, hwords⟩ := Checker.writeWords_only p hcode
    (.initial c.rules c.effectiveLevel c.builtinMap) c.words
  obtain ⟨onItems', hw', hitems⟩ := Checker.writeItems_only p hcode hflaw hw
  rw [← hchecker, Checker.only_initial] at hw'
  rw [Checker.only_initial] at hwords
  refine ⟨_, run_eq_ok_iff.2 ⟨_, onItems', hw', rfl⟩, ?_⟩
  rw [under_mergeSort, under_mergeSort, under_append, under_append, hitems]
  exact congrArg (fun said => (said ++ under code onItems).mergeSort fun a b => a.span.le b.span) hwords

/-- The flaws are reported in order, less those that the rules in use cover. -/
theorem under_flawCode_run {c : Check} {report : Report} (h : c.run = .ok report) :
    under flawCode report.diagnostics =
      (c.items.flatMap (Checker.initial c.rules c.effectiveLevel c.builtinMap).writeFlaws).mergeSort
        fun a b => a.span.le b.span := by
  obtain ⟨d, onItems, hw, rfl⟩ := run_eq_ok_iff.1 h
  have hrules := (Checker.tracker_writeWords (.initial c.rules c.effectiveLevel c.builtinMap) c.words).1
  rw [under_mergeSort, under_append, Checker.under_flawCode_of_voices fun x hx => Checker.voices_writeWords hx,
    (Checker.under_flawCode_writeItems hw).1, List.nil_append, Checker.writeFlaws_of_rules_eq hrules]

theorem voices_run {c : Check} {report : Report} (h : c.run = .ok report) :
    ∀ d ∈ report.diagnostics, Voices c.rules d ∨ d.code = some flawCode := by
  obtain ⟨e, onItems, hw, rfl⟩ := run_eq_ok_iff.1 h
  have hrules := Checker.tracker_writeWords (.initial c.rules c.effectiveLevel c.builtinMap) c.words
  have hinitial := Checker.rules_initial c.rules c.effectiveLevel c.builtinMap
  intro d hd
  rcases List.mem_append.1 (List.mem_mergeSort.1 hd) with hd | hd
  · exact .inl (hinitial ▸ Checker.voices_writeWords hd)
  · have hvoices := (Checker.under_flawCode_writeItems hw).2 d hd
    rwa [hrules.1, hinitial] at hvoices

theorem filter_rules_of_mem {rules : List Rule} (hd : rules.Nodup) {rule : Rule} (hm : rule ∈ rules) :
    rules.filter (· == rule) = [rule] := by
  rw [List.filter_beq, List.count_eq_one_of_mem hd hm, List.replicate_one]

theorem under_eq_of_filter_rules {level : Level} {builtinMap : Bool} {sources : List Source}
    {rules rules' : List Rule} {report report' : Report}
    (h : Check.run ⟨level, rules, builtinMap, sources⟩ = .ok report)
    (h' : Check.run ⟨level, rules', builtinMap, sources⟩ = .ok report') {p : Rule → Bool} {code : Text}
    (hcode : ∀ rule : Rule, rule.name = code → p rule = true) (hflaw : code ≠ flawCode)
    (hp : rules.filter p = rules'.filter p) :
    under code report.diagnostics = under code report'.diagnostics := by
  obtain ⟨common, hrun, hcommon⟩ := run_filter_rules h p hcode hflaw
  obtain ⟨common', hrun', hcommon'⟩ := run_filter_rules h' p hcode hflaw
  have hsame : common = common' := Except.ok.inj <| by
    rw [← hrun, ← hrun', hp]
  rw [← hcommon, ← hcommon', hsame]

/-- Rules do not interfere: two checks of the same sources, against distinct rules in any order, say the same under the
name of every rule of both and the same about marks and balance; and of the flaws they report the same when both or
neither have the rules that report some flaws better. All they say has one of these codes. -/
theorem rules_independent {level : Level} {builtinMap : Bool} {sources : List Source} {rules rules' : List Rule}
    (hd : rules.Nodup) (hd' : rules'.Nodup) {report report' : Report}
    (h : Check.run ⟨level, rules, builtinMap, sources⟩ = .ok report)
    (h' : Check.run ⟨level, rules', builtinMap, sources⟩ = .ok report') :
    (∀ rule ∈ rules, rule ∈ rules' →
      under rule.name report.diagnostics = under rule.name report'.diagnostics) ∧
    under syntaxCode report.diagnostics = under syntaxCode report'.diagnostics ∧
    ((.argTypes ∈ rules ↔ .argTypes ∈ rules') → (.attributeCase ∈ rules ↔ .attributeCase ∈ rules') →
      under flawCode report.diagnostics = under flawCode report'.diagnostics) ∧
    ∀ d ∈ report.diagnostics,
      d.code = some syntaxCode ∨ d.code = some flawCode ∨ ∃ rule ∈ rules, d.code = some rule.name := by
  refine ⟨fun rule hm hm' => ?_, ?_, fun htypes hcase => ?_, fun d hmem => ?_⟩
  · refine under_eq_of_filter_rules h h' (p := (· == rule)) (fun other he => ?_) ?_ ?_
    · rw [Rule.name_injective he, beq_self_eq_true]
    · cases rule <;> decide
    · rw [filter_rules_of_mem hd hm, filter_rules_of_mem hd' hm']
  · refine under_eq_of_filter_rules h h' (p := fun _ => false) (fun other he => ?_) (by decide) (by simp)
    cases other <;> exact absurd he (by decide)
  · rw [under_flawCode_run h, under_flawCode_run h']
    refine congrArg (fun flaws => (List.flatMap flaws _).mergeSort fun (a b : Diagnostic) => a.span.le b.span) ?_
    exact funext (Checker.writeFlaws_congr (by simpa [Checker.rules_initial] using htypes)
      (by simpa [Checker.rules_initial] using hcase))
  · rcases voices_run h d hmem with (hs | hr) | hf
    · exact .inl hs
    · exact .inr (.inr hr)
    · exact .inr (.inl hf)

def jumble : List Source := [⟨0, "a.rms", "base_elevation rnd (1,2) */"⟩, ⟨1, "b.rms", "BASE_SIZE base_size"⟩]

theorem jumble_rules_independent : ∃ report report',
    Check.run ⟨.conquerors, [.argTypes, .attributeCase], false, jumble⟩ = .ok report ∧
    Check.run ⟨.conquerors, [.compatibility, .attributeCase, .argTypes], false, jumble⟩ = .ok report' ∧
    (∃ d ∈ report.diagnostics, d.code = some Rule.argTypes.name) ∧
    under Rule.argTypes.name report.diagnostics = under Rule.argTypes.name report'.diagnostics ∧
    under Rule.attributeCase.name report.diagnostics = under Rule.attributeCase.name report'.diagnostics ∧
    under syntaxCode report.diagnostics = under syntaxCode report'.diagnostics ∧
    under flawCode report.diagnostics = under flawCode report'.diagnostics := by
  obtain ⟨hproblems, hrun'⟩ :
      (Check.mk .conquerors [.argTypes, .attributeCase] false jumble).problems.toOption.any
        (fun ds => ds.any fun d => d.code = some Rule.argTypes.name) = true ∧
      (Check.run ⟨.conquerors, [.compatibility, .attributeCase, .argTypes], false, jumble⟩).toOption.any
        (fun _ => true) = true := by
    decide +kernel
  obtain ⟨ds, hds, hany⟩ := exists_eq_ok_iff.2 hproblems
  obtain ⟨d, hd, hcode⟩ := List.any_eq_true.1 hany
  obtain ⟨report', hrun', -⟩ := exists_eq_ok_iff.2 hrun'
  have hrun : Check.run ⟨.conquerors, [.argTypes, .attributeCase], false, jumble⟩
      = .ok ⟨jumble, ds.mergeSort fun a b => a.span.le b.span⟩ := by
    rw [run, hds]
    rfl
  obtain ⟨hrules, hsyntax, hflaws, -⟩ := rules_independent (by decide) (by decide) hrun hrun'
  exact ⟨_, report', hrun, hrun', ⟨d, List.mem_mergeSort.2 hd, of_decide_eq_true hcode⟩,
    hrules .argTypes (by decide) (by decide), hrules .attributeCase (by decide) (by decide), hsyntax,
    hflaws (by decide) (by decide)⟩

end Check

end MapScript
