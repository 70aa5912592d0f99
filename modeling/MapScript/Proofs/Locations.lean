import MapScript.Proofs.Flaws
import MapScript.Proofs.Places

/-! Diagnostics point into their files. The one thing that does not is a call that starts with a word of one
file and goes on with a word of another: its range ends where the other file says. -/

namespace MapScript

namespace Span

structure Inside (file : Int) (t : Text) (s : Span) : Prop where
  file : s.file = file
  start : 0 ≤ s.start
  lt : s.start < s.stop
  stop : s.stop ≤ t.length

def Within (sources : List Source) (s : Span) : Prop :=
  ∃ (i : Nat) (source : Source), sources[i]? = some source ∧ s.Inside i source.text

end Span

theorem Word.inside_of_mem_scan {file : Int} {source : Text} {w : Word} (h : w ∈ scan file source) :
    w.span.Inside file source := by
  have hlt := start_lt_stop (inked_of_mem_scan h)
  have hle := stop_le_of_mem_scan h
  exact ⟨scanFrom_file h, by simp [span], by simp [span, hlt], by simp [span, hle]⟩

namespace Atom

variable {file : Int} {source : Text} {a : Atom} {group rest : List Word}

theorem Over.span_inside (h : Over file source a group rest) (hg : ∀ w ∈ group, w.span.Inside file source)
    (hord : Word.Ordered group) (hink : ∀ w ∈ group, w.text.Inked) : a.span.Inside file source := by
  obtain ⟨first, hf, last, hl, hs⟩ := h.located
  have hfirst := hg first (List.mem_of_mem_head? hf)
  have hlast := hg last (List.mem_of_mem_getLast? hl)
  have hcover := hord.covers hink hf hl (List.mem_of_mem_head? hf) hfirst.file
  rw [hs]
  exact ⟨rfl, hfirst.start, Int.lt_of_lt_of_le hfirst.lt hcover.stop, hlast.stop⟩

end Atom

namespace Item

theorem exists_group_of_mem {file : Int} {source : Text} {item : Item} (h : item ∈ parse file source) :
    ∃ group rest, Atom.Over file source item.atom group rest ∧ (∀ w ∈ group, w ∈ Word.scan file source) ∧
      Word.Ordered group ∧ ∀ flaw ∈ item.flaws, flaw.span = item.atom.span := by
  obtain ⟨before, w, rest, used, hs, -, hr⟩ := reading_of_mem (fun _ => True) trivial
    (fun _ _ _ => .inl trivial) h
  have hcut : Word.scan file source = before ++ (w :: rest.take used ++ rest.drop used) := by
    rw [hs, List.cons_append, List.take_append_drop]
  refine ⟨w :: rest.take used, rest.drop used, hr.over fun v hv => ?_, fun v hv => ?_, ?_,
    fun flaw hf => (hr.of_flaw hf).1⟩
  · exact Word.scanFrom_file (hs ▸ List.mem_append_right before hv)
  · rw [hcut]
    exact List.mem_append_right _ (List.mem_append_left _ hv)
  · exact (((Word.ordered_scan file source).parts hcut).2.parts rfl).1

theorem exists_over_of_mem {file : Int} {source : Text} {item : Item} (h : item ∈ parse file source) :
    ∃ group rest, Atom.Over file source item.atom group rest ∧ (∀ w ∈ group, w.span.Inside file source) ∧
      Word.Ordered group ∧ (∀ w ∈ group, w.text.Inked) ∧ ∀ flaw ∈ item.flaws, flaw.span = item.atom.span := by
  obtain ⟨group, rest, hover, hg, hord, hflaws⟩ := exists_group_of_mem h
  exact ⟨group, rest, hover, fun w hw => Word.inside_of_mem_scan (hg w hw), hord,
    fun w hw => Word.inked_of_mem_scan (hg w hw), hflaws⟩

theorem span_inside {file : Int} {source : Text} {item : Item} (h : item ∈ parse file source) :
    item.atom.span.Inside file source := by
  obtain ⟨group, rest, hover, hg, hord, hink, -⟩ := exists_over_of_mem h
  exact hover.span_inside hg hord hink

end Item

theorem Span.Inside.shift {file : Int} {content source : Text} {s : Span} (h : s.Inside file content) {offset : Nat}
    (hle : content = [] ∨ offset + content.length ≤ source.length) : (s.shift offset).Inside file source := by
  have hstart := h.start
  have hlt := h.lt
  have hstop := h.stop
  have hne : content ≠ [] := by
    rintro rfl
    simp at hstop
    omega
  have hle := hle.resolve_left hne
  exact ⟨h.file, by simp only [Span.shift]; omega, by simp only [Span.shift]; omega,
    by simp only [Span.shift]; omega⟩

namespace Atom

variable {file : Int} {source : Text} {group rest : List Word} (hg : ∀ w ∈ group, w.span.Inside file source)

include hg

theorem CommentOver.length_le {opener : Word} {content : Text} {closer : Option Word}
    (h : CommentOver source opener content closer group rest) :
    content = [] ∨ opener.stop + content.length ≤ source.length := by
  cases h with
  | closed inner last hgroup ho hl hc hi ht =>
    have hlen : content.length = min last.start source.length - opener.stop := by
      rw [ht, Text.slice, List.length_drop, List.length_take]
    by_cases hle : opener.stop ≤ min last.start source.length
    · exact .inr (by omega)
    · exact .inl (List.eq_nil_of_length_eq_zero (by omega))
  | unclosed inner hgroup ho hc hr hi ht =>
    have hstop := (hg opener (by simp [hgroup])).stop
    simp only [Word.span] at hstop
    rw [ht, List.length_drop]
    exact .inr (by omega)
  | inline word last hgroup hlen ho hl hc hw hopen hclose =>
    have hstop := (hg word (by simp [hgroup])).stop
    have hlength := congrArg List.length hw
    simp only [Word.span, Word.stop, Span.mk.injEq, List.length_append] at hstop hlength hopen ⊢
    exact .inr (by omega)

theorem CommentOver.marks_inside {opener : Word} {content : Text} {closer : Option Word}
    (h : CommentOver source opener content closer group rest) :
    opener.span.Inside file source ∧ ∀ w ∈ closer, w.span.Inside file source := by
  cases h with
  | closed inner last hgroup ho hl hc hi ht =>
    refine ⟨hg opener (by simp [hgroup]), fun w hw => hg w ?_⟩
    rw [hc, Option.mem_some_iff] at hw
    simp [hgroup, hw]
  | unclosed inner hgroup ho hc hr hi ht =>
    refine ⟨hg opener (by simp [hgroup]), fun w hw => ?_⟩
    simp [hc] at hw
  | inline word last hgroup hlen ho hl hc hw hopen hclose =>
    obtain ⟨hfile, hstart, hlt, hstop⟩ := hg word (by simp [hgroup])
    simp only [Word.span, Word.stop] at hfile hstart hlt hstop
    rw [hopen]
    refine ⟨⟨hfile, hstart, ?_, ?_⟩, fun w hw => ?_⟩
    · simp only
      omega
    · simp only
      omega
    · rw [hc, Option.mem_some_iff] at hw
      rw [← hw, hclose]
      refine ⟨hfile, ?_, ?_, ?_⟩
      · simp only [Word.stop]
        omega
      · simp only [Word.stop]
        omega
      · simp only [Word.stop]
        omega

theorem Over.placed {a : Atom} (h : Over file source a group rest) (hord : Word.Ordered group)
    (hink : ∀ w ∈ group, w.text.Inked) : a.Placed (Span.Inside file source) := by
  have hspan := h.span_inside hg hord hink
  have hmade := h.made
  cases a with
  | comment opener content closer stop =>
    obtain ⟨hopener, hcloser⟩ := CommentOver.marks_inside hg hmade
    refine ⟨hspan, fun w hw => ?_, fun he item hi => ?_⟩
    · cases List.mem_cons.1 hw with
      | inl hw => exact hw ▸ hopener
      | inr hw => exact hcloser w (Option.mem_toList.1 hw)
    · cases he
      have hin := Item.span_inside hi
      rw [show opener.file = file from hopener.file] at hin
      exact hin.shift (CommentOver.length_le hg hmade)
  | _ => exact ⟨hspan, fun w hw => hg w (hmade ▸ hw), by simp⟩

end Atom

theorem Item.placed_of_mem_parse {file : Int} {source : Text} {item : Item} (h : item ∈ parse file source) :
    item.Placed (Span.Inside file source) := by
  obtain ⟨group, rest, hover, hg, hord, hink, hflaws⟩ := exists_over_of_mem h
  refine ⟨hover.placed hg hord hink, fun flaw hf => ?_⟩
  rw [hflaws flaw hf]
  exact hover.span_inside hg hord hink

theorem Item.Placed.mono {P Q : Span → Prop} (hpq : ∀ s, P s → Q s) {item : Item} (h : item.Placed P) :
    item.Placed Q :=
  ⟨⟨hpq _ h.atom.span, fun w hw => hpq _ (h.atom.words w hw), fun he i hi => hpq _ (h.atom.content he i hi)⟩,
    fun flaw hf => hpq _ (h.flaws flaw hf)⟩

namespace Source

theorem getElem?_number {files : List (Text × Text)} {source : Source} (h : source ∈ number files) :
    ∃ i : Nat, (number files)[i]? = some source ∧ source.file = i := by
  obtain ⟨i, hi⟩ := List.getElem?_of_mem h
  refine ⟨i, hi, ?_⟩
  rw [number, List.getElem?_mapIdx, Option.map_eq_some_iff] at hi
  obtain ⟨_, _, rfl⟩ := hi
  rfl

theorem within_of_inside {files : List (Text × Text)} {source : Source} (h : source ∈ number files) {s : Span}
    (hs : s.Inside source.file source.text) : s.Within (number files) := by
  obtain ⟨i, hi, hfile⟩ := getElem?_number h
  exact ⟨i, source, hi, hfile ▸ hs⟩

theorem pairwise_number (files : List (Text × Text)) : (number files).Pairwise fun s t => s.file ≠ t.file := by
  rw [List.pairwise_iff_getElem]
  intro i j hi hj hij
  simp only [number, List.getElem_mapIdx]
  omega

end Source

namespace Check

/-- In a check `next` is taken for the rest of a call that started in `first`. -/
def Joins (c : Check) (first next : Word) : Prop :=
  (Checker.initial c.rules c.effectiveLevel c.builtinMap).Joins c.words first next

variable {c : Check} {files : List (Text × Text)} (hc : c.sources = Source.number files)

include hc

theorem words_within : ∀ w ∈ c.words, w.span.Within c.sources := by
  intro w h
  obtain ⟨source, hs, hw⟩ := List.mem_flatMap.1 h
  rw [hc] at hs ⊢
  exact Source.within_of_inside hs (Word.inside_of_mem_scan hw)

theorem items_within : ∀ item ∈ c.items, item.Placed (Span.Within c.sources) := by
  intro item h
  obtain ⟨source, hs, hi⟩ := List.mem_flatMap.1 h
  rw [hc] at hs ⊢
  exact (Item.placed_of_mem_parse hi).mono fun s => Source.within_of_inside hs

theorem words_pairwise : c.words.Pairwise fun u v => u.file = v.file → u.stop ≤ v.start := by
  refine List.pairwise_flatMap.2 ⟨fun source _ => ?_, ?_⟩
  · refine (Word.ordered_scan source.file source.text).imp ?_
    intro u v hle _
    exact hle
  · rw [hc]
    refine (Source.pairwise_number files).imp fun hne u hu v hv he => absurd ?_ hne
    rw [← Word.scanFrom_file hu, ← Word.scanFrom_file hv, he]

theorem through_within {before after : List Word} {first next : Word} (h : c.words = before ++ next :: after)
    (hf : first ∈ before) (hfile : first.file = next.file) : (first.span.through next.span).Within c.sources := by
  have hpair := words_pairwise hc
  rw [h] at hpair
  have hle : first.stop ≤ next.start := (List.pairwise_append.1 hpair).2.2 first hf next (by simp) hfile
  obtain ⟨i, source, hi, hfirst⟩ := words_within hc first (by simp [h, hf])
  obtain ⟨j, other, hj, hnext⟩ := words_within hc next (by simp [h])
  have hij : (i : Int) = j := hfirst.file.symm.trans (hfile.trans hnext.file)
  obtain rfl : i = j := by omega
  obtain rfl : source = other := Option.some.inj (hi.symm.trans hj)
  have hlt := hfirst.lt
  have hlt' := hnext.lt
  refine ⟨i, source, hi, hfirst.file, hfirst.start, ?_, hnext.stop⟩
  simp only [Word.span, Span.through] at hlt hlt' ⊢
  omega

/-- The diagnostics that do not point into their files are the calls that start in one file and go on in
another, where this gives the call a range that its file does not have. -/
theorem misplaced_iff_joined {report : Report} (h : c.run = .ok report) (d : Diagnostic) :
    d ∈ report.diagnostics ∧ ¬ d.Placed (Span.Within c.sources) ↔
      ∃ first next, c.Joins first next ∧ first.file ≠ next.file ∧
        ¬ (first.span.through next.span).Within c.sources ∧
        d = (Rule.ArgTypes.splitCall first next).withCode Rule.argTypes.name := by
  obtain ⟨_, onItems, hitems, hall⟩ := run_eq_ok h
  have hstart : (Checker.initial c.rules c.effectiveLevel c.builtinMap).tracker.Placed (Span.Within c.sources) :=
    ⟨by simp [Checker.initial, Tracker.initial], by simp [Checker.initial, Tracker.initial, Scope.initial]⟩
  have honItems := Checker.placed_writeItems (Checker.placed_writeWords hstart c.words) (items_within hc) hitems
  have hwords := @Checker.exists_of_not_placed _ (Checker.initial c.rules c.effectiveLevel c.builtinMap) _
    (words_within hc) d
  constructor
  · rintro ⟨hd, hp⟩
    have hd := ((hall d).1 hd).resolve_right fun hd => hp (honItems d hd)
    obtain ⟨first, next, hjoins, hout, rfl⟩ := hwords.1 ⟨hd, hp⟩
    refine ⟨first, next, hjoins, fun hfile => hout ?_, hout, rfl⟩
    obtain ⟨before, after, hs, -, -, hpending⟩ := hjoins
    exact through_within hc hs (Checker.pending?_writeWords (by simp [Checker.initial]) hpending) hfile
  · rintro ⟨first, next, hjoins, -, hout, hd⟩
    obtain ⟨hd, hp⟩ := hwords.2 ⟨first, next, hjoins, hout, hd⟩
    exact ⟨(hall d).2 (.inl hd), hp⟩

omit hc

def parted : Check :=
  ⟨.conquerors, [.argTypes], false,
    Source.number [("first.rms", "create_elevation rnd"), ("second.rms", "5")]⟩

theorem parted_run : ∃ report, parted.run = .ok report ∧ ∃ d ∈ report.diagnostics, d.span = ⟨0, 17, 1⟩ := by
  obtain ⟨hrun, hwords⟩ : parted.run.toOption.any (fun _ => true) = true ∧
      ((Checker.initial parted.rules parted.effectiveLevel parted.builtinMap).writeWords parted.words).2.any
        (fun d => d.span = ⟨0, 17, 1⟩) = true := by
    decide +kernel
  obtain ⟨report, hrun, -⟩ := exists_eq_ok_iff.2 hrun
  obtain ⟨d, hd, hspan⟩ := List.any_eq_true.1 hwords
  obtain ⟨_, _, -, hall⟩ := run_eq_ok hrun
  exact ⟨report, hrun, d, (hall d).2 (.inl hd), of_decide_eq_true hspan⟩

theorem parted_misplaced_iff_joined : ∃ report, parted.run = .ok report ∧
    ∀ d, d ∈ report.diagnostics ∧ ¬ d.Placed (Span.Within parted.sources) ↔
      ∃ first next, parted.Joins first next ∧ first.file ≠ next.file ∧
        ¬ (first.span.through next.span).Within parted.sources ∧
        d = (Rule.ArgTypes.splitCall first next).withCode Rule.argTypes.name := by
  obtain ⟨report, hrun, -⟩ := parted_run
  exact ⟨report, hrun, misplaced_iff_joined rfl hrun⟩

theorem parted_not_placed : ∃ report, parted.run = .ok report ∧
    ¬ ∀ d ∈ report.diagnostics, d.Placed (Span.Within parted.sources) := by
  obtain ⟨report, hrun, d, hd, hspan⟩ := parted_run
  refine ⟨report, hrun, fun hall => ?_⟩
  obtain ⟨i, source, -, hinside⟩ := (hall d hd).span
  have hlt := hinside.lt
  rw [hspan] at hlt
  exact absurd hlt (by decide)

end Check

end MapScript
