import MapScript.Proofs.Locations

/-! In a check of a single source every range begins and ends on a character that is no blank. -/

namespace MapScript

namespace Text

def InkAt (t : Text) (offset : Int) : Prop := 0 ≤ offset ∧ ∃ g, t[offset.toNat]? = some g ∧ g.isBlank = false

theorem InkAt.shift {part whole : Text} {i : Int} {n : Nat} (h : part.InkAt i) (hp : part <+: whole.drop n) :
    whole.InkAt (i + n) := by
  obtain ⟨hi, g, hg, hink⟩ := h
  refine ⟨by omega, g, ?_, hink⟩
  obtain ⟨rest, hrest⟩ := hp
  have hlt : i.toNat < part.length := (List.getElem?_eq_some_iff.1 hg).1
  have hn : (i + n).toNat = n + i.toNat := by omega
  rw [hn, ← List.getElem?_drop, ← hrest, List.getElem?_append_left hlt, hg]

end Text

/-- A range of a text that begins and ends on something other than a blank. -/
structure Span.Edged (file : Int) (t : Text) (s : Span) : Prop extends Span.Inside file t s where
  first : t.InkAt s.start
  last : t.InkAt (s.stop - 1)

theorem Span.Edged.through {file : Int} {t : Text} {s u : Span} (hs : s.Edged file t) (hu : u.Edged file t)
    (h : s.start < u.stop) : (s.through u).Edged file t :=
  ⟨⟨hs.file, hs.start, h, hu.stop⟩, hs.first, hu.last⟩

theorem Span.Edged.shift {file : Int} {part whole : Text} {s : Span} {n : Nat} (h : s.Edged file part)
    (hp : part <+: whole.drop n) : (s.shift n).Edged file whole := by
  have hlen := hp.length_le
  rw [List.length_drop] at hlen
  have hstart := h.start
  have hlt := h.lt
  have hstop := h.stop
  have hle : part = [] ∨ n + part.length ≤ whole.length := .inr (by omega)
  refine ⟨h.toInside.shift hle, h.first.shift hp, ?_⟩
  have hlast := h.last.shift hp
  rwa [show s.stop - 1 + n = (s.shift n).stop - 1 by simp only [Span.shift]; omega] at hlast

namespace Word

variable {file : Int} {source : Text} {w : Word}

theorem exists_split_of_mem_scan (h : w ∈ scan file source) :
    ∃ s t, source = s ++ (w.text ++ t) ∧ s.length = w.start := by
  obtain ⟨before, after, hs⟩ := List.append_of_mem h
  obtain ⟨s, t, hsource, hlen, -⟩ := scan_split hs
  exact ⟨s, t, hsource, hlen⟩

theorem inkAt_of_mem_scan (h : w ∈ scan file source) {i : Int} (hi : w.start ≤ i) (hi' : i < w.stop) :
    source.InkAt i := by
  obtain ⟨s, t, rfl, hlen⟩ := exists_split_of_mem_scan h
  have hink := inked_of_mem_scan h
  have hstop : (w.stop : Int) = w.start + w.text.length := by simp [stop]
  have hlt : i.toNat - s.length < w.text.length := by omega
  refine ⟨by omega, w.text[i.toNat - s.length], ?_, hink.2 _ (List.getElem_mem hlt)⟩
  rw [List.getElem?_append_right (by omega), List.getElem?_append_left hlt, List.getElem?_eq_getElem hlt]

theorem edged_of_mem_scan (h : w ∈ scan file source) : w.span.Edged file source := by
  have hlt := start_lt_stop (inked_of_mem_scan h)
  refine ⟨inside_of_mem_scan h, inkAt_of_mem_scan h (Int.le_refl _) ?_, inkAt_of_mem_scan h ?_ ?_⟩
  · simp only [span]
    omega
  · simp only [span]
    omega
  · simp only [span]
    omega

end Word

namespace Atom

variable {file : Int} {source : Text} {group rest : List Word} (hg : ∀ w ∈ group, w ∈ Word.scan file source)

include hg

theorem Over.span_edged {a : Atom} (h : Over file source a group rest) (hord : Word.Ordered group) :
    a.span.Edged file source := by
  have hedged : ∀ w ∈ group, w.span.Edged file source := fun w hw => Word.edged_of_mem_scan (hg w hw)
  have hin := h.span_inside (fun w hw => (hedged w hw).toInside) hord fun w hw => Word.inked_of_mem_scan (hg w hw)
  obtain ⟨first, hf, last, hl, hs⟩ := h.located
  rw [hs] at hin ⊢
  exact ⟨hin, (hedged first (List.mem_of_mem_head? hf)).first, (hedged last (List.mem_of_mem_getLast? hl)).last⟩

variable {opener : Word} {content : Text} {closer : Option Word}

theorem CommentOver.content_prefix (h : CommentOver source opener content closer group rest) :
    content <+: source.drop opener.stop := by
  cases h with
  | closed inner last hgroup ho hl hc hi ht =>
    rw [ht, Text.slice, List.drop_take]
    exact List.take_prefix _ _
  | unclosed inner hgroup ho hc hr hi ht => exact ht ▸ List.prefix_refl _
  | inline word last hgroup hlen ho hl hc hw hopen hclose =>
    obtain ⟨s, t, rfl, hlen⟩ := Word.exists_split_of_mem_scan (hg word (by simp [hgroup]))
    have hstop : opener.stop = s.length + opener.text.length := by
      simp only [Word.span, Span.mk.injEq, Word.stop] at hopen ⊢
      omega
    rw [hw, hstop, ← List.drop_drop, List.drop_left, List.append_assoc, List.append_assoc, List.drop_left]
    exact List.prefix_append _ _

theorem CommentOver.marks_edged (h : CommentOver source opener content closer group rest) :
    opener.span.Edged file source ∧ ∀ w ∈ closer, w.span.Edged file source := by
  have hinside := h.marks_inside fun w hw => (Word.edged_of_mem_scan (hg w hw)).toInside
  cases h with
  | closed inner last hgroup ho hl hc hi ht =>
    refine ⟨Word.edged_of_mem_scan (hg opener (by simp [hgroup])), fun w hw => Word.edged_of_mem_scan (hg w ?_)⟩
    rw [hc, Option.mem_some_iff] at hw
    simp [hgroup, hw]
  | unclosed inner hgroup ho hc hr hi ht =>
    refine ⟨Word.edged_of_mem_scan (hg opener (by simp [hgroup])), fun w hw => ?_⟩
    simp [hc] at hw
  | inline word last hgroup hlen ho hl hc hw hopen hclose =>
    have hink : ∀ i : Int, word.start ≤ i → i < word.stop → source.InkAt i := fun i =>
      Word.inkAt_of_mem_scan (hg word (by simp [hgroup]))
    have hstop : word.stop = word.start + word.text.length := rfl
    refine ⟨⟨hinside.1, ?_, ?_⟩, fun w hw => ⟨hinside.2 w hw, ?_, ?_⟩⟩
    · rw [hopen]
      exact hink _ (by simp only; omega) (by simp only; omega)
    · rw [hopen]
      exact hink _ (by simp only; omega) (by simp only; omega)
    · rw [hc, Option.mem_some_iff] at hw
      rw [← hw, hclose]
      exact hink _ (by simp only; omega) (by simp only; omega)
    · rw [hc, Option.mem_some_iff] at hw
      rw [← hw, hclose]
      exact hink _ (by simp only; omega) (by simp only; omega)

end Atom

theorem Item.span_edged {file : Int} {source : Text} {item : Item} (h : item ∈ parse file source) :
    item.atom.span.Edged file source := by
  obtain ⟨group, rest, hover, hg, hord, -⟩ := exists_group_of_mem h
  exact hover.span_edged hg hord

theorem Atom.Over.placed_edged {file : Int} {source : Text} {a : Atom} {group rest : List Word}
    (h : Over file source a group rest) (hg : ∀ w ∈ group, w ∈ Word.scan file source) (hord : Word.Ordered group) :
    a.Placed (Span.Edged file source) := by
  have hspan := h.span_edged hg hord
  have hmade := h.made
  cases a with
  | comment opener content closer stop =>
    obtain ⟨hopener, hcloser⟩ := CommentOver.marks_edged hg hmade
    refine ⟨hspan, fun w hw => ?_, fun he item hi => ?_⟩
    · cases List.mem_cons.1 hw with
      | inl hw => exact hw ▸ hopener
      | inr hw => exact hcloser w (Option.mem_toList.1 hw)
    · cases he
      have hin := Item.span_edged hi
      rw [show opener.file = file from hopener.file] at hin
      exact hin.shift (CommentOver.content_prefix hg hmade)
  | _ => exact ⟨hspan, fun w hw => Word.edged_of_mem_scan (hg w (hmade ▸ hw)), by simp⟩

theorem Item.placed_edged {file : Int} {source : Text} {item : Item} (h : item ∈ parse file source) :
    item.Placed (Span.Edged file source) := by
  obtain ⟨group, rest, hover, hg, hord, hflaws⟩ := exists_group_of_mem h
  refine ⟨hover.placed_edged hg hord, fun flaw hf => ?_⟩
  rw [hflaws flaw hf]
  exact hover.span_edged hg hord

namespace Check

/-- What holds of the ranges of all words and items holds of all that is reported, except for calls that go on
in a later word. -/
theorem placed_or_joined {c : Check} {P : Span → Prop} (hwords : ∀ w ∈ c.words, P w.span)
    (hitems : ∀ item ∈ c.items, item.Placed P) {report : Report} (h : c.run = .ok report) {d : Diagnostic}
    (hd : d ∈ report.diagnostics) :
    d.Placed P ∨ ∃ first next, c.Joins first next ∧ ¬ P (first.span.through next.span) ∧
      d = (Rule.ArgTypes.splitCall first next).withCode Rule.argTypes.name := by
  obtain ⟨_, onItems, hrun, hall⟩ := run_eq_ok h
  have hstart : (Checker.initial c.rules c.effectiveLevel c.builtinMap).tracker.Placed P :=
    ⟨by simp [Checker.initial, Tracker.initial], by simp [Checker.initial, Tracker.initial, Scope.initial]⟩
  cases (hall d).1 hd with
  | inr hd => exact .inl (Checker.placed_writeItems (Checker.placed_writeWords hstart c.words) hitems hrun d hd)
  | inl hd =>
    by_cases hp : d.Placed P
    · exact .inl hp
    · exact .inr ((Checker.exists_of_not_placed hwords).1 ⟨hd, hp⟩)

theorem Joins.split {c : Check} {first next : Word} (h : c.Joins first next) :
    ∃ before after, c.words = before ++ next :: after ∧ first ∈ before := by
  obtain ⟨before, after, hs, -, -, hpending⟩ := h
  exact ⟨before, after, hs, Checker.pending?_writeWords (by simp [Checker.initial]) hpending⟩

theorem edged_of_run {c : Check} {source : Source} (hc : c.sources = [source]) {report : Report}
    (h : c.run = .ok report) {d : Diagnostic} (hd : d ∈ report.diagnostics) :
    d.Placed (Span.Edged source.file source.text) := by
  have hwords : c.words = Word.scan source.file source.text := by simp [words, hc]
  have hitems : c.items = Item.parse source.file source.text := by simp [items, hc]
  refine (placed_or_joined (fun w hw => ?_) (fun item hi => ?_) h hd).resolve_right ?_
  · exact Word.edged_of_mem_scan (hwords ▸ hw)
  · exact Item.placed_edged (hitems ▸ hi)
  · rintro ⟨first, next, hj, hout, -⟩
    obtain ⟨before, after, hs, hf⟩ := hj.split
    rw [hwords] at hs
    have hle := (Word.ordered_scan source.file source.text).append_le hs hf List.mem_cons_self
    have hfirst : first ∈ Word.scan source.file source.text := by rw [hs]; exact List.mem_append_left _ hf
    have hnext : next ∈ Word.scan source.file source.text := by simp [hs]
    have hlt := Word.start_lt_stop (Word.inked_of_mem_scan hfirst)
    have hlt' := Word.start_lt_stop (Word.inked_of_mem_scan hnext)
    refine hout ((Word.edged_of_mem_scan hfirst).through (Word.edged_of_mem_scan hnext) ?_)
    simp only [Word.span]
    omega

end Check

end MapScript
