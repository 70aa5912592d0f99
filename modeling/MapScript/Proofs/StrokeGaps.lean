import MapScript.Proofs.Spacing

/-! Where a run of strokes stands: the gap after the last atom that had its space made, and what a stroke makes
of it. -/

namespace MapScript.Layout

open Text

namespace Output

def Ended (o : Options) (out : Output) : Prop :=
  out.atLineStart = true ∧ ∃ rest, out.pieces = o.lineEnding :: rest

variable {o : Options} {out : Output}

theorem ended_newline (o : Options) (out : Output) : (out.newline o).Ended o := ⟨rfl, _, rfl⟩

theorem Ended.setLast (h : out.Ended o) (last : Option Atom) : (out.setLast last).Ended o := h

theorem Ended.lead (h : out.Ended o) (indent : Nat) : out.lead o indent = o.indentation indent := by
  rw [Output.lead, if_pos h.1]

/-- A comment that stays on its line takes the place of the end of the line. -/
theorem Ended.make_sameLine (h : out.Ended o) {t : Text} (ht : out.text = t ++ o.lineEnding) (indent : Nat) :
    (out.make o indent .sameLine).text = t ++ (" " : Text) ∧ (out.make o indent .sameLine).lead o indent = [] := by
  obtain ⟨-, rest, hp⟩ := h
  have hremoved : out.removeNewline o = { out with pieces := rest, atLineStart := false } := by
    simp [removeNewline, hp]
  have hrest : out.text = rest.reverse.flatten ++ o.lineEnding := by simp [Output.text, hp]
  obtain rfl := List.append_cancel_right (hrest.symm.trans ht)
  rw [make, hremoved]
  refine ⟨?_, lead_write o indent _ _⟩
  rw [text_write]
  rfl

theorem last_make (o : Options) (indent : Nat) (out : Output) (space : Space) :
    (out.make o indent space).last = out.last := by
  cases space with
  | none => rfl
  | emptyLine =>
    rw [make, separate]
    split <;> rfl
  | sameLine =>
    rw [make, last_write, Output.removeNewline]
    split
    · split <;> rfl
    · rfl

end Output

def Gap.Starts (o : Options) (out : Output) : Gap → Prop
  | line _ => out.Ended o
  | space => out.atLineStart = false
  | apart => out.Ended o

/-- The text `written` has been written, with no blanks at its end, and then a gap. -/
structure Stands (o : Options) (out : Output) (written : Text) (gap : Gap) : Prop where
  text : out.text = written ++ gap.text o
  inked : ¬ written.EndsBlank
  start : gap.Starts o out

namespace Stands

variable {o : Options} {out : Output} {written : Text} {gap : Gap}

theorem newline_notMem_getLast? {t : Text} (h : ¬ t.EndsBlank) : .char '\n' ∉ t.getLast? := by
  intro hn
  refine h fun g hg => ?_
  obtain rfl : g = .char '\n' := Option.mem_unique hg hn
  decide

theorem getLast?_head (hw : ¬ written.EndsBlank) (marks : List Mark) :
    .char '\n' ∉ (written ++ (Gap.line marks).head o).getLast? := by
  rcases List.eq_nil_or_concat' marks with rfl | ⟨marks, mark, rfl⟩
  · simpa [Gap.head] using newline_notMem_getLast? hw
  · have hm : mark.1 ≠ [] := by
      intro hn
      have hb := mark.2.2
      rw [hn] at hb
      exact absurd hb (by decide)
    have hhead : written ++ (Gap.line (marks ++ [mark])).head o
        = (written ++ ((Gap.line marks).head o ++ o.lineEnding)) ++ mark.1 := by simp [Gap.head]
    rw [hhead, List.getLast?_append_of_ne_nil _ hm]
    exact fun hn => mark.2.1 (List.mem_of_mem_getLast? hn)

/-- Two line endings do not end a text whose last line is not empty. -/
theorem not_suffix (ho : o.Usual) {t : Text} (ht : .char '\n' ∉ t.getLast?) :
    ¬ o.lineEnding ++ o.lineEnding <:+ t ++ o.lineEnding := by
  rintro ⟨s, hs⟩
  obtain ⟨r, he, -⟩ := ho.exists_eq
  rw [← List.append_assoc] at hs
  have hs := List.append_cancel_right hs
  refine ht ?_
  rw [← hs, he]
  simp

variable (h : Stands o out written gap) (ho : o.Usual)

include h ho

theorem separate_eq (hg : ∃ marks, gap = .line marks) :
    out.separate o = out.newline o ∧ (out.newline o).separate o = out.newline o := by
  obtain ⟨marks, rfl⟩ := hg
  have htext : out.text = (written ++ (Gap.line marks).head o) ++ o.lineEnding := by
    rw [h.text, Gap.text, List.append_assoc]
  constructor
  · refine Output.separate_of_not_suffix ?_
    rw [htext]
    exact not_suffix ho (getLast?_head h.inked marks)
  · refine Output.separate_of_suffix ?_
    rw [Output.text_newline, htext, List.append_assoc]
    exact List.suffix_append _ _

variable (indent : Nat) {isMark : Bool} {space : Space}

theorem text_make (hs : space = .sameLine → isMark = false) (hg : gap = .space → isMark = false ∧ space ≠ .sameLine)
    {ready : Output}
    (hr : ready = if isMark then (out.make o indent space).separate o else out.make o indent space) :
    ready.text ++ ready.lead o indent = written ++ gap.joint o indent isMark space := by
  cases gap with
  | line marks =>
    have hended : out.Ended o := h.start
    have hlead := hended.lead indent
    obtain ⟨hsep, hsep'⟩ := h.separate_eq ho ⟨marks, rfl⟩
    have hnewline := (Output.ended_newline o out).lead indent
    cases space with
    | none =>
      cases isMark with
      | true => simp [hr, Output.make, hsep, hnewline, h.text, Gap.joint]
      | false => simp [hr, Output.make, hlead, h.text, Gap.joint]
    | emptyLine =>
      have hready : ready = out.newline o := by
        cases isMark <;> simp [hr, Output.make, hsep, hsep']
      simp [hready, h.text, Gap.joint]
    | sameLine =>
      have htext : out.text = (written ++ (Gap.line marks).head o) ++ o.lineEnding := by
        rw [h.text, Gap.text, List.append_assoc]
      obtain ⟨hmade, hlead⟩ := hended.make_sameLine htext indent
      simp [hr, hs rfl, hmade, hlead, Gap.joint]
  | apart =>
    have hended : out.Ended o := h.start
    have hlead := hended.lead indent
    -- There is an empty line already, so a section adds none.
    have hsep : out.separate o = out := by
      refine Output.separate_of_suffix ?_
      rw [h.text]
      exact List.suffix_append _ _
    cases space with
    | none =>
      cases isMark <;> simp [hr, Output.make, hsep, hlead, h.text, Gap.text, Gap.joint]
    | emptyLine =>
      cases isMark <;> simp [hr, Output.make, hsep, hlead, h.text, Gap.text, Gap.joint]
    | sameLine =>
      have htext : out.text = (written ++ o.lineEnding) ++ o.lineEnding := by
        rw [h.text, Gap.text, List.append_assoc]
      obtain ⟨hmade, hlead⟩ := hended.make_sameLine htext indent
      simp [hr, hs rfl, hmade, hlead, Gap.joint, Gap.head]
  | space =>
    obtain ⟨rfl, hne⟩ := hg rfl
    have hstart : out.atLineStart = false := h.start
    cases space with
    | none => simp [hr, Output.make, Output.lead, hstart, h.text, Gap.text, Gap.joint]
    | emptyLine =>
      have hsep : out.separate o = out.newline o := by
        refine Output.separate_of_not_suffix fun hsuffix => ?_
        obtain ⟨r, he, -⟩ := ho.exists_eq
        obtain ⟨t, ht⟩ := hsuffix
        have hlast := congrArg List.getLast? (ht.trans h.text)
        simp [he, Gap.text, ofString, ← List.append_assoc] at hlast
      simp [hr, Output.make, hsep, h.text, Gap.text, Gap.joint]
    | sameLine => exact absurd rfl hne

end Stands

theorem Stands.front {job : Job} {out : Output} {written : Text} {gap : Gap}
    (h : Stands job.options out written gap) (ho : job.options.Usual) {last : Atom} (hl : out.last = some last)
    (hc : last.kind ≠ .closeBlock) (hn : last.kind ≠ .other) {s : Stroke} {beforeBlock apart : Bool}
    (hf : s.form = .written beforeBlock apart) (hg : gap = .space → s.atom.kind = .openBlock) :
    s.front job out = written
      ++ gap.joint job.options s.place.indent (s.atom.kind == .sectionMark) (job.space last s.atom) := by
  have hcomment : job.space last s.atom = .sameLine → s.atom.kind = .comment := by
    intro hs
    simpa using (Space.of_sameLine.1 hs).1
  have hready : s.ready job out
      = if (s.atom.kind == .sectionMark) = true
        then (out.make job.options s.place.indent (job.space last s.atom)).separate job.options
        else out.make job.options s.place.indent (job.space last s.atom) := by
    simp [Stroke.ready, hf, before_eq_make hl hc hn, Output.last_make, hl]
  refine h.text_make ho s.place.indent (fun hs => ?_) (fun he => ⟨?_, fun hs => ?_⟩) hready
  · simp [hcomment hs]
  · simp [hg he]
  · simp [hcomment hs] at hg
    exact hg he

theorem ended_atomBody (job : Job) (place : Place) (beforeBlock : Bool) (out : Output) {a : Atom}
    (ho : a.kind ≠ .other) (hc : ¬ (beforeBlock = true ∧ a.kind = .command)) :
    (job.atomBody place beforeBlock out a).Ended job.options := by
  cases a with
  | other => exact absurd rfl ho
  | const head name value => cases value <;> exact Output.ended_newline _ _
  | command name args =>
    have hb : beforeBlock = false := by simpa [Atom.kind] using hc
    rw [Job.atomBody, Job.command, hb]
    exact Output.ended_newline _ _
  | _ => exact Output.ended_newline _ _

theorem atLineStart_write (o : Options) (indent : Nat) (out : Output) (t : Text) :
    (out.write o indent t).atLineStart = false := by
  unfold Output.write
  split
  · rfl
  · next h => exact Bool.eq_false_iff.2 h

theorem atLineStart_foldl_raw (out : Output) (ts : List Text) :
    (ts.foldl Output.raw out).atLineStart = out.atLineStart := by
  induction ts generalizing out with
  | nil => rfl
  | cons t ts ih => exact ih (out.raw t)

theorem atLineStart_command (job : Job) (place : Place) (out : Output) {a : Atom} (hk : a.kind = .command) :
    (job.atomBody place true out a).atLineStart = false := by
  cases a <;> simp [Atom.kind] at hk
  rw [Job.atomBody, Job.command, if_pos rfl, Output.raw, atLineStart_foldl_raw, atLineStart_write]

def Form.gap (beforeBlock apart : Bool) (kind : Atom.Kind) : Gap :=
  if beforeBlock ∧ kind = .command then .space else if apart then .apart else .line []

section Strokes

variable {job : Job} {out : Output} {s : Stroke}

theorem Stands.written (hk : s.atom.kind ≠ .other) (hp : ¬ (phrase job.options s.place s.atom).EndsBlank)
    {beforeBlock apart : Bool} (hf : s.form = .written beforeBlock apart)
    (ha : apart = true → s.atom.kind ≠ .command) :
    Stands job.options (s.write job out) (s.front job out ++ phrase job.options s.place s.atom)
        (Form.gap beforeBlock apart s.atom.kind) ∧
      (s.write job out).last = some s.atom := by
  have htext := s.text_write job out hk
  rw [← List.append_assoc] at htext
  have hink := not_endsBlank_append hp (s.front job out)
  by_cases hc : beforeBlock = true ∧ s.atom.kind = .command
  · have hapart : apart = false := by
      rw [Bool.eq_false_iff]
      exact fun h => ha h hc.2
    have hgap : Form.gap beforeBlock apart s.atom.kind = .space := if_pos hc
    have hwrite : s.write job out = job.atom s.place true out s.atom := by simp [Stroke.write, hf, hapart, hc.1]
    rw [hgap]
    refine ⟨⟨?_, hink, ?_⟩, by rw [hwrite]; rfl⟩
    · simp [htext, Stroke.back, hf, hc, hapart, Gap.text]
    · rw [hwrite]
      exact atLineStart_command job s.place _ hc.2
  · have hbody := ended_atomBody job s.place beforeBlock (job.before s.place.indent out s.atom) hk hc
    cases apart with
    | true =>
      have hgap : Form.gap beforeBlock true s.atom.kind = .apart := if_neg hc
      have hwrite : s.write job out
          = (job.atom s.place beforeBlock out s.atom).newline job.options := by simp [Stroke.write, hf]
      rw [hgap]
      refine ⟨⟨?_, hink, ?_⟩, by rw [hwrite]; rfl⟩
      · simp [htext, Stroke.back, hf, hc, Gap.text]
      · rw [hwrite]
        exact Output.ended_newline _ _
    | false =>
      have hgap : Form.gap beforeBlock false s.atom.kind = .line [] := if_neg hc
      have hwrite : s.write job out = job.atom s.place beforeBlock out s.atom := by simp [Stroke.write, hf]
      rw [hgap]
      refine ⟨⟨?_, hink, ?_⟩, by rw [hwrite]; rfl⟩
      · simp [htext, Stroke.back, hf, hc, Gap.text, Gap.head]
      · rw [hwrite]
        exact hbody.setLast _

/-- Whether a stroke is a line of its own whatever stands before it. -/
def Stroke.isMark (s : Stroke) : Bool :=
  match s.form with
  | .written _ _ => false
  | .line => true
  | .short _ empty => empty

theorem exists_mark (hn : .char '\n' ∉ phrase job.options s.place s.atom)
    (hp : ¬ (phrase job.options s.place s.atom).EndsBlank) (hf : s.isMark = true) :
    ∃ mark : Mark, job.options.indentation s.place.indent
      ++ (phrase job.options s.place s.atom ++ s.back job.options) = mark.1 ++ job.options.lineEnding := by
  obtain ⟨blanks, hblanks, hback⟩ : ∃ blanks : Text, .char '\n' ∉ blanks ∧
      s.back job.options = blanks ++ job.options.lineEnding := by
    cases hform : s.form with
    | written => simp [Stroke.isMark, hform] at hf
    | line => exact ⟨[], by simp, by simp [Stroke.back, hform]⟩
    | short length empty =>
      obtain rfl : empty = true := by simpa [Stroke.isMark, hform] using hf
      refine ⟨ofChars (length - (phrase job.options s.place s.atom).length) ' ', by simp [ofChars], ?_⟩
      simp [Stroke.back, hform]
  refine ⟨⟨job.options.indentation s.place.indent ++ (phrase job.options s.place s.atom ++ blanks), ?_, ?_⟩, ?_⟩
  · simp [newline_notMem_indentation, hn, hblanks]
  · rw [Bool.eq_false_iff]
    intro hb
    simp only [isBlank_append, Bool.and_eq_true] at hb
    exact hp (endsBlank_of_isBlank hb.2.1)
  · simp [hback]

theorem Stands.mark {written : Text} {marks : List Mark} (h : Stands job.options out written (.line marks))
    (ho : ∀ last ∈ out.last, last.kind ≠ .other) (hk : s.atom.kind ≠ .other) (hf : s.isMark = true) {mark : Mark}
    (hm : job.options.indentation s.place.indent
      ++ (phrase job.options s.place s.atom ++ s.back job.options) = mark.1 ++ job.options.lineEnding) :
    Stands job.options (s.write job out) written (.line (marks ++ [mark])) ∧
      (s.write job out).last = out.last := by
  have hstray : job.endStray out = out := by
    have hany : out.last.any (·.kind == .other) = false := by
      cases hl : out.last with
      | none => rfl
      | some last => simpa [hl] using ho last (by simp [hl])
    simp [Job.endStray, hany]
  have hended : out.Ended job.options := h.start
  have hwrite : s.ready job out = out ∧ (s.write job out).Ended job.options ∧
      (s.write job out).last = out.last := by
    cases hform : s.form with
    | written => simp [Stroke.isMark, hform] at hf
    | line => simp [Stroke.ready, Stroke.write, hform, hstray, Output.statement, Output.ended_newline]
    | short length empty =>
      obtain rfl : empty = true := by simpa [Stroke.isMark, hform] using hf
      simp [Stroke.ready, Stroke.write, hform, Output.ended_newline]
  obtain ⟨hready, hend, hlast⟩ := hwrite
  refine ⟨⟨?_, h.inked, hend⟩, hlast⟩
  rw [s.text_write job out hk, Stroke.front, hready, hended.lead, h.text, List.append_assoc, hm]
  simp [Gap.text, Gap.head]

end Strokes

end MapScript.Layout
