import MapScript.Proofs.Phrases

/-! What a stroke adds to what has been written: the space before its phrase, the phrase and what ends it. -/

namespace MapScript.Layout

namespace Output

variable (o : Options) (indent : Nat) (out : Output)

def lead : Text := if out.atLineStart then o.indentation indent else []

theorem isBlank_lead : (out.lead o indent).isBlank = true := by
  unfold lead
  split
  · exact isBlank_indentation o indent
  · rfl

@[simp] theorem text_raw (t : Text) : (out.raw t).text = out.text ++ t := by simp [text, raw]

@[simp] theorem text_newline : (out.newline o).text = out.text ++ o.lineEnding := by simp [text, newline]

@[simp] theorem text_setLast (last : Option Atom) : (out.setLast last).text = out.text := rfl

@[simp] theorem text_write (t : Text) : (out.write o indent t).text = out.text ++ (out.lead o indent ++ t) := by
  unfold write lead
  split <;> simp [text, raw]

@[simp] theorem lead_raw (t : Text) : (out.raw t).lead o indent = out.lead o indent := rfl

@[simp] theorem lead_setLast (last : Option Atom) : (out.setLast last).lead o indent = out.lead o indent := rfl

@[simp] theorem lead_newline : (out.newline o).lead o indent = o.indentation indent := rfl

@[simp] theorem lead_write (t : Text) : (out.write o indent t).lead o indent = [] := by
  unfold write
  split
  · rfl
  · next h => simp [lead, raw, h]

@[simp] theorem last_raw (t : Text) : (out.raw t).last = out.last := rfl

@[simp] theorem last_newline : (out.newline o).last = out.last := rfl

@[simp] theorem last_setLast (last : Option Atom) : (out.setLast last).last = last := rfl

@[simp] theorem last_write (t : Text) : (out.write o indent t).last = out.last := by
  unfold write
  split <;> rfl

theorem text_statement (words : List Text) :
    (out.statement o indent words).text
      = out.text ++ (out.lead o indent ++ (Text.join " " words ++ o.lineEnding)) := by
  simp [statement]

theorem text_foldl_raw (ts : List Text) : (ts.foldl raw out).text = out.text ++ ts.flatten := by
  induction ts generalizing out with
  | nil => simp
  | cons t ts ih => simp [ih]

end Output

open Output

def writeComment (o : Options) (indent : Nat) (out : Output) (first : Text) (rest : List Text) : Output :=
  let out := out.write o indent (if first.isEmpty then "/*" else "/* " ++ first)
  let out := rest.foldl (fun out line => (out.newline o).write o indent (Job.commentLine line)) out
  let out := if rest.isEmpty then out else out.newline o
  (out.write o indent " */").newline o

theorem text_commentLines (o : Options) (indent : Nat) (lines : List Text) (out : Output) :
    (lines.foldl (fun out line => (out.newline o).write o indent (Job.commentLine line)) out).text
      = out.text ++ lines.flatMap fun line =>
          o.lineEnding ++ (o.indentation indent ++ Job.commentLine line) := by
  induction lines generalizing out with
  | nil => simp
  | cons line lines ih =>
    rw [List.foldl_cons, ih]
    simp

theorem text_writeComment (o : Options) (indent : Nat) (out : Output) (first : Text) (rest : List Text) :
    (writeComment o indent out first rest).text
      = out.text ++ (out.lead o indent
        ++ ((Item.openMark ++ (commentInner o indent first rest ++ Item.closeMark)) ++ o.lineEnding)) := by
  have hopen : Text.ofString "/* " = Item.openMark ++ Text.ofString " " := rfl
  have hclose : Text.ofString " */" = Text.ofString " " ++ Item.closeMark := rfl
  have hfirst : (if first.isEmpty then Text.ofString "/*" else Text.ofString "/* " ++ first)
      = Item.openMark ++ (if first.isEmpty then [] else Text.ofString " " ++ first) := by
    split
    · rfl
    · rw [hopen, List.append_assoc]
  cases rest with
  | nil =>
    simp only [writeComment, hfirst, text_newline, text_write, List.foldl_nil, List.isEmpty_nil, if_true,
      lead_write, hclose, commentInner, List.flatMap_nil, List.append_assoc, List.nil_append]
  | cons line rest =>
    simp only [writeComment, hfirst, text_newline, text_write, text_commentLines, List.isEmpty_cons,
      Bool.false_eq_true, if_false, lead_newline, hclose, commentInner, List.append_assoc]

namespace Stroke

/-- What has been written when the phrase of a stroke comes next. -/
def ready (job : Job) (out : Output) (s : Stroke) : Output :=
  match s.form with
  | .written _ _ =>
    let out := job.before s.place.indent out s.atom
    if s.atom.kind = .sectionMark ∧ out.last.isSome then out.separate job.options else out
  | .line => if s.atom.kind = .closeBlock then job.endStray out else out
  | .short _ _ => out

def front (job : Job) (out : Output) (s : Stroke) : Text :=
  (s.ready job out).text ++ (s.ready job out).lead job.options s.place.indent

def back (o : Options) (s : Stroke) : Text :=
  match s.form with
  | .written beforeBlock apart =>
    (if beforeBlock ∧ s.atom.kind = .command then (" " : Text) else o.lineEnding)
      ++ (if apart then o.lineEnding else [])
  | .line => o.lineEnding
  | .short length empty =>
    Text.ofChars (length - (phrase o s.place s.atom).length) ' ' ++ (if empty then o.lineEnding else (" " : Text))

end Stroke

theorem text_atomBody (job : Job) (place : Place) (beforeBlock : Bool) (out : Output) {a : Atom}
    (hs : a.kind ≠ .sectionMark) (ho : a.kind ≠ .other) :
    (job.atomBody place beforeBlock out a).text
      = out.text ++ (out.lead job.options place.indent ++ (phrase job.options place a
        ++ (if beforeBlock ∧ a.kind = .command then (" " : Text) else job.options.lineEnding))) := by
  cases a with
  | sectionMark => exact absurd rfl hs
  | other => exact absurd rfl ho
  | comment opener content closer stop =>
    have hc : job.comment place.indent out content = writeComment job.options place.indent out
      (Text.trim ((Text.feedLines content).headD [])) (Job.dropBlankEnd (Text.feedLines content).tail) := rfl
    rw [Job.atomBody, hc, text_writeComment]
    simp [phrase, Atom.kind]
  | command name args =>
    have harguments : Job.arguments ⟨job.options, []⟩ place.width name args
        = job.arguments place.width name args := rfl
    rw [Job.atomBody, Job.command, phrase, harguments]
    cases beforeBlock <;> simp [text_foldl_raw, Atom.kind]
  | const head name value =>
    cases value <;> simp [Job.atomBody, text_statement, phrase, Atom.kind]
  | _ => simp [Job.atomBody, text_statement, phrase, Atom.kind, Text.join]

namespace Stroke

theorem text_write (job : Job) (out : Output) {s : Stroke} (h : s.atom.kind ≠ .other) :
    (s.write job out).text = s.front job out ++ (phrase job.options s.place s.atom ++ s.back job.options) := by
  obtain ⟨place, a, form⟩ := s
  cases form with
  | written beforeBlock apart =>
    have hatom : (job.atom place beforeBlock out a).text
        = front job out ⟨place, a, .written beforeBlock apart⟩ ++ (phrase job.options place a
          ++ (if beforeBlock ∧ a.kind = .command then (" " : Text) else job.options.lineEnding)) := by
      by_cases hs : a.kind = .sectionMark
      · cases a <;> simp [Atom.kind] at hs
        simp only [Job.atom, Job.atomBody, Job.sectionMark, text_setLast, text_statement, front, ready, phrase,
          Atom.kind]
        simp [Text.join]
      · simp only [Job.atom, text_setLast, text_atomBody job place beforeBlock _ hs h, front, ready, hs,
          false_and, if_false, List.append_assoc]
    cases apart <;> simp [write, hatom, back]
  | line => simp [write, front, ready, back, text_statement, Text.join]
  | short length empty => cases empty <;> simp [write, front, ready, back, Text.padRight]

end Stroke

/-- Only blanks at the end of what was written are different, and there still are some. -/
structure Spaced (out out' : Output) : Prop where
  trimmed : Text.trimRight out'.text = Text.trimRight out.text
  ends : out.text.EndsBlank → out'.text.EndsBlank

namespace Spaced

theorem refl (out : Output) : Spaced out out := ⟨rfl, id⟩

theorem trans {a b c : Output} (h : Spaced a b) (h' : Spaced b c) : Spaced a c :=
  ⟨h'.trimmed.trans h.trimmed, fun ha => h'.ends (h.ends ha)⟩

theorem of_append {out out' : Output} {t b : Text} (ho : Text.trimRight out.text = Text.trimRight t)
    (hb : b.isBlank = true) (hn : b ≠ []) (h : out'.text = t ++ b) : Spaced out out' := by
  refine ⟨?_, fun _ => ?_⟩
  · rw [h, Text.trimRight_append_blank hb, ho]
  · rw [h]
    exact Text.endsBlank_append (Text.endsBlank_of_isBlank hb) (.inl hn)

variable {o : Options} (ho : o.Usual)

include ho

theorem newline (out : Output) : Spaced out (out.newline o) :=
  .of_append rfl ho.blank.1 ho.blank.2 (text_newline o out)

theorem separate (out : Output) : Spaced out (out.separate o) := by
  unfold Output.separate
  split
  · exact refl out
  · exact newline ho out

theorem joinLine (indent : Nat) (out : Output) :
    Spaced out ((out.removeNewline o).write o indent " ") := by
  have hblank : ((out.removeNewline o).lead o indent ++ (" " : Text)).isBlank = true := by
    rw [Text.isBlank_append, isBlank_lead, isBlank_space.1]
    rfl
  refine of_append ?_ hblank (by simp [isBlank_space.2]) (Output.text_write o indent _ _)
  unfold removeNewline
  split
  · next piece rest hp =>
    split
    · next he =>
      have ht : out.text = Output.text { out with pieces := rest, atLineStart := false } ++ o.lineEnding := by
        simp [Output.text, hp, he]
      rw [ht, Text.trimRight_append_blank ho.blank.1]
    · rfl
  · rfl

end Spaced

theorem endRun_spaced {job : Job} (ho : job.options.Usual) (out : Output) (a : Atom) :
    Spaced out (job.endRun out a) := by
  unfold Job.endRun
  split
  · split
    · exact .newline ho out
    · exact .refl out
  · exact .refl out

theorem makeSpace_spaced {job : Job} (ho : job.options.Usual) (indent : Nat) (out : Output) (a : Atom) :
    Spaced out (job.makeSpace indent out a) := by
  unfold Job.makeSpace
  split
  · split
    · exact .separate ho _
    · split
      · exact .joinLine ho indent _
      · exact .refl _
  · exact .refl _

theorem before_spaced {job : Job} (ho : job.options.Usual) (indent : Nat) (out : Output) (a : Atom) :
    Spaced out (job.before indent out a) :=
  (endRun_spaced ho out a).trans (makeSpace_spaced ho indent _ a)

theorem endStray_spaced {job : Job} (ho : job.options.Usual) (out : Output) : Spaced out (job.endStray out) := by
  unfold Job.endStray
  split
  · exact .newline ho out
  · exact .refl out

theorem ready_spaced {job : Job} (ho : job.options.Usual) (out : Output) (s : Stroke) :
    Spaced out (s.ready job out) := by
  obtain ⟨place, a, form⟩ := s
  cases form with
  | written beforeBlock apart =>
    have hbefore := before_spaced ho place.indent out a
    simp only [Stroke.ready]
    split
    · exact hbefore.trans (.separate ho _)
    · exact hbefore
  | line =>
    simp only [Stroke.ready]
    split
    · exact endStray_spaced ho out
    · exact .refl out
  | short => exact .refl out

theorem back_blank {o : Options} (ho : o.Usual) (s : Stroke) :
    (s.back o).isBlank = true ∧ s.back o ≠ [] := by
  obtain ⟨place, a, form⟩ := s
  have hspaces : ∀ n, (Text.ofChars n ' ').isBlank = true := fun n => isBlank_spaces n
  have hnil : Text.isBlank [] = true := rfl
  have hnewline := ho.blank
  cases form with
  | written beforeBlock apart =>
    simp only [Stroke.back, Text.isBlank_append]
    split <;> cases apart <;> simp [isBlank_space, hnewline, hnil]
  | line => exact hnewline
  | short length empty =>
    cases empty <;> simp [Stroke.back, Text.isBlank_append, hspaces, isBlank_space, hnewline]

end MapScript.Layout
