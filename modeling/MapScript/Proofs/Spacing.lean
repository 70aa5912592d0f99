import MapScript.Proofs.Lines
import MapScript.Proofs.Preservation

/-! The space between two atoms: the blank lines in it decide what is written for it. -/

namespace MapScript

namespace Text

def Diverge (s t : Text) : Prop := ∃ q g h x y, s = q ++ g :: x ∧ t = q ++ h :: y ∧ g ≠ h

namespace Diverge

variable {s t : Text}

theorem of_heads {g h : Glyph} (hne : g ≠ h) (x y : Text) : Diverge (g :: x) (h :: y) :=
  ⟨[], g, h, x, y, rfl, rfl, hne⟩

theorem prepend (h : Diverge s t) (q : Text) : Diverge (q ++ s) (q ++ t) := by
  obtain ⟨r, g, h, x, y, rfl, rfl, hne⟩ := h
  exact ⟨q ++ r, g, h, x, y, by simp, by simp, hne⟩

theorem append (h : Diverge s t) (x y : Text) : Diverge (s ++ x) (t ++ y) := by
  obtain ⟨q, g, h, x', y', rfl, rfl, hne⟩ := h
  exact ⟨q, g, h, x' ++ x, y' ++ y, by simp, by simp, hne⟩

theorem ne (h : Diverge s t) : s ≠ t := by
  obtain ⟨q, g, h, x, y, rfl, rfl, hne⟩ := h
  intro he
  exact hne (List.cons.inj (List.append_cancel_left he)).1

end Diverge

end Text

namespace Layout

open Text

/-- Space with an empty line in it has three blank lines: the ends of the lines around it count. -/
theorem isPadded_iff (job : Job) (a b : Atom) :
    job.isPadded a b = true ↔ 3 ≤ blankLines (job.between a b) := by
  rw [Job.isPadded]
  simp only [decide_eq_true_eq, countP_feedLines]
  split
  · next h =>
    have hne : (job.between a b).isEmpty = false := by
      rw [Bool.eq_false_iff]
      intro he
      rw [List.isEmpty_iff.1 he] at h
      exact absurd h (by decide)
    simp only [hne, Bool.false_eq_true, if_false]
    omega
  · split
    · next he =>
      rw [List.isEmpty_iff.1 he]
      decide
    · rfl

inductive Space where
  | none
  | emptyLine
  | sameLine
deriving DecidableEq

def Space.of (gap : Text) (isComment : Bool) : Space :=
  if 3 ≤ blankLines gap then .emptyLine
  else if isComment && !gap.contains (.char '\n') then .sameLine
  else .none

theorem Space.of_sameLine {gap : Text} {isComment : Bool} :
    Space.of gap isComment = .sameLine ↔ isComment = true ∧ .char '\n' ∉ gap := by
  unfold Space.of
  split
  · next h =>
    -- A single line has no more than one blank line.
    refine ⟨by simp, fun ⟨_, hn⟩ => ?_⟩
    rw [blankLines_of_notMem hn] at h
    split at h <;> omega
  · split <;> simp_all

theorem Space.of_none {gap : Text} {isComment : Bool} (h : blankLines gap ≤ 2)
    (hn : .char '\n' ∈ gap ∨ isComment = false) : Space.of gap isComment = .none := by
  rw [Space.of, if_neg (by omega)]
  rcases hn with hn | hn <;> simp [hn]

def Job.space (job : Job) (a b : Atom) : Space := .of (job.between a b) (b.kind == .comment)

theorem space_eq_emptyLine {job : Job} {a b : Atom} : job.space a b = .emptyLine ↔ job.isPadded a b = true := by
  rw [isPadded_iff, Job.space, Space.of]
  split
  · simp_all
  · split <;> simp_all

theorem space_eq_sameLine {job : Job} {a b : Atom} : job.space a b = .sameLine ↔ job.isTrailing a b = true := by
  rw [Job.space, Space.of_sameLine, Job.isTrailing]
  simp

def Output.make (o : Options) (indent : Nat) (out : Output) : Space → Output
  | .none => out
  | .emptyLine => out.separate o
  | .sameLine => (out.removeNewline o).write o indent " "

theorem before_eq_make {job : Job} {out : Output} {last : Atom} (hl : out.last = some last)
    (hc : last.kind ≠ .closeBlock) (ho : last.kind ≠ .other) (indent : Nat) (a : Atom) :
    job.before indent out a = out.make job.options indent (job.space last a) := by
  have hrun : job.endRun out a = out := by simp [Job.endRun, hl, hc, ho]
  rw [Job.before, hrun, Job.makeSpace, hl]
  by_cases hp : job.isPadded last a = true
  · simp [hp, space_eq_emptyLine.2 hp, Output.make]
  · by_cases ht : job.isTrailing last a = true
    · simp [hp, ht, space_eq_sameLine.2 ht, Output.make]
    · have hn : job.space last a = .none := by
        cases hs : job.space last a with
        | none => rfl
        | emptyLine => exact absurd (space_eq_emptyLine.1 hs) hp
        | sameLine => exact absurd (space_eq_sameLine.1 hs) ht
      simp [hp, ht, hn, Output.make]

namespace Output

theorem ending_suffix (length : Nat) (pieces : List Text) :
    ∃ front, pieces.reverse.flatten = front ++ ending length pieces ∧
      (front = [] ∨ length ≤ (ending length pieces).length) := by
  induction pieces generalizing length with
  | nil => exact ⟨[], rfl, .inl rfl⟩
  | cons piece rest ih =>
    rw [ending]
    split
    · next h => exact ⟨rest.reverse.flatten, by simp, .inr h⟩
    · obtain ⟨front, ht, hf⟩ := ih (length - piece.length)
      refine ⟨front, by simp [ht], hf.imp_right fun h => ?_⟩
      rw [List.length_append]
      omega

theorem endsWith_iff {out : Output} {t : Text} : out.endsWith t = true ↔ t <:+ out.text := by
  obtain ⟨front, ht, hf⟩ := ending_suffix t.length out.pieces
  rw [endsWith, Text.endsWith, List.isSuffixOf_iff_suffix, text, ht]
  refine ⟨fun h => h.trans (List.suffix_append _ _), fun h => ?_⟩
  rcases hf with rfl | hf
  · simpa using h
  · exact List.suffix_of_suffix_length_le h (List.suffix_append _ _) hf

variable {o : Options} {out : Output}

theorem separate_of_suffix (h : o.lineEnding ++ o.lineEnding <:+ out.text) : out.separate o = out := by
  rw [separate, if_pos (endsWith_iff.2 h)]

theorem separate_of_not_suffix (h : ¬ o.lineEnding ++ o.lineEnding <:+ out.text) :
    out.separate o = out.newline o := by
  rw [separate, if_neg (mt endsWith_iff.1 h)]

end Output

theorem Options.Usual.exists_eq {o : Options} (ho : o.Usual) :
    ∃ r : Text, o.lineEnding = r ++ [.char '\n'] ∧ (r = [] ∨ r = [.char '\r']) := by
  rcases ho with h | h
  · exact ⟨[.char '\r'], h, .inr rfl⟩
  · exact ⟨[], h, .inl rfl⟩

theorem Options.Usual.head_ne_space {o : Options} (ho : o.Usual) :
    ∃ g t, o.lineEnding = g :: t ∧ g.isBlank = true ∧ g ≠ .char ' ' := by
  rcases ho with h | h
  · exact ⟨.char '\r', [.char '\n'], h, by decide, by decide⟩
  · exact ⟨.char '\n', [], h, by decide, by decide⟩

theorem newline_notMem_indentation (o : Options) (indent : Nat) : .char '\n' ∉ o.indentation indent := by
  unfold Options.indentation spaces ofChars
  split <;> simp

abbrev Mark : Type := {t : Text // .char '\n' ∉ t ∧ t.isBlank = false}

/-- What has been written since the last atom that had its space made. -/
inductive Gap where
  | line (marks : List Mark)
  | space
  | apart

namespace Gap

variable (o : Options)

def head : Gap → Text
  | line marks => marks.flatMap fun t => o.lineEnding ++ t.1
  | space => " "
  | apart => o.lineEnding

def text : Gap → Text
  | line marks => (line marks).head o ++ o.lineEnding
  | space => " "
  | apart => o.lineEnding ++ o.lineEnding

/-- What stands between that atom and the next one, which is the mark of a section or not. -/
def joint (indent : Nat) (isMark : Bool) : Gap → Space → Text
  | line marks, .none =>
    (line marks).text o ++ ((if isMark then o.lineEnding else []) ++ o.indentation indent)
  | line marks, .emptyLine => (line marks).text o ++ (o.lineEnding ++ o.indentation indent)
  | space, .none => " "
  | space, .emptyLine => (" " : Text) ++ (o.lineEnding ++ o.indentation indent)
  | apart, .none => o.lineEnding ++ (o.lineEnding ++ o.indentation indent)
  | apart, .emptyLine => o.lineEnding ++ (o.lineEnding ++ o.indentation indent)
  | gap, .sameLine => gap.head o ++ (" " : Text)

/-- Whether a space is made in the same way once it has been made. -/
def keeps : Gap → Space → Bool
  | line marks, .sameLine => marks.isEmpty
  | apart, .sameLine => false
  | space, .emptyLine => false
  | _, _ => true

end Gap

section Usual

variable {o : Options} (ho : o.Usual)

include ho

theorem blankLines_newline {x : Text} (hx : .char '\n' ∉ x) (t : Text) :
    blankLines (x ++ (o.lineEnding ++ t)) = (if x.isBlank then 1 else 0) + blankLines t := by
  obtain ⟨r, he, hr⟩ := ho.exists_eq
  have hn : .char '\n' ∉ x ++ r := by
    rcases hr with rfl | rfl <;> simp [hx]
  have hb : isBlank (x ++ r) = x.isBlank := by
    have hr : r.isBlank = true := by rcases hr with rfl | rfl <;> decide
    rw [isBlank_append, hr, Bool.and_true]
  have ht : x ++ (o.lineEnding ++ t) = (x ++ r) ++ .char '\n' :: t := by simp [he]
  rw [ht, blankLines_append_cons, blankLines_of_notMem hn, hb]

theorem blankLines_marks (marks : List Mark) {x : Text} (hx : .char '\n' ∉ x) (t : Text) :
    blankLines (x ++ ((Gap.line marks).head o ++ (o.lineEnding ++ t)))
      = (if x.isBlank then 1 else 0) + blankLines t := by
  induction marks generalizing x with
  | nil => exact blankLines_newline ho hx t
  | cons mark marks ih =>
    have hhead : (Gap.line (mark :: marks)).head o
        = o.lineEnding ++ (mark.1 ++ (Gap.line marks).head o) := by simp [Gap.head]
    rw [hhead, List.append_assoc, blankLines_newline ho hx, List.append_assoc, ih mark.2.1, mark.2.2]
    simp

theorem newline_mem_lineEnding : .char '\n' ∈ o.lineEnding := by
  obtain ⟨r, he, -⟩ := ho.exists_eq
  simp [he]

omit ho in
theorem blankLines_indentation (indent : Nat) : blankLines (o.indentation indent) = 1 := by
  rw [blankLines_of_notMem (newline_notMem_indentation o indent), isBlank_indentation, if_pos rfl]

variable (indent : Nat) (isMark isComment : Bool)

theorem blankLines_lineEnding (t : Text) : blankLines (o.lineEnding ++ t) = 1 + blankLines t :=
  blankLines_newline ho (x := []) (by simp) t

theorem blankLines_head (marks : List Mark) (t : Text) :
    blankLines ((Gap.line marks).head o ++ (o.lineEnding ++ t)) = 1 + blankLines t :=
  blankLines_marks ho marks (x := []) (by simp) t

theorem of_joint_line_emptyLine (marks : List Mark) :
    Space.of ((Gap.line marks).joint o indent isMark .emptyLine) isComment = .emptyLine := by
  rw [Space.of, if_pos]
  rw [Gap.joint, Gap.text, List.append_assoc, blankLines_head ho, blankLines_lineEnding ho,
    blankLines_indentation]

theorem of_joint_line_none (marks : List Mark) :
    Space.of ((Gap.line marks).joint o indent isMark .none) isComment
      = if isMark then .emptyLine else .none := by
  cases isMark with
  | true => exact of_joint_line_emptyLine ho indent true isComment marks
  | false =>
    refine Space.of_none ?_ (.inl ?_)
    · rw [Gap.joint, Gap.text, List.append_assoc, if_neg (by simp), List.nil_append, blankLines_head ho,
        blankLines_indentation]
    · simp [Gap.joint, Gap.text, newline_mem_lineEnding ho]

theorem of_joint_line_sameLine (marks : List Mark) :
    Space.of ((Gap.line marks).joint o indent isMark .sameLine) true
      = if marks.isEmpty then .sameLine else .none := by
  rcases List.eq_nil_or_concat' marks with rfl | ⟨marks, mark, rfl⟩
  · have hspace : .char '\n' ∉ ofString " " := by decide
    exact Space.of_sameLine.2 ⟨rfl, hspace⟩
  · have hjoint : (Gap.line (marks ++ [mark])).joint o indent isMark .sameLine
        = (Gap.line marks).head o ++ (o.lineEnding ++ (mark.1 ++ (" " : Text))) := by
      simp [Gap.joint, Gap.head]
    have hspace : .char '\n' ∉ ofString " " := by decide
    have hline : .char '\n' ∉ mark.1 ++ ofString " " := by simp [mark.2.1, hspace]
    rw [hjoint, Space.of_none ?_ (.inl (by simp [newline_mem_lineEnding ho]))]
    · simp
    · rw [blankLines_head ho, blankLines_of_notMem hline, isBlank_append, mark.2.2]
      simp

theorem of_joint_apart (space : Space) :
    Space.of (Gap.apart.joint o indent isMark space) isComment
      = if space = .sameLine then .none else .emptyLine := by
  have hempty : 3 ≤ blankLines (o.lineEnding ++ (o.lineEnding ++ o.indentation indent)) := by
    rw [blankLines_lineEnding ho, blankLines_lineEnding ho, blankLines_indentation]
  cases space with
  | none => simp [Space.of, Gap.joint, hempty]
  | emptyLine => simp [Space.of, Gap.joint, hempty]
  | sameLine =>
    refine Space.of_none ?_ (.inl ?_)
    · rw [Gap.joint, Gap.head, blankLines_lineEnding ho]
      decide
    · simp [Gap.joint, Gap.head, newline_mem_lineEnding ho]

theorem of_joint_space {space : Space} (hs : space ≠ .sameLine) :
    Space.of (Gap.space.joint o indent isMark space) false = .none := by
  refine Space.of_none ?_ (.inr rfl)
  cases space with
  | none => rw [Gap.joint]; decide
  | emptyLine =>
    rw [Gap.joint, blankLines_newline ho (by decide), blankLines_indentation, isBlank_space.1]
    rfl
  | sameLine => exact absurd rfl hs

variable {isMark isComment} {gap : Gap} {space : Space} (hs : space = .sameLine → isComment = true)
  (hg : gap = .space → isComment = false)

include hs hg

theorem joint_again (h : gap.keeps space = true) :
    gap.joint o indent isMark (Space.of (gap.joint o indent isMark space) isComment)
      = gap.joint o indent isMark space := by
  cases gap with
  | line marks =>
    cases space with
    | none =>
      rw [of_joint_line_none ho]
      cases isMark <;> rfl
    | emptyLine => rw [of_joint_line_emptyLine ho]
    | sameLine =>
      have hm : marks.isEmpty = true := h
      rw [hs rfl, of_joint_line_sameLine ho, if_pos hm]
  | apart =>
    rw [of_joint_apart ho]
    cases space with
    | none => rfl
    | emptyLine => rfl
    | sameLine => simp [Gap.keeps] at h
  | space =>
    have hc : isComment = false := hg rfl
    cases space with
    | none => rw [hc, of_joint_space ho indent isMark (by simp)]
    | emptyLine => simp [Gap.keeps] at h
    | sameLine => exact absurd (hs rfl) (by simp [hc])

theorem joint_diverges (h : gap.keeps space = false) (hm : space = .sameLine → isMark = false) {p : Text}
    (hp : ¬ p.StartsBlank) (t : Text) :
    Diverge (gap.joint o indent isMark space ++ t)
      (gap.joint o indent isMark (Space.of (gap.joint o indent isMark space) isComment) ++ p) := by
  obtain ⟨g, e, he, hblank, hne⟩ := ho.head_ne_space
  have hspace : ∀ x y : Text, Diverge ((" " : Text) ++ x) (o.lineEnding ++ y) := by
    intro x y
    rw [he]
    exact .of_heads hne.symm x (e ++ y)
  cases gap with
  | line marks =>
    cases space with
    | sameLine =>
      have hne : marks.isEmpty = false := h
      rw [hs rfl, of_joint_line_sameLine ho, hne, if_neg (by simp), hm rfl]
      simp only [Gap.joint, Gap.text, List.append_assoc]
      exact (hspace _ _).prepend _
    | _ => simp [Gap.keeps] at h
  | apart =>
    cases space with
    | sameLine =>
      rw [of_joint_apart ho, if_pos rfl]
      simp only [Gap.joint, Gap.head, List.append_assoc]
      exact (hspace _ _).prepend _
    | _ => simp [Gap.keeps] at h
  | space =>
    cases space with
    | emptyLine =>
      rw [hg rfl, of_joint_space ho indent isMark (by simp)]
      simp only [Gap.joint, List.append_assoc]
      refine Diverge.prepend ?_ _
      -- The empty line is gone the second time, and the atom itself comes first.
      cases p with
      | nil => exact absurd startsBlank_nil hp
      | cons f p =>
        rw [he]
        refine .of_heads (fun hf => hp ?_) _ _
        simpa [StartsBlank, ← hf] using hblank
    | _ => simp [Gap.keeps] at h

end Usual

end Layout

end MapScript
