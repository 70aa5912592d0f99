import MapScript.Proofs.Comments
import MapScript.Proofs.Visibility

/-! The versions that a comment asks for are the same after it has been laid out. A header is cut into lines at
every kind of line break, and the layout of a comment goes by line feeds only, so lines are compared by what they
ask for and not one by one. -/

namespace MapScript

namespace Text

theorem trimRight_append {t : Text} (h : t.isBlank = false) (s : Text) : trimRight (s ++ t) = s ++ trimRight t := by
  obtain ⟨b, hb, ht⟩ := trimRight_blank t
  rcases trimRight_cases t with hr | hr
  · rw [hr, List.nil_append] at ht
    simp [ht, hb] at h
  · conv_lhs => rw [ht, ← List.append_assoc, trimRight_append_blank hb,
      trimRight_of_not_endsBlank (not_endsBlank_append hr s)]

theorem trim_blank_append {b : Text} (hb : b.isBlank = true) (t : Text) : trim (b ++ t) = trim t := by
  rw [trim, trimLeft, List.dropWhile_append_of_pos (isBlank_iff.1 hb)]
  rfl

theorem trim_append_blank {b : Text} (hb : b.isBlank = true) (t : Text) : trim (t ++ b) = trim t := by
  by_cases ht : t.isBlank = true
  · rw [trim_of_isBlank ht, trim_of_isBlank (by rw [isBlank_append, ht, hb]; rfl)]
  · have hne : (t.dropWhile Glyph.isBlank).isEmpty = false := by
      rw [Bool.eq_false_iff, ne_eq, List.isEmpty_iff, List.dropWhile_eq_nil_iff, ← isBlank_iff]
      exact ht
    rw [trim, trimLeft, List.dropWhile_append, hne, if_neg Bool.false_ne_true, trimRight_append_blank hb]
    rfl

theorem head?_trim (t : Text) : (trim t).head? = t.find? fun g => !g.isBlank := by
  rw [List.find?_not_eq_head?_dropWhile]
  change (trim t).head? = (trimLeft t).head?
  obtain ⟨b, hb, ht⟩ := trimRight_blank (trimLeft t)
  cases htrim : trim t with
  | nil =>
    rw [show trimRight (trimLeft t) = [] from htrim, List.nil_append] at ht
    rcases not_startsBlank_trimLeft t with h | h
    · rw [h]
    · exact absurd (ht ▸ startsBlank_of_isBlank hb) h
  | cons g s =>
    rw [ht, show trimRight (trimLeft t) = g :: s from htrim]
    rfl

theorem startsWith_trim_iff {t : Text} {c : Char} :
    (trim t).startsWith [.char c] = true ↔ (t.find? fun g => !g.isBlank) = some (.char c) := by
  rw [← head?_trim]
  cases trim t with
  | nil => simp [startsWith]
  | cons g s => simpa [startsWith] using eq_comm

theorem exists_trimRight_eq {t : Text} (h : t.isBlank = false) :
    ∃ b : Text, b.isBlank = true ∧ trimRight t = b ++ trim t := by
  obtain ⟨b, hb, ht⟩ := trimLeft_blank t
  have hleft : (trimLeft t).isBlank = false := by
    rw [ht, isBlank_append, hb] at h
    exact h
  refine ⟨b, hb, ?_⟩
  conv_lhs => rw [ht, trimRight_append hleft]
  rfl

theorem trim_star {t : Text} (h : t.isBlank = false) : trim (" * " ++ t) = "* " ++ trimRight t := by
  have hstart : trimLeft (" * " ++ t) = "* " ++ t := rfl
  rw [trim, hstart, trimRight_append h]

theorem cut?_blank_append {b : Text} (hb : b.isBlank = true) {g : Glyph} (hg : g.isBlank = false) (mark t : Text) :
    cut? (g :: mark) (b ++ t) = (cut? (g :: mark) t).map fun p => (b ++ p.1, p.2) := by
  induction b with
  | nil => simp
  | cons c b ih =>
    have hc : c.isBlank = true ∧ isBlank b = true := by simpa [isBlank] using hb
    have hne : g ≠ c := by
      rintro rfl
      simp [hg] at hc
    rw [List.cons_append, cut?, if_neg (by simp [hne]), ih hc.2, Option.map_map]
    rfl

end Text

namespace Scope

open Text

/-- The versions that the lines of a text ask for. -/
def asked (t : Text) : List Level := (anyLines t).filterMap headerLevel?

theorem asked_nil : asked [] = [] := rfl

theorem headerLevel?_congr {s t : Text} (h : trim s = trim t) : headerLevel? s = headerLevel? t := by
  rw [headerLevel?, headerLevel?, headerField?, headerField?, h]

theorem headerLevel?_nil : headerLevel? [] = none := by decide

theorem headerLevel?_of_isBlank {t : Text} (h : t.isBlank = true) : headerLevel? t = none := by
  rw [← headerLevel?_nil]
  exact headerLevel?_congr (trim_of_isBlank h)

theorem headerLevel?_gutter {t : Text} (h : ¬ (trim t).startsWith "*" = true) :
    headerLevel? (" * " ++ t) = headerLevel? t := by
  cases hb : t.isBlank with
  | true =>
    have hstar : headerLevel? " * " = none := by decide
    rw [headerLevel?_of_isBlank hb, ← hstar]
    exact headerLevel?_congr (trim_append_blank hb _)
  | false =>
    obtain ⟨b, hblank, hright⟩ := exists_trimRight_eq hb
    have hdrop : headerField? (" * " ++ t) = cut? ": " (trimRight t) := by
      rw [headerField?, trim_star hb]
      rfl
    have hplain : headerField? t = cut? ": " (trim t) := by
      rw [headerField?, if_neg]
      intro hs
      obtain ⟨more, hm⟩ := List.isPrefixOf_iff_prefix.1 hs
      exact h (List.isPrefixOf_iff_prefix.2 ⟨" " ++ more, hm⟩)
    -- The blanks between the star and the line are left in the key, which is trimmed once more.
    have hcut : cut? ": " (trimRight t) = (cut? ": " (trim t)).map fun p => (b ++ p.1, p.2) := by
      rw [hright]
      exact cut?_blank_append hblank (by decide) " " (trim t)
    rw [headerLevel?, headerLevel?, hdrop, hplain, hcut]
    cases cut? ": " (trim t) with
    | none => rfl
    | some p => simp [trim_blank_append hblank]

theorem filterMap_breakLines_nil (b : Bool) (line : Text) :
    (breakLines b line []).filterMap headerLevel? = (headerLevel? line.reverse).toList := by
  rw [breakLines]
  split
  · next h => rw [List.isEmpty_iff.1 h, List.reverse_nil, headerLevel?_nil]; rfl
  · cases h : headerLevel? line.reverse <;> simp [h]

theorem filterMap_breakLines_start (b : Bool) (t : Text) :
    (breakLines b [] t).filterMap headerLevel? = asked t := by
  cases t with
  | nil => rfl
  | cons g t =>
    by_cases hg : g = .char '\n' ∧ b = true
    · obtain ⟨rfl, rfl⟩ := hg
      have hbreak : Glyph.isLineBreak (.char '\n') = true := by decide
      have hreturn : (Glyph.char '\n' == Glyph.char '\r') = false := by decide
      simp [asked, anyLines, breakLines, hbreak, hreturn, headerLevel?_nil]
    · simp [asked, anyLines, breakLines, hg]

theorem filterMap_breakLines_break {g : Glyph} (hg : g.isLineBreak = true) (t s : Text) {b : Bool} {line : Text}
    (hb : b = true → line = []) :
    (breakLines b line (s ++ g :: t)).filterMap headerLevel?
      = (breakLines b line s).filterMap headerLevel? ++ asked t := by
  induction s generalizing b line with
  | nil =>
    rw [filterMap_breakLines_nil, List.nil_append, breakLines]
    split
    · next h =>
      obtain ⟨-, rfl⟩ : g = .char '\n' ∧ b = true := by simpa using h
      rw [hb rfl, filterMap_breakLines_start, List.reverse_nil, headerLevel?_nil]
      rfl
    · rw [List.filterMap_cons, filterMap_breakLines_start]
      cases headerLevel? line.reverse <;> rfl
  | cons c s ih =>
    rw [List.cons_append, breakLines, breakLines]
    split
    · exact ih (by simp)
    · split
      · rw [List.filterMap_cons, List.filterMap_cons, ih (fun _ => rfl)]
        split <;> rfl
      · exact ih (by simp)

theorem asked_break {g : Glyph} (hg : g.isLineBreak = true) (s t : Text) : asked (s ++ g :: t) = asked s ++ asked t :=
  filterMap_breakLines_break hg t s (by simp)

/-- The line that is being read goes on to the next line break. -/
theorem filterMap_breakLines (line t : Text) :
    (breakLines false line t).filterMap headerLevel?
      = (headerLevel? (line.reverse ++ t.takeWhile fun g => !g.isLineBreak)).toList
        ++ asked (t.dropWhile fun g => !g.isLineBreak) := by
  induction t generalizing line with
  | nil =>
    rw [filterMap_breakLines_nil]
    simp [asked_nil]
  | cons g t ih =>
    by_cases hg : g.isLineBreak = true
    · have hline := @filterMap_breakLines_break g hg t [] false line (by simp)
      have hstart := asked_break hg [] t
      rw [List.nil_append] at hline hstart
      rw [hline, filterMap_breakLines_nil, List.takeWhile_cons_of_neg (by simp [hg]),
        List.dropWhile_cons_of_neg (by simp [hg]), List.append_nil, hstart, asked_nil, List.nil_append]
    · rw [breakLines, if_neg (by simp), if_neg hg, ih]
      simp [hg]

theorem asked_append {s : Text} (hs : ∀ g ∈ s, g.isLineBreak = false) (t : Text) :
    asked (s ++ t) = (headerLevel? (s ++ t.takeWhile fun g => !g.isLineBreak)).toList
      ++ asked (t.dropWhile fun g => !g.isLineBreak) := by
  have hread : ∀ line : Text, breakLines false line (s ++ t) = breakLines false (s.reverse ++ line) t := by
    induction s with
    | nil => simp
    | cons g s ih =>
      intro line
      rw [List.cons_append, breakLines, if_neg (by simp), if_neg (by simp [hs g]), ih fun c hc => hs c (by simp [hc])]
      simp
  have hall := filterMap_breakLines s.reverse t
  rw [List.reverse_reverse] at hall
  rw [asked, anyLines, hread, List.append_nil, hall]

theorem filterMap_breakLines_blank {b : Text} (hb : b.isBlank = true) (c : Bool) (line : Text) :
    (breakLines c line b).filterMap headerLevel? = (headerLevel? line.reverse).toList := by
  induction b generalizing c line with
  | nil => exact filterMap_breakLines_nil c line
  | cons g b ih =>
    have hg : isBlank [g] = true ∧ isBlank b = true := by simpa [isBlank] using hb
    rw [breakLines]
    split
    · exact ih hg.2 false line
    · split
      · rw [List.filterMap_cons, ih hg.2, List.reverse_nil, headerLevel?_nil]
        cases headerLevel? line.reverse <;> rfl
      · rw [ih hg.2, List.reverse_cons, headerLevel?_congr (trim_append_blank hg.1 line.reverse)]

theorem asked_append_blank {b : Text} (hb : b.isBlank = true) (t : Text) : asked (t ++ b) = asked t := by
  have hread : ∀ (c : Bool) (line : Text), (breakLines c line (t ++ b)).filterMap headerLevel?
      = (breakLines c line t).filterMap headerLevel? := by
    induction t with
    | nil => exact fun c line => (filterMap_breakLines_blank hb c line).trans (filterMap_breakLines_nil c line).symm
    | cons g t ih =>
      intro c line
      rw [List.cons_append, breakLines, breakLines]
      split
      · exact ih false line
      · split
        · rw [List.filterMap_cons, List.filterMap_cons, ih]
        · exact ih false (g :: line)
  exact hread false []

theorem asked_blank_append {b : Text} (hb : b.isBlank = true) (t : Text) : asked (b ++ t) = asked t := by
  induction b with
  | nil => rfl
  | cons g b ih =>
    have hg : isBlank [g] = true ∧ isBlank b = true := by simpa [isBlank] using hb
    rw [List.cons_append, ← ih hg.2]
    generalize b ++ t = u
    by_cases hbreak : g.isLineBreak = true
    · exact asked_break hbreak [] u
    · have hone := @asked_append [g] (by simpa using hbreak) u
      have hnone := @asked_append [] (by simp) u
      rw [List.singleton_append, headerLevel?_congr (trim_blank_append hg.1 _)] at hone
      exact hone.trans hnone.symm

theorem asked_trimRight (t : Text) : asked (trimRight t) = asked t := by
  obtain ⟨b, hb, ht⟩ := trimRight_blank t
  conv_rhs => rw [ht, asked_append_blank hb]

theorem asked_trim (t : Text) : asked (trim t) = asked t := by
  obtain ⟨b, hb, ht⟩ := trimLeft_blank t
  rw [trim, asked_trimRight]
  conv_rhs => rw [ht, asked_blank_append hb]

/-- A star before a text that has none makes no difference to its first line, nor to the others. -/
theorem asked_gutter {t : Text} (h : ¬ (trim t).startsWith "*" = true) : asked (" * " ++ t) = asked t := by
  have hstar := @asked_append " * " (by decide) t
  have hnone := @asked_append [] (by simp) t
  rw [List.nil_append, List.nil_append] at hnone
  rw [hstar, hnone, headerLevel?_gutter]
  intro hs
  refine h (startsWith_trim_iff.2 ?_)
  rw [← @List.takeWhile_append_dropWhile _ (fun g : Glyph => !g.isLineBreak) t, List.find?_append,
    startsWith_trim_iff.1 hs]
  rfl

/-- What a text asks for is what its lines between line feeds ask for. -/
theorem flatMap_feedLines (t : Text) : (feedLines t).flatMap asked = asked t := by
  have hfields := @flatMap_fields _ (.char '\n') asked (asked_break (by decide))
  have hreturn : ∀ line : Text, asked (dropReturn line) = asked line := by
    intro line
    rcases dropReturn_cases line with h | h
    · rw [h]
    · conv_rhs => rw [h, asked_append_blank (by decide)]
  have hlines : ∀ lines : List Text, (lines.map dropReturn).flatMap asked = lines.flatMap asked := by
    intro lines
    rw [List.flatMap_map]
    exact List.flatMap_congr fun line _ => hreturn line
  rw [feedLines_eq]
  split
  · next h => rw [List.isEmpty_iff.1 h]; rfl
  · rw [hlines]
    split
    · next h =>
      obtain ⟨s, rfl⟩ : ofString "\n" <:+ t := by simpa [endsWith] using h
      have hdrop : (fields (.char '\n') (s ++ ofString "\n")).dropLast = fields (.char '\n') s := by
        have hf := fields_append_cons (.char '\n') s []
        rw [fields] at hf
        exact (congrArg List.dropLast hf).trans List.dropLast_concat
      rw [hdrop, hfields, asked_append_blank (by decide)]
    · exact hfields t

end Scope

namespace Layout

open Text Job Scope

theorem asked_commentLine (line : Text) : asked (commentLine line) = asked line := by
  by_cases hs : (trim line).startsWith "*" = true
  · rw [commentLine_star hs, asked_blank_append (by decide), asked_trim]
  · obtain ⟨b, hb, ht⟩ := trimRight_blank line
    rw [commentLine_plain hs, ← asked_gutter hs, ← asked_append_blank hb, List.append_assoc, ← ht]

theorem flatMap_dropBlankEnd (lines : List Text) : (dropBlankEnd lines).flatMap asked = lines.flatMap asked := by
  have hsplit : lines = dropBlankEnd lines ++ (lines.reverse.takeWhile fun line => (trim line).isEmpty).reverse := by
    rw [dropBlankEnd, ← List.reverse_append, List.takeWhile_append_dropWhile, List.reverse_reverse]
  have hblank : (lines.reverse.takeWhile fun line => (trim line).isEmpty).reverse.flatMap asked = [] := by
    refine List.flatMap_eq_nil_iff.2 fun line hl => ?_
    have hb := List.mem_takeWhile_imp (List.mem_reverse.1 hl)
    rw [isEmpty_trim] at hb
    exact asked_append_blank hb []
  conv_rhs => rw [hsplit, List.flatMap_append, hblank, List.append_nil]

section Content

variable {o : Options} (ho : o.Usual) (indent : Nat)

include ho

theorem asked_newline_append (s t : Text) : asked (s ++ (o.lineEnding ++ t)) = asked s ++ asked t := by
  obtain ⟨r, he, hr⟩ := ho.exists_eq
  have hblank : r.isBlank = true := by rcases hr with rfl | rfl <;> decide
  have hsplit : s ++ (o.lineEnding ++ t) = (s ++ r) ++ .char '\n' :: t := by simp [he]
  rw [hsplit, asked_break (by decide), asked_append_blank hblank]

theorem asked_lines (lines : List Text) (s : Text) :
    asked (s ++ lines.flatMap fun line => o.lineEnding ++ (o.indentation indent ++ commentLine line))
      = asked s ++ lines.flatMap asked := by
  induction lines generalizing s with
  | nil => simp
  | cons line lines ih =>
    rw [List.flatMap_cons, List.append_assoc, asked_newline_append ho, ih, List.flatMap_cons,
      asked_blank_append (isBlank_indentation o indent), asked_commentLine]

theorem asked_commentInner (content : Text) :
    asked (commentInner o indent (trim ((feedLines content).headD [])) (dropBlankEnd (feedLines content).tail))
      = asked content := by
  have hfirst : ∀ first : Text, asked (if first.isEmpty then [] else (" " : Text) ++ first) = asked first := by
    intro first
    split
    · next h => rw [List.isEmpty_iff.1 h]
    · exact asked_blank_append isBlank_space.1 first
  rw [commentInner, asked_append_blank (isBlank_commentEnd ho indent _), asked_lines ho, hfirst, asked_trim,
    flatMap_dropBlankEnd, ← flatMap_feedLines content]
  cases feedLines content with
  | nil => rfl
  | cons line lines => rfl

end Content

end Layout

end MapScript
