import MapScript.Proofs.Texts

/-! The lines of a text, without the blanks and the carriage returns at their ends. -/

namespace MapScript.Text

def dropReturn (line : Text) : Text := if endsWith line "\r" then line.dropLast else line

theorem feedLines_eq (t : Text) :
    feedLines t = if t.isEmpty then [] else
      (if endsWith t "\n" then (fields (.char '\n') t).dropLast else fields (.char '\n') t).map dropReturn := rfl

theorem dropReturn_cases (line : Text) :
    dropReturn line = line ∨ line = dropReturn line ++ [.char '\r'] := by
  unfold dropReturn
  split
  · next h =>
    obtain ⟨front, rfl⟩ : ofString "\r" <:+ line := by simpa [endsWith] using h
    have hd : (front ++ ofString "\r").dropLast = front := List.dropLast_concat
    exact .inr (by rw [hd]; rfl)
  · exact .inl rfl

theorem dropReturn_of_getLast? {line : Text} (h : .char '\r' ∉ line.getLast?) : dropReturn line = line := by
  rcases dropReturn_cases line with hd | hd
  · exact hd
  · rw [hd] at h
    simp at h

theorem dropReturn_append_return (line : Text) : dropReturn (line ++ [.char '\r']) = line := by
  have he : endsWith (line ++ [.char '\r']) "\r" = true := List.isSuffixOf_iff_suffix.2 ⟨line, rfl⟩
  rw [dropReturn, if_pos he, List.dropLast_concat]

theorem isBlank_dropReturn (line : Text) : (dropReturn line).isBlank = line.isBlank := by
  rcases dropReturn_cases line with h | h
  · rw [h]
  · have hcr : isBlank [.char '\r'] = true := by decide
    conv_rhs => rw [h, isBlank_append, hcr, Bool.and_true]

theorem trim_of_isBlank {t : Text} (h : t.isBlank = true) : trim t = [] := by
  rw [trim, trimLeft, List.dropWhile_eq_nil_iff.2 (isBlank_iff.1 h)]
  rfl

theorem isEmpty_trim (t : Text) : (trim t).isEmpty = t.isBlank := by
  rw [Bool.eq_iff_iff, List.isEmpty_iff]
  refine ⟨fun h => ?_, trim_of_isBlank⟩
  obtain ⟨b, hb, ht⟩ := trimLeft_blank t
  obtain ⟨b', hb', ht'⟩ := trimRight_blank (trimLeft t)
  rw [ht, ht', show trimRight (trimLeft t) = [] from h, List.nil_append, isBlank_append, hb, hb']
  rfl

/-- How many of the lines of a text are blank. What stands after the last line feed is a line too. -/
def blankLines (t : Text) : Nat := (fields (.char '\n') t).countP isBlank

theorem blankLines_append_cons (s t : Text) :
    blankLines (s ++ .char '\n' :: t) = blankLines s + blankLines t := by
  rw [blankLines, fields_append_cons, List.countP_append]
  rfl

theorem blankLines_of_notMem {t : Text} (h : .char '\n' ∉ t) :
    blankLines t = if t.isBlank then 1 else 0 := by
  rw [blankLines, fields_of_notMem h, List.countP_singleton]

theorem countP_feedLines (t : Text) :
    (feedLines t).countP (fun line => (trim line).isEmpty)
      = if t.isEmpty then 0 else if endsWith t "\n" then blankLines t - 1 else blankLines t := by
  have hcount : ∀ lines : List Text,
      (lines.map dropReturn).countP (fun line => (trim line).isEmpty) = lines.countP isBlank := by
    intro lines
    simp [List.countP_map, Function.comp_def, isEmpty_trim, isBlank_dropReturn]
  rw [feedLines_eq]
  split
  · rfl
  · rw [hcount]
    split
    · next h =>
      obtain ⟨s, rfl⟩ : ofString "\n" <:+ t := by simpa [endsWith] using h
      have ht : s ++ ofString "\n" = s ++ .char '\n' :: [] := rfl
      rw [ht, fields_append_cons, blankLines_append_cons]
      simp [fields, blankLines, isBlank]
    · rfl

theorem notMem_of_mem_fields {sep : Glyph} {t field : Text} (h : field ∈ fields sep t) : sep ∉ field := by
  induction t generalizing field with
  | nil =>
    obtain rfl : field = [] := by simpa [fields] using h
    simp
  | cons g t ih =>
    rw [fields] at h
    split at h
    · rcases List.mem_cons.1 h with rfl | h
      · simp
      · exact ih h
    · next hg =>
      split at h
      · obtain rfl : field = [g] := by simpa using h
        simpa using Ne.symm hg
      · next first more hf =>
        rcases List.mem_cons.1 h with rfl | h
        · have hfirst := @ih first (by simp [hf])
          simpa [hfirst] using Ne.symm hg
        · exact ih (by simp [hf, h])

theorem newline_notMem_line {t line : Text} (h : line ∈ feedLines t) : .char '\n' ∉ line := by
  rw [feedLines_eq] at h
  split at h
  · simp at h
  · obtain ⟨field, hf, rfl⟩ := List.mem_map.1 h
    have hmem : field ∈ fields (.char '\n') t := by
      split at hf
      · exact List.dropLast_subset _ hf
      · exact hf
    have hn := notMem_of_mem_fields hmem
    rcases dropReturn_cases field with hd | hd
    · rwa [hd]
    · rw [hd] at hn
      exact fun hm => hn (by simp [hm])

theorem trimRight_cases (t : Text) : trimRight t = [] ∨ ¬ (trimRight t).EndsBlank := by
  rcases List.eq_nil_or_concat' (trimRight t) with h | ⟨s, g, h⟩
  · exact .inl h
  · refine .inr fun he => ?_
    have hrev : t.reverse.dropWhile Glyph.isBlank = g :: s.reverse := by
      have hr := congrArg List.reverse h
      rwa [trimRight, List.reverse_reverse, List.reverse_append] at hr
    have hg := List.head?_dropWhile_not Glyph.isBlank t.reverse
    rw [hrev] at hg
    simp [he g (by simp [h])] at hg

theorem not_startsBlank_trimLeft (t : Text) : trimLeft t = [] ∨ ¬ (trimLeft t).StartsBlank := by
  cases h : trimLeft t with
  | nil => exact .inl rfl
  | cons g s =>
    refine .inr fun hs => ?_
    have hg := List.head?_dropWhile_not Glyph.isBlank t
    rw [show t.dropWhile Glyph.isBlank = g :: s from h] at hg
    simp [hs g (by simp)] at hg

theorem trim_cases (t : Text) : trim t = [] ∨ ¬ (trim t).StartsBlank ∧ ¬ (trim t).EndsBlank := by
  rcases trimRight_cases (trimLeft t) with h | he
  · exact .inl h
  · refine .inr ⟨fun hs => ?_, he⟩
    obtain ⟨b, -, ht⟩ := trimRight_blank (trimLeft t)
    have hne : trim t ≠ [] := fun h => he (by rw [show trimRight (trimLeft t) = [] from h]; exact endsBlank_nil)
    rcases not_startsBlank_trimLeft t with h | h
    · rw [trim, h] at hne
      exact hne rfl
    · rw [ht] at h
      exact h (startsBlank_append hs (.inl hne))

theorem trim_around {b t b' : Text} (hb : b.isBlank = true) (hs : ¬ t.StartsBlank) (he : ¬ t.EndsBlank)
    (hb' : b'.isBlank = true) : trim (b ++ (t ++ b')) = t := by
  have hleft : trimLeft (b ++ (t ++ b')) = t ++ b' := by
    rw [trimLeft, List.dropWhile_append_of_pos (isBlank_iff.1 hb)]
    cases t with
    | nil => exact absurd startsBlank_nil hs
    | cons g t =>
      have hg : g.isBlank = false := by
        rw [Bool.eq_false_iff]
        exact fun h => hs (by simpa [StartsBlank] using h)
      rw [List.cons_append, List.dropWhile_cons_of_neg (by simp [hg])]
  rw [trim, hleft, trimRight_append_blank hb', trimRight_of_not_endsBlank he]

theorem mem_of_mem_trimRight {t : Text} {g : Glyph} (h : g ∈ trimRight t) : g ∈ t := by
  obtain ⟨b, -, ht⟩ := trimRight_blank t
  rw [ht]
  exact List.mem_append_left b h

theorem mem_of_mem_trim {t : Text} {g : Glyph} (h : g ∈ trim t) : g ∈ t := by
  obtain ⟨b, -, ht⟩ := trimLeft_blank t
  rw [ht]
  exact List.mem_append_right b (mem_of_mem_trimRight h)

end MapScript.Text
