import MapScript.Proofs.Scanning

/-! The words of a text without their places: blanks at its ends and breaks between its lines make no
difference to them. -/

namespace MapScript

namespace Text

theorem fields_of_notMem {sep : Glyph} {t : Text} (h : sep ∉ t) : fields sep t = [t] := by
  induction t with
  | nil => rfl
  | cons g t ih =>
    obtain ⟨hg, ht⟩ := not_or.1 (List.mem_cons.not.1 h)
    rw [fields, if_neg (Ne.symm hg), ih ht]

theorem fields_ne_nil (sep : Glyph) (t : Text) : fields sep t ≠ [] := by
  cases t with
  | nil => simp [fields]
  | cons g t =>
    rw [fields]
    split
    · simp
    · split <;> simp

theorem fields_append_cons (sep : Glyph) (s t : Text) :
    fields sep (s ++ sep :: t) = fields sep s ++ fields sep t := by
  induction s with
  | nil => simp [fields]
  | cons g s ih =>
    by_cases hg : g = sep
    · simp [fields, hg, ih]
    · cases hs : fields sep s with
      | nil => exact absurd hs (fields_ne_nil sep s)
      | cons field more => simp [fields, hg, ih, hs]

/-- What can be said of two texts with a separator between them one by one can be said of the fields of a text. -/
theorem flatMap_fields {α : Type} {sep : Glyph} {f : Text → List α}
    (h : ∀ s t : Text, f (s ++ sep :: t) = f s ++ f t) (t : Text) : (fields sep t).flatMap f = f t := by
  induction hn : t.length using Nat.strong_induction_on generalizing t with
  | _ n ih =>
    by_cases hm : sep ∈ t
    · obtain ⟨s, u, rfl, hs⟩ := List.eq_append_cons_of_mem hm
      have hu : u.length < n := by
        simp only [← hn, List.length_append, List.length_cons]
        omega
      rw [fields_append_cons, fields_of_notMem hs, List.flatMap_append, ih _ hu u rfl, h, List.flatMap_singleton]
    · rw [fields_of_notMem hm, List.flatMap_singleton]

theorem trimLeft_blank (t : Text) : ∃ b : Text, b.isBlank = true ∧ t = b ++ trimLeft t := by
  refine ⟨t.takeWhile Glyph.isBlank, ?_, List.takeWhile_append_dropWhile.symm⟩
  exact isBlank_iff.2 fun g hg => List.mem_takeWhile_imp hg

theorem trimRight_blank (t : Text) : ∃ b : Text, b.isBlank = true ∧ t = trimRight t ++ b := by
  refine ⟨(t.reverse.takeWhile Glyph.isBlank).reverse, ?_, ?_⟩
  · exact isBlank_iff.2 fun g hg => List.mem_takeWhile_imp (List.mem_reverse.1 hg)
  · rw [trimRight, ← List.reverse_append, List.takeWhile_append_dropWhile, List.reverse_reverse]

theorem trimRight_append_blank {b : Text} (h : b.isBlank = true) (t : Text) :
    trimRight (t ++ b) = trimRight t := by
  have hr : ∀ g ∈ b.reverse, g.isBlank = true := fun g hg => isBlank_iff.1 h g (List.mem_reverse.1 hg)
  rw [trimRight, List.reverse_append, List.dropWhile_append_of_pos hr, trimRight]

theorem trimRight_of_not_endsBlank {t : Text} (h : ¬ t.EndsBlank) : trimRight t = t := by
  rcases List.eq_nil_or_concat' t with rfl | ⟨s, g, rfl⟩
  · rfl
  · have hg : g.isBlank = false := by
      by_contra hb
      exact h (by simpa [EndsBlank] using hb)
    simp [trimRight, hg]

theorem not_endsBlank_append {t : Text} (h : ¬ t.EndsBlank) (s : Text) : ¬ EndsBlank (s ++ t) := by
  rcases List.eq_nil_or_concat' t with rfl | ⟨t, g, rfl⟩
  · exact absurd endsBlank_nil h
  · simpa [EndsBlank, ← List.append_assoc] using h

theorem not_endsBlank_inked {w : Text} (h : w.Inked) (s : Text) : ¬ EndsBlank (s ++ w) := by
  refine not_endsBlank_append (fun he => ?_) s
  rcases List.eq_nil_or_concat' w with rfl | ⟨w, g, rfl⟩
  · exact absurd rfl h.1
  · have hg := h.2 g (by simp)
    simp [he g (by simp)] at hg

theorem removeBlanks_append (s t : Text) : removeBlanks (s ++ t) = removeBlanks s ++ removeBlanks t :=
  List.filter_append s t

theorem removeBlanks_of_isBlank {t : Text} (h : t.isBlank = true) : removeBlanks t = [] :=
  List.filter_eq_nil_iff.2 fun g hg => by simpa using List.all_eq_true.1 h g hg

theorem removeBlanks_eq_self {t : Text} (h : ∀ g ∈ t, g.isBlank = false) : removeBlanks t = t :=
  List.filter_eq_self.2 fun g hg => by simpa using h g hg

theorem removeBlanks_of_inked {t : Text} (h : t.Inked) : removeBlanks t = t := removeBlanks_eq_self h.2

end Text

namespace Word

open Text

def texts (t : Text) : List Text := (scan 0 t).map Word.text

theorem texts_append {s t : Text} (h : s.EndsBlank ∨ t.StartsBlank) : texts (s ++ t) = texts s ++ texts t := by
  rw [texts, scan_append 0 s t h, List.map_append, List.map_map]
  rfl

theorem texts_of_isBlank {b : Text} (h : b.isBlank = true) : texts b = [] := by
  rw [texts, scan_of_isBlank 0 h]
  rfl

theorem texts_blank_append {b : Text} (h : b.isBlank = true) (t : Text) : texts (b ++ t) = texts t := by
  rw [texts_append (.inl (Text.endsBlank_of_isBlank h)), texts_of_isBlank h]
  rfl

theorem texts_append_blank {b : Text} (h : b.isBlank = true) (t : Text) : texts (t ++ b) = texts t := by
  rw [texts_append (.inr (Text.startsBlank_of_isBlank h)), texts_of_isBlank h, List.append_nil]

theorem texts_inked {w : Text} (h : w.Inked) : texts w = [w] := by
  rw [texts, scan_inked 0 h]
  rfl

theorem isBlank_of_texts {t : Text} (h : texts t = []) : t.isBlank = true :=
  scan_eq_nil_iff.1 (List.map_eq_nil_iff.1 h)

theorem flatten_texts (t : Text) : (texts t).flatten = removeBlanks t := by
  induction hn : t.length using Nat.strong_induction_on generalizing t with
  | _ n ih =>
    obtain hb | ⟨b, w, rest, rfl, hb, hw, hr⟩ := Text.first_word t
    · rw [texts_of_isBlank hb, removeBlanks_of_isBlank hb]
      rfl
    · have hlength : 0 < w.length := List.length_pos_iff.2 hw.1
      have hrest := ih rest.length (by rw [← hn]; simp only [List.length_append]; omega) rest rfl
      rw [texts_blank_append hb, texts_append (.inr hr), texts_inked hw, removeBlanks_append,
        removeBlanks_append, removeBlanks_of_isBlank hb, removeBlanks_of_inked hw, ← hrest]
      simp

def spread (ps : List (Text × Text)) : Text := ps.flatMap fun p => p.1 ++ p.2

theorem startsBlank_spread {ps : List (Text × Text)} (h : ∀ p ∈ ps, p.1.isBlank = true ∧ p.1 ≠ []) :
    (spread ps).StartsBlank := by
  cases ps with
  | nil => exact Text.startsBlank_nil
  | cons p ps =>
    obtain ⟨hb, hn⟩ := h p (by simp)
    have hs : spread (p :: ps) = p.1 ++ (p.2 ++ spread ps) := by simp [spread]
    rw [hs]
    exact Text.startsBlank_append (Text.startsBlank_of_isBlank hb) (.inl hn)

theorem texts_spread {w : Text} (hw : w.Inked) {ps : List (Text × Text)}
    (hb : ∀ p ∈ ps, p.1.isBlank = true ∧ p.1 ≠ []) (hp : ∀ p ∈ ps, p.2.Inked) :
    texts (w ++ spread ps) = w :: ps.map Prod.snd := by
  have hrest : texts (spread ps) = ps.map Prod.snd := by
    induction ps with
    | nil => rfl
    | cons p ps ih =>
      have hs : spread (p :: ps) = p.1 ++ (p.2 ++ spread ps) := by simp [spread]
      have hbs : ∀ q ∈ ps, q.1.isBlank = true ∧ q.1 ≠ [] := fun q hq => hb q (by simp [hq])
      rw [hs, texts_blank_append (hb p (by simp)).1, texts_append (.inr (startsBlank_spread hbs)),
        texts_inked (hp p (by simp)), ih hbs fun q hq => hp q (by simp [hq])]
      rfl
  rw [texts_append (.inr (startsBlank_spread hb)), texts_inked hw, hrest]
  rfl

theorem scan_head {t : Text} {w : Word} {rest : List Word} (hs : ¬ t.StartsBlank) (h : scan 0 t = w :: rest) :
    w.start = 0 := by
  obtain ⟨s, u, rfl, hl, he, -, -, hn, -⟩ := @scan_split 0 t [] rest w h
  have hb : s.isBlank = true := isBlank_of_texts (by rw [texts, hn]; rfl)
  cases s with
  | nil => exact hl.symm
  | cons g s => exact absurd (Text.startsBlank_append (Text.startsBlank_of_isBlank hb) (.inl (by simp))) hs

theorem scan_getLast {t : Text} {w : Word} {before : List Word} (hs : ¬ t.EndsBlank)
    (h : scan 0 t = before ++ [w]) : w.stop = t.length := by
  obtain ⟨s, u, rfl, hl, -, -, -, -, hn⟩ := scan_split h
  have hb : u.isBlank = true := isBlank_of_texts (by rw [texts, List.map_eq_nil_iff.1 hn]; rfl)
  rcases List.eq_nil_or_concat' u with rfl | ⟨u, g, rfl⟩
  · simp [stop, hl]
  · rw [← List.append_assoc] at hs
    exact absurd (Text.endsBlank_append (Text.endsBlank_of_isBlank hb) (.inl (by simp))) hs

theorem texts_trimRight (t : Text) : texts (trimRight t) = texts t := by
  obtain ⟨b, hb, ht⟩ := trimRight_blank t
  conv_rhs => rw [ht, texts_append_blank hb]

theorem texts_trim (t : Text) : texts (trim t) = texts t := by
  obtain ⟨b, hb, ht⟩ := trimLeft_blank t
  rw [trim, texts_trimRight]
  conv_rhs => rw [ht, texts_blank_append hb]

theorem texts_fields (t : Text) : (fields (.char '\n') t).flatMap texts = texts t := by
  refine flatMap_fields (fun s u => ?_) t
  have hb : isBlank [.char '\n'] = true := by decide
  have hst : StartsBlank (.char '\n' :: u) := by
    intro g hg
    obtain rfl : Glyph.char '\n' = g := by simpa using hg
    decide
  have hu : texts (.char '\n' :: u) = texts u := texts_blank_append hb u
  rw [texts_append (.inr hst), hu]

theorem mem_texts_of_line {t line x : Text} (hl : line ∈ feedLines t) (hx : x ∈ texts line) :
    x ∈ texts t := by
  unfold feedLines at hl
  split at hl
  · simp at hl
  · obtain ⟨field, hf, rfl⟩ := List.mem_map.1 hl
    have hmem : field ∈ fields (.char '\n') t := by
      split at hf
      · exact List.dropLast_subset _ hf
      · exact hf
    have hfield : x ∈ texts field := by
      split at hx
      · next hr =>
        obtain ⟨front, rfl⟩ : ofString "\r" <:+ field := by simpa [endsWith] using hr
        have hcr : isBlank (ofString "\r") = true := by decide
        have hd : (front ++ ofString "\r").dropLast = front := List.dropLast_concat
        rw [hd] at hx
        rwa [texts_append_blank hcr]
      · exact hx
    rw [← texts_fields]
    exact List.mem_flatMap.2 ⟨field, hmem, hfield⟩

end Word

theorem Word.not_endsBlank_spread {w : Text} (hw : w.Inked) {ps : List (Text × Text)}
    (hp : ∀ p ∈ ps, p.2.Inked) : ¬ Text.EndsBlank (w ++ spread ps) := by
  rcases List.eq_nil_or_concat' ps with rfl | ⟨ps, p, rfl⟩
  · simpa [spread] using Text.not_endsBlank_inked hw []
  · have hs : w ++ spread (ps ++ [p]) = (w ++ (spread ps ++ p.1)) ++ p.2 := by simp [spread]
    rw [hs]
    exact Text.not_endsBlank_inked (hp p (by simp)) _

end MapScript
