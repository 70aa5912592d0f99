import MapScript.Atom.Reader
import MapScript.Numeral
import MapScript.Proofs.Codec
import MapScript.Proofs.Scanning
import MapScript.Text.Lowercase
import MapScript.Text.Uppercase

/-! What becomes of a word in capitals. The uppercase form of a glyph is the glyph itself or is made of letters,
so marks, digits, signs and small letters appear in it only where they stood before, and an argument stays an
argument. -/

namespace MapScript

theorem Run.exists_of_cover {runs : List Run} {n : Nat} (h : cover runs n = true) :
    ∃ r ∈ runs, r.first ≤ n ∧ n ≤ r.last := by
  induction runs with
  | nil => simp [cover] at h
  | cons r runs ih =>
    rw [cover] at h
    split at h
    · simp at h
    · cases Bool.or_eq_true_iff.1 h with
      | inl hr =>
        simp only [holds, Bool.and_eq_true, decide_eq_true_eq] at hr
        exact ⟨r, List.mem_cons_self, hr.1⟩
      | inr hr =>
        obtain ⟨s, hs, hn⟩ := ih hr
        exact ⟨s, List.mem_cons_of_mem r hs, hn⟩

namespace Glyph

def isPlain : Glyph → Bool
  | .char c => c.toNat < 0x80 && !(0x41 ≤ c.toNat && c.toNat ≤ 0x5a)
  | .stray _ => false

/-- From `low` to `high` there are only characters that are neither plain nor blank. -/
def areLetters (low high : Nat) : Bool :=
  (0x80 ≤ low || (0x41 ≤ low && high ≤ 0x5a)) && (high < 0xd800 || (0xe000 ≤ low && high < 0x110000)) &&
    blankRuns.all fun r => high < r.first || r.last < low

theorem of_areLetters {low high n : Nat} (h : areLetters low high = true) (hl : low ≤ n) (hh : n ≤ high) :
    (Glyph.char (Char.ofNat n)).isPlain = false ∧ (Glyph.char (Char.ofNat n)).isBlank = false := by
  simp only [areLetters, Bool.and_eq_true, Bool.or_eq_true, decide_eq_true_eq, List.all_eq_true] at h
  obtain ⟨⟨hletter, hvalid⟩, hblank⟩ := h
  have hn : (Char.ofNat n).toNat = n := by
    refine Utf8.val_ofNat ?_
    rcases hvalid with hvalid | hvalid
    · exact .inl (by omega)
    · exact .inr ⟨by omega, by omega⟩
  constructor
  · simp only [isPlain, hn, Bool.and_eq_false_iff, Bool.not_eq_false', Bool.and_eq_true, decide_eq_true_eq,
      decide_eq_false_iff_not]
    omega
  · rw [isBlank, hn]
    by_contra hc
    rw [Bool.not_eq_false] at hc
    obtain ⟨r, hr, hle⟩ := Run.exists_of_cover hc
    have := hblank r hr
    omega

theorem tables_areLetters :
    (uppercaseExpansions.all fun e => !e.2.isEmpty && e.2.all fun n => areLetters n n) = true ∧
      (uppercaseRuns.all fun e => areLetters e.2 (e.2 + (e.1.last - e.1.first))) = true := by
  decide +kernel

theorem upper_cases (g : Glyph) :
    g.upper = [g] ∨ g.upper ≠ [] ∧ ∀ x ∈ g.upper, x.isPlain = false ∧ x.isBlank = false := by
  cases g with
  | stray b => exact .inl rfl
  | char c =>
    rw [upper, upperCodes]
    cases he : uppercaseExpansions.lookup c.toNat with
    | some codes =>
      obtain ⟨before, after, hs, -⟩ := List.lookup_eq_some_iff.1 he
      have htable := List.all_eq_true.1 tables_areLetters.1 (c.toNat, codes) (by simp [hs])
      simp only [Bool.and_eq_true, Bool.not_eq_true', List.isEmpty_eq_false_iff, List.all_eq_true] at htable
      refine .inr ⟨by simpa using htable.1, fun x hx => ?_⟩
      obtain ⟨n, hn, rfl⟩ := List.mem_map.1 hx
      exact of_areLetters (htable.2 n hn) (Nat.le_refl n) (Nat.le_refl n)
    | none =>
      cases hr : uppercaseRuns.find? (·.1.holds c.toNat) with
      | none => exact .inl (by simp)
      | some entry =>
        obtain ⟨run, target⟩ := entry
        have hin := List.find?_some hr
        simp only [Run.holds, Bool.and_eq_true, decide_eq_true_eq] at hin
        have htable := List.all_eq_true.1 tables_areLetters.2 (run, target) (List.mem_of_find?_eq_some hr)
        refine .inr ⟨by simp, fun x hx => ?_⟩
        obtain rfl : x = .char (Char.ofNat (target + (c.toNat - run.first))) := by simpa using hx
        exact of_areLetters htable (by omega) (by simp only; omega)

end Glyph

namespace Text

variable {t : Text}

theorem inked_upper (h : t.Inked) : (upper t).Inked := by
  obtain ⟨g, rest, rfl⟩ := List.exists_cons_of_ne_nil h.1
  constructor
  · have hg : g.upper ≠ [] := by
      rcases g.upper_cases with hg | hg
      · simp [hg]
      · exact hg.1
    simp [upper, hg]
  · intro x hx
    obtain ⟨y, hy, hx⟩ := List.mem_flatMap.1 hx
    rcases y.upper_cases with hkept | hletters
    · rw [hkept, List.mem_singleton] at hx
      exact hx ▸ h.2 y hy
    · exact (hletters.2 x hx).2

theorem mem_of_mem_upper {x : Glyph} (hx : x ∈ upper t) (hp : x.isPlain = true) : x ∈ t ∧ x.upper = [x] := by
  obtain ⟨y, hy, hx⟩ := List.mem_flatMap.1 hx
  rcases y.upper_cases with hkept | hletters
  · rw [hkept, List.mem_singleton] at hx
    exact hx ▸ ⟨hy, hkept⟩
  · exact absurd hp (by simp [(hletters.2 x hx).1])

theorem upper_eq_self (h : ∀ x ∈ upper t, x.isPlain = true) : upper t = t := by
  induction t with
  | nil => rfl
  | cons g rest ih =>
    have hsplit : upper (g :: rest) = g.upper ++ upper rest := List.flatMap_cons
    rw [hsplit] at h ⊢
    rw [ih fun x hx => h x (List.mem_append_right _ hx)]
    rcases g.upper_cases with hkept | hletters
    · rw [hkept, List.singleton_append]
    · obtain ⟨x, more, hx⟩ := List.exists_cons_of_ne_nil hletters.1
      have hmem : x ∈ g.upper := by simp [hx]
      exact absurd (h x (List.mem_append_left _ hmem)) (by simp [(hletters.2 x hmem).1])

/-- A plain start of a text whose glyphs were each kept or replaced by letters was its start before. -/
theorem prefix_of_flatMap {f : Glyph → Text} (hf : ∀ g, f g = [g] ∨ f g ≠ [] ∧ ∀ x ∈ f g, x.isPlain = false)
    {start : Text} (hp : ∀ x ∈ start, x.isPlain = true) (h : start <+: t.flatMap f) : start <+: t := by
  induction t generalizing start with
  | nil => exact h
  | cons g rest ih =>
    cases start with
    | nil => exact List.nil_prefix
    | cons x more =>
      rw [List.flatMap_cons] at h
      rcases hf g with hkept | hletters
      · rw [hkept, List.singleton_append, List.cons_prefix_cons] at h
        rw [List.cons_prefix_cons]
        exact ⟨h.1, ih (fun y hy => hp y (List.mem_cons_of_mem x hy)) h.2⟩
      · obtain ⟨y, ys, hy⟩ := List.exists_cons_of_ne_nil hletters.1
        rw [hy, List.cons_append, List.cons_prefix_cons] at h
        exact absurd (hp x List.mem_cons_self) (by simp [h.1, hletters.2 y (by simp [hy])])

theorem startsWith_of_upper {start : Text} (hp : ∀ x ∈ start, x.isPlain = true)
    (h : startsWith (upper t) start = true) : startsWith t start = true := by
  rw [startsWith, List.isPrefixOf_iff_prefix] at h ⊢
  exact prefix_of_flatMap (fun g => g.upper_cases.imp_right fun h => ⟨h.1, fun x hx => (h.2 x hx).1⟩) hp h

theorem endsWith_of_upper {finish : Text} (hp : ∀ x ∈ finish, x.isPlain = true)
    (h : endsWith (upper t) finish = true) : endsWith t finish = true := by
  rw [endsWith, List.isSuffixOf_iff_suffix, ← List.reverse_prefix] at h ⊢
  rw [upper, List.reverse_flatMap] at h
  refine prefix_of_flatMap (fun g => ?_) (by simpa using hp) h
  rcases g.upper_cases with hkept | hletters
  · exact .inl (by simp [hkept])
  · exact .inr ⟨by simpa using hletters.1, fun x hx => (hletters.2 x (by simpa using hx)).1⟩

end Text

namespace Catalog

/-- How names are spelled. One that takes a word for its argument is a keyword. -/
theorem entries_spelling :
    entries.all (fun e => (e.name.all Glyph.isPlain || isSectionShaped e.name) && !e.name.startsWith "`" &&
      (!e.args.contains .word || (Keyword.ofText? e.name).isSome)) = true := by
  decide +kernel

theorem spelling_of_find? {t : Text} {entry : Entry} (h : find? t = some entry) :
    (t.all Glyph.isPlain = true ∨ isSectionShaped t = true) ∧ t.startsWith "`" = false ∧
      (.word ∈ entry.args → (Keyword.ofText? t).isSome = true) := by
  have hentry := List.all_eq_true.1 entries_spelling entry (List.mem_of_find?_eq_some h)
  have hname : entry.name = t := by
    have := List.find?_some h
    simpa using this
  rw [hname] at hentry
  simpa [or_iff_not_imp_left, and_assoc] using hentry

end Catalog

namespace Text

theorem isSectionShaped_of_upper {t : Text} (h : Catalog.isSectionShaped (upper t) = true) :
    Catalog.isSectionShaped t = true := by
  rw [Catalog.isSectionShaped, Bool.and_eq_true] at h ⊢
  exact ⟨startsWith_of_upper (by decide) h.1, endsWith_of_upper (by decide) h.2⟩

theorem isPlain_of_isDigit {g : Glyph} (h : Numeral.isDigit g = true) : g.isPlain = true := by
  cases g with
  | stray b => simp [Numeral.isDigit] at h
  | char c =>
    have hd : 48 ≤ c.toNat ∧ c.toNat ≤ 57 := by
      simpa [Numeral.isDigit, Char.isDigit, UInt32.le_iff_toNat_le] using h
    simp only [Glyph.isPlain, Bool.and_eq_true, Bool.not_eq_true', Bool.and_eq_false_iff, decide_eq_true_eq,
      decide_eq_false_iff_not]
    omega

theorem isPlain_of_isNumeral {t : Text} (h : Numeral.isNumeral t = true) : ∀ x ∈ t, x.isPlain = true := by
  rw [Numeral.isNumeral, Bool.and_eq_true, List.all_eq_true] at h
  intro x hx
  unfold Numeral.splitSign at h
  split at h
  · rcases List.mem_cons.1 hx with rfl | hx
    · decide
    · exact isPlain_of_isDigit (h.2 x hx)
  · rcases List.mem_cons.1 hx with rfl | hx
    · decide
    · exact isPlain_of_isDigit (h.2 x hx)
  · exact isPlain_of_isDigit (h.2 x hx)

def capitalised (t : Text) : Text := if t.any Glyph.isLowercase then upper t else t

theorem isNumeral_of_capitalised {t : Text} (h : Numeral.isNumeral (capitalised t) = true) :
    Numeral.isNumeral t = true := by
  unfold capitalised at h
  split at h
  · rwa [upper_eq_self (isPlain_of_isNumeral h)] at h
  · exact h

theorem isUnfinished_upper (t : Text) : Rnd.isUnfinished (upper t) = false := by
  have hr : Glyph.char 'r' ∉ upper t := by
    intro h
    exact absurd (mem_of_mem_upper h (by decide)).2 (by decide +kernel)
  rw [Rnd.isUnfinished, Bool.or_eq_false_iff, Bool.and_eq_false_iff]
  constructor
  · refine .inl (Bool.eq_false_iff.2 fun h => hr ?_)
    rw [startsWith, List.isPrefixOf_iff_prefix] at h
    exact h.subset (by decide)
  · refine beq_eq_false_iff_ne.2 fun h => hr ?_
    rw [h]
    decide

theorem isArgument_upper {t : Text} (h : Item.isArgument t = true) (hs : Catalog.isSectionShaped t = false) :
    Item.isArgument (upper t) = true := by
  simp only [Item.isArgument, Bool.and_eq_true, Bool.not_eq_true'] at h ⊢
  obtain ⟨⟨⟨hword, hname⟩, hopen⟩, hclose⟩ := h
  refine ⟨⟨⟨?_, ?_⟩, ?_⟩, ?_⟩ <;> refine Bool.eq_false_iff.2 fun hu => ?_
  · have hplain : ∀ u ∈ Item.nonArguments, ∀ x ∈ u, x.isPlain = true := by decide
    rw [upper_eq_self (hplain _ (List.contains_iff_mem.1 hu))] at hu
    exact Bool.eq_false_iff.1 hword hu
  · obtain ⟨entry, hentry⟩ := Option.isSome_iff_exists.1 hu
    rcases (Catalog.spelling_of_find? hentry).1 with hplain | hshape
    · rw [upper_eq_self (List.all_eq_true.1 hplain)] at hu
      exact Bool.eq_false_iff.1 hname hu
    · exact Bool.eq_false_iff.1 hs (isSectionShaped_of_upper hshape)
  · exact Bool.eq_false_iff.1 hopen (startsWith_of_upper (by decide) hu)
  · exact Bool.eq_false_iff.1 hclose (endsWith_of_upper (by decide) hu)

end Text

end MapScript
