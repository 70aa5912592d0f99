import Mathlib.Data.List.Induction
import MapScript.Proofs.Respelling

/-! The words of a text are its longest runs without blanks. A list of words that stand in the text in order, with a
gap after each and with blanks in all that no word takes up, is the list that the scan finds, so that there is only one
such list. -/

namespace MapScript.Word

open Text

def Before (v w : Word) : Prop := v.stop < w.start

theorem Before.trans {u v w : Word} (huv : u.Before v) (hvw : v.Before w) : u.Before w := by
  rw [Before, stop] at *
  omega

instance : Trans Before Before Before := ⟨Before.trans⟩

def TakesUp (w : Word) (i : Nat) : Prop := w.start ≤ i ∧ i < w.stop

/-- The words are runs without blanks, one before the other, and blanks are all that they leave of a text. -/
structure Splits (file : Int) (source : Text) (words : List Word) : Prop where
  file_eq : ∀ w ∈ words, w.file = file
  slice_eq : ∀ w ∈ words, source.slice w.start w.stop = w.text
  inked : ∀ w ∈ words, w.text ≠ [] ∧ ∀ g ∈ w.text, g.isBlank = false
  before : words.IsChain Before
  blank : ∀ i, ∀ g ∈ source[i]?, (∀ w ∈ words, ¬ w.TakesUp i) → g.isBlank = true

variable {file : Int} {source : Text} {words : List Word} {w : Word}

theorem splits_nil_iff : Splits file source [] ↔ source.isBlank = true := by
  rw [isBlank_iff]
  constructor
  · intro h g hg
    obtain ⟨i, hi⟩ := List.mem_iff_getElem?.1 hg
    exact h.blank i g hi (by simp)
  · intro h
    exact ⟨by simp, by simp, by simp, .nil, fun i g hg _ => h g (List.mem_of_getElem? hg)⟩

theorem Splits.stop_le (h : Splits file source words) (hw : w ∈ words) : w.stop ≤ source.length := by
  have hlen := congrArg List.length (h.slice_eq w hw)
  have hpos : 0 < w.text.length := List.length_pos_iff.2 (h.inked w hw).1
  simp only [slice, List.length_drop, List.length_take, stop] at hlen
  rw [stop]
  omega

/-- Words end before the end of a text that no word can be joined to. -/
theorem Splits.stop_lt (h : Splits file source words) (he : source.EndsBlank) (hw : w ∈ words) :
    w.stop < source.length := by
  refine lt_of_le_of_ne (h.stop_le hw) fun hstop => ?_
  have hslice := h.slice_eq w hw
  have hink : w.text.Inked := h.inked w hw
  rw [slice, hstop, List.take_length] at hslice
  have hsource : source = source.take w.start ++ w.text := by rw [← hslice, List.take_append_drop]
  rw [hsource] at he
  exact not_endsBlank_inked hink _ he

/-- The last word stands between a text that the others split and blanks. -/
theorem Splits.exists_around_last (h : Splits file source (words ++ [w])) :
    ∃ s t, source = s ++ (w.text ++ t) ∧ s.length = w.start ∧ s.EndsBlank ∧ t.isBlank = true ∧ Splits file s words := by
  have hw : w ∈ words ++ [w] := by simp
  have hstart : w.start < w.stop := start_lt_stop (h.inked w hw)
  have hstop := h.stop_le hw
  obtain ⟨hwords, -, hlast⟩ := List.pairwise_append.1 h.before.pairwise
  have hbefore : ∀ v ∈ words, v.stop < w.start := fun v hv => hlast v hv w (by simp)
  -- Only the last word can take up the place right before it, or one after that.
  have hblank : ∀ i, w.start ≤ i + 1 → ¬ w.TakesUp i → ∀ g ∈ source[i]?, g.isBlank = true := by
    intro i hi hfree g hg
    refine h.blank i g hg (List.forall_mem_append.2 ⟨fun v hv => ?_, List.forall_mem_singleton.2 hfree⟩)
    have := hbefore v hv
    rw [TakesUp]
    omega
  refine ⟨source.take w.start, source.drop w.stop, ?_, List.length_take_of_le (by omega), ?_, ?_, ?_⟩
  · rw [← h.slice_eq w hw, slice_append_drop source hstart.le, List.take_append_drop]
  · intro g hg
    rw [List.getLast?_eq_getElem?, List.length_take_of_le (by omega), List.getElem?_take] at hg
    obtain ⟨hi, hg⟩ := Option.ite_none_right_eq_some.1 hg
    exact hblank (w.start - 1) (by omega) (by rw [TakesUp]; omega) g hg
  · refine isBlank_iff.2 fun g hg => ?_
    obtain ⟨i, hi⟩ := List.mem_iff_getElem?.1 hg
    rw [List.getElem?_drop] at hi
    exact hblank (w.stop + i) (by omega) (by rw [TakesUp]; omega) g hi
  · refine ⟨fun v hv => h.file_eq v (by simp [hv]), fun v hv => ?_, fun v hv => h.inked v (by simp [hv]),
      hwords.isChain, fun i g hg hfree => ?_⟩
    · rw [slice, List.take_take, Nat.min_eq_left (hbefore v hv).le]
      exact h.slice_eq v (by simp [hv])
    · rw [List.getElem?_take] at hg
      obtain ⟨hi, hg⟩ := Option.ite_none_right_eq_some.1 hg
      refine h.blank i g hg (List.forall_mem_append.2 ⟨hfree, List.forall_mem_singleton.2 ?_⟩)
      rw [TakesUp]
      omega

theorem Splits.concat {s t v : Text} (h : Splits file s words) (he : s.EndsBlank) (hv : v.Inked)
    (ht : t.isBlank = true) : Splits file (s ++ (v ++ t)) (words ++ [⟨v, file, s.length⟩]) := by
  have hbefore : ∀ u ∈ words, u.stop < s.length := fun u hu => h.stop_lt he hu
  have hslice : ∀ u ∈ words, slice (s ++ (v ++ t)) u.start u.stop = u.text := by
    intro u hu
    rw [slice, List.take_append_of_le_length (hbefore u hu).le]
    exact h.slice_eq u hu
  have hslice_v : slice (s ++ (v ++ t)) s.length (s.length + v.length) = v := by
    rw [← List.length_append]
    exact slice_middle s v t
  refine ⟨List.forall_mem_append.2 ⟨h.file_eq, List.forall_mem_singleton.2 rfl⟩,
    List.forall_mem_append.2 ⟨hslice, List.forall_mem_singleton.2 hslice_v⟩,
    List.forall_mem_append.2 ⟨h.inked, List.forall_mem_singleton.2 hv⟩, ?_, ?_⟩
  · refine (List.pairwise_append.2 ⟨h.before.pairwise, List.pairwise_singleton _ _, fun u hu => ?_⟩).isChain
    exact List.forall_mem_singleton.2 (hbefore u hu)
  · intro i g hg hfree
    obtain ⟨hfree, hfree_v⟩ := List.forall_mem_append.1 hfree
    rw [List.getElem?_append, List.getElem?_append] at hg
    split at hg
    · exact h.blank i g hg hfree
    · split at hg
      · refine absurd ?_ (hfree_v _ List.mem_cons_self)
        rw [TakesUp, stop]
        dsimp only
        omega
      · exact isBlank_iff.1 ht g (List.mem_of_getElem? hg)

/-- The words that the scan finds are the only ones that split a text into longest runs without blanks. -/
theorem splits_iff_eq_scan (file : Int) (source : Text) (words : List Word) :
    Splits file source words ↔ words = scan file source := by
  -- From the last word on, since the text before it is split by the other words where they stand.
  induction words using List.reverseRecOn generalizing source with
  | nil => rw [splits_nil_iff, ← scan_eq_nil_iff, eq_comm]
  | append_singleton words w ih =>
    constructor
    · intro h
      have hink : w.text.Inked := h.inked w (by simp)
      have hfile : w.file = file := h.file_eq w (by simp)
      obtain ⟨s, t, rfl, hs, he, ht, hsplits⟩ := h.exists_around_last
      rw [scan_append file s _ (.inl he), scan_append_blank file ht, scan_inked file hink, ← (ih s).1 hsplits]
      cases w
      simp_all [shift]
    · intro h
      obtain ⟨s, t, rfl, hs, he, hink, -, hwords, hrest⟩ := scan_split h.symm
      have ht : t.isBlank = true := scan_eq_nil_iff.1 (List.map_eq_nil_iff.1 hrest)
      have hfile : w.file = file := scanFrom_file (h ▸ List.mem_concat_self)
      have hw : w = ⟨w.text, file, s.length⟩ := by
        cases w
        simp_all
      rw [hw]
      exact Splits.concat ((ih s).2 hwords.symm) he hink ht

end MapScript.Word
