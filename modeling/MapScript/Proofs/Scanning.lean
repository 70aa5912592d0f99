import Mathlib.Data.List.Basic
import Mathlib.Data.List.TakeWhile
import MapScript.Word

/-! Words of texts that are put together: a blank between two texts keeps their words apart. -/

namespace MapScript

namespace Text

def Inked (t : Text) : Prop := t ≠ [] ∧ ∀ g ∈ t, g.isBlank = false

/-- Nothing, or a text that no word can be joined to from the left. -/
def StartsBlank (t : Text) : Prop := ∀ g ∈ t.head?, g.isBlank = true

instance (t : Text) : Decidable t.StartsBlank :=
  inferInstanceAs (Decidable (∀ g ∈ t.head?, g.isBlank = true))

def EndsBlank (t : Text) : Prop := ∀ g ∈ t.getLast?, g.isBlank = true

instance (t : Text) : Decidable t.EndsBlank :=
  inferInstanceAs (Decidable (∀ g ∈ t.getLast?, g.isBlank = true))

theorem isBlank_iff {t : Text} : t.isBlank = true ↔ ∀ g ∈ t, g.isBlank = true := by
  simp [isBlank]

theorem isBlank_append {s t : Text} : isBlank (s ++ t) = (s.isBlank && t.isBlank) := by
  simp [isBlank]

theorem startsBlank_nil : StartsBlank [] := by simp [StartsBlank]

theorem endsBlank_nil : EndsBlank [] := by simp [EndsBlank]

theorem startsBlank_of_isBlank {t : Text} (h : t.isBlank = true) : StartsBlank t :=
  fun g hg => isBlank_iff.1 h g (List.mem_of_mem_head? hg)

theorem endsBlank_of_isBlank {t : Text} (h : t.isBlank = true) : EndsBlank t :=
  fun g hg => isBlank_iff.1 h g (List.mem_of_mem_getLast? hg)

theorem startsBlank_append {s t : Text} (h : s.StartsBlank) (hs : s ≠ [] ∨ t.StartsBlank) :
    StartsBlank (s ++ t) := by
  cases s with
  | nil => simpa using hs
  | cons g s => simpa [StartsBlank] using h

theorem endsBlank_append {s t : Text} (h : t.EndsBlank) (ht : t ≠ [] ∨ s.EndsBlank) :
    EndsBlank (s ++ t) := by
  rcases List.eq_nil_or_concat' t with rfl | ⟨t, g, rfl⟩
  · simpa using ht
  · simpa [EndsBlank, ← List.append_assoc] using h

/-- A text is blank, or has a first word with blanks or nothing around it. -/
theorem first_word (t : Text) :
    t.isBlank = true ∨
      ∃ b w rest, t = b ++ (w ++ rest) ∧ isBlank b = true ∧ Inked w ∧ StartsBlank rest := by
  induction t with
  | nil => exact .inl rfl
  | cons g t ih =>
    by_cases hg : g.isBlank = true
    · obtain h | ⟨b, w, rest, ht, hb, hw, hr⟩ := ih
      · exact .inl (by simp_all [isBlank])
      · exact .inr ⟨g :: b, w, rest, by simp [ht], by simp_all [isBlank], hw, hr⟩
    · refine .inr ⟨[], g :: t.takeWhile (!·.isBlank), t.dropWhile (!·.isBlank), ?_, rfl, ?_, ?_⟩
      · simp [List.takeWhile_append_dropWhile]
      · refine ⟨by simp, fun x hx => ?_⟩
        rcases List.mem_cons.1 hx with rfl | hx
        · simpa using hg
        · simpa using List.mem_takeWhile_imp hx
      · intro x hx
        have hn := List.head?_dropWhile_not (!Glyph.isBlank ·) t
        rw [Option.mem_def.1 hx] at hn
        simpa using hn

theorem not_startsBlank_inked {w : Text} (h : w.Inked) (t : Text) : ¬ StartsBlank (w ++ t) := by
  cases w with
  | nil => exact absurd rfl h.1
  | cons g w =>
    intro hs
    have hg := h.2 g (by simp)
    simp [hs g (by simp)] at hg

end Text

namespace Word

open Text

def shift (w : Word) (offset : Nat) : Word := { w with start := w.start + offset }

@[simp] theorem shift_text (w : Word) (offset : Nat) : (w.shift offset).text = w.text := rfl

@[simp] theorem shift_start (w : Word) (offset : Nat) : (w.shift offset).start = w.start + offset := rfl

@[simp] theorem shift_file (w : Word) (offset : Nat) : (w.shift offset).file = w.file := rfl

@[simp] theorem shift_stop (w : Word) (offset : Nat) : (w.shift offset).stop = w.stop + offset := by
  simp only [stop, shift_text, shift_start]
  omega

theorem scanFrom_startsBlank (file : Int) (run : Text) (pos : Nat) {t : Text} (h : t.StartsBlank) :
    scanFrom file run pos t = ofRun file pos run ++ scanFrom file [] pos t := by
  cases t with
  | nil => simp [scanFrom, ofRun]
  | cons g t =>
    have hg : g.isBlank = true := h g (by simp)
    simp [scanFrom, hg, ofRun]

theorem scanFrom_append_startsBlank (file : Int) (run : Text) (pos : Nat) (s : Text) {t : Text}
    (h : t.StartsBlank) :
    scanFrom file run pos (s ++ t)
      = scanFrom file run pos s ++ scanFrom file [] (pos + s.length) t := by
  induction s generalizing run pos with
  | nil => simpa [scanFrom] using scanFrom_startsBlank file run pos h
  | cons g s ih =>
    have hp : pos + (s.length + 1) = pos + 1 + s.length := by omega
    by_cases hg : g.isBlank = true
    · simp [scanFrom, hg, ih, hp]
    · simp [scanFrom, hg, ih, hp]

theorem scanFrom_blank (file : Int) (pos : Nat) {b : Text} (hb : b.isBlank = true) (t : Text) :
    scanFrom file [] pos (b ++ t) = scanFrom file [] (pos + b.length) t := by
  induction b generalizing pos with
  | nil => simp
  | cons g b ih =>
    have hg : g.isBlank = true := isBlank_iff.1 hb g (by simp)
    have hr : isBlank b = true := isBlank_iff.2 fun x hx => isBlank_iff.1 hb x (by simp [hx])
    have hp : pos + (b.length + 1) = pos + 1 + b.length := by omega
    simp [scanFrom, hg, ofRun, ih _ hr, hp]

theorem scanFrom_of_isBlank (file : Int) (pos : Nat) {b : Text} (hb : b.isBlank = true) :
    scanFrom file [] pos b = [] := by
  simpa [scanFrom, ofRun] using scanFrom_blank file pos hb []

theorem scanFrom_append_endsBlank (file : Int) (pos : Nat) {s : Text} (t : Text) (h : s.EndsBlank) :
    scanFrom file [] pos (s ++ t)
      = scanFrom file [] pos s ++ scanFrom file [] (pos + s.length) t := by
  rcases List.eq_nil_or_concat' s with rfl | ⟨s, g, rfl⟩
  · simp [scanFrom, ofRun]
  · have hg : g.isBlank = true := h g (by simp)
    have hb : isBlank [g] = true := by simp [isBlank, hg]
    have hst : StartsBlank (g :: t) := by simp [StartsBlank, hg]
    have hsg : StartsBlank [g] := startsBlank_of_isBlank hb
    rw [List.append_assoc, List.singleton_append, scanFrom_append_startsBlank file [] pos s hst,
      scanFrom_append_startsBlank file [] pos s hsg, scanFrom_of_isBlank file _ hb,
      ← List.singleton_append, scanFrom_blank file _ hb]
    simp [Nat.add_assoc]

theorem scanFrom_inked (file : Int) (run : Text) (pos : Nat) {w : Text}
    (h : ∀ g ∈ w, g.isBlank = false) (t : Text) :
    scanFrom file run pos (w ++ t) = scanFrom file (w.reverse ++ run) (pos + w.length) t := by
  induction w generalizing run pos with
  | nil => simp
  | cons g w ih =>
    have hg : g.isBlank = false := h g (by simp)
    have hp : pos + (w.length + 1) = pos + 1 + w.length := by omega
    simp [scanFrom, hg, ih _ _ fun x hx => h x (by simp [hx]), hp]

theorem scanFrom_word (file : Int) (pos : Nat) {w : Text} (h : w.Inked) :
    scanFrom file [] pos w = [⟨w, file, pos⟩] := by
  have hr := scanFrom_inked file [] pos h.2 []
  rw [List.append_nil] at hr
  rw [hr]
  simp [scanFrom, ofRun, h.1]

theorem ofRun_shift (file : Int) {pos : Nat} {run : Text} (h : run.length ≤ pos) (offset : Nat) :
    ofRun file (pos + offset) run = (ofRun file pos run).map fun w => w.shift offset := by
  by_cases hr : run = []
  · simp [ofRun, hr]
  · have hs : pos + offset - run.length = pos - run.length + offset := by omega
    simp [ofRun, hr, shift, hs]

theorem scanFrom_shift (file : Int) {run : Text} {pos : Nat} (h : run.length ≤ pos) (offset : Nat)
    (t : Text) :
    scanFrom file run (pos + offset) t = (scanFrom file run pos t).map fun w => w.shift offset := by
  induction t generalizing run pos with
  | nil => exact ofRun_shift file h offset
  | cons g t ih =>
    have hp : pos + offset + 1 = pos + 1 + offset := by omega
    by_cases hg : g.isBlank = true
    · have hn : ([] : Text).length ≤ pos + 1 := by simp
      simp [scanFrom, hg, ofRun_shift file h, hp, ih hn]
    · have hc : (g :: run).length ≤ pos + 1 := by simpa using h
      simp [scanFrom, hg, hp, ih hc]

/-- The words of the second text come after those of the first, moved by its length. -/
theorem scan_append (file : Int) (s t : Text) (h : s.EndsBlank ∨ t.StartsBlank) :
    scan file (s ++ t) = scan file s ++ (scan file t).map fun w => w.shift s.length := by
  have hs : scanFrom file [] (0 + s.length) t = (scan file t).map fun w => w.shift s.length :=
    scanFrom_shift file (by simp) s.length t
  cases h with
  | inl h => rw [← hs]; exact scanFrom_append_endsBlank file 0 t h
  | inr h => rw [← hs]; exact scanFrom_append_startsBlank file [] 0 s h

theorem scan_of_isBlank (file : Int) {b : Text} (h : b.isBlank = true) : scan file b = [] :=
  scanFrom_of_isBlank file 0 h

theorem scan_append_blank (file : Int) {b : Text} (h : b.isBlank = true) (t : Text) :
    scan file (t ++ b) = scan file t := by
  rw [scan_append file t b (.inr (Text.startsBlank_of_isBlank h)), scan_of_isBlank file h, List.map_nil,
    List.append_nil]

theorem scan_inked (file : Int) {w : Text} (h : w.Inked) : scan file w = [⟨w, file, 0⟩] :=
  scanFrom_word file 0 h

theorem shift_shift (w : Word) (m n : Nat) : (w.shift m).shift n = w.shift (m + n) := by
  simp [shift, Nat.add_assoc]

theorem scan_first (file : Int) {b w t : Text} (hb : b.isBlank = true) (hw : w.Inked)
    (ht : t.StartsBlank) :
    scan file (b ++ (w ++ t))
      = ⟨w, file, b.length⟩ :: (scan file t).map fun v => v.shift (b.length + w.length) := by
  rw [scan_append file b _ (.inl (endsBlank_of_isBlank hb)), scan_append file w t (.inr ht),
    scan_of_isBlank file hb, scan_inked file hw]
  simp only [List.nil_append, List.singleton_append, List.map_cons, List.map_map, Function.comp_def,
    shift_shift, Nat.add_comm w.length]
  simp [shift]

theorem scan_eq_nil_iff {file : Int} {t : Text} : scan file t = [] ↔ t.isBlank = true := by
  refine ⟨fun h => ?_, scan_of_isBlank file⟩
  obtain hb | ⟨b, w, rest, rfl, hb, hw, hr⟩ := first_word t
  · exact hb
  · rw [scan_first file hb hw hr] at h
    simp at h

theorem scan_split {file : Int} {source : Text} {before after : List Word} {w : Word}
    (h : scan file source = before ++ w :: after) :
    ∃ s t, source = s ++ (w.text ++ t) ∧ s.length = w.start ∧ s.EndsBlank ∧ w.text.Inked ∧
      t.StartsBlank ∧ scan file s = before ∧ (scan file t).map (fun v => v.shift w.stop) = after := by
  induction hn : before.length generalizing before source w after with
  | zero =>
    obtain rfl : before = [] := List.length_eq_zero_iff.1 hn
    obtain hb | ⟨b, v, rest, rfl, hb, hv, hr⟩ := first_word source
    · simp [scan_of_isBlank file hb] at h
    · rw [scan_first file hb hv hr, List.nil_append, List.cons.injEq] at h
      obtain ⟨rfl, rfl⟩ := h
      exact ⟨b, rest, rfl, rfl, endsBlank_of_isBlank hb, hv, hr, scan_of_isBlank file hb, rfl⟩
  | succ n ih =>
    obtain ⟨u, before, rfl⟩ := List.exists_cons_of_length_eq_add_one hn
    obtain hb | ⟨b, v, rest, rfl, hb, hv, hr⟩ := first_word source
    · simp [scan_of_isBlank file hb] at h
    · rw [scan_first file hb hv hr, List.cons_append, List.cons.injEq] at h
      obtain ⟨rfl, h⟩ := h
      obtain ⟨before', tail, hs, rfl, ht⟩ := List.map_eq_append_iff.1 h
      obtain ⟨w', after', rfl, rfl, rfl⟩ := List.map_eq_cons_iff.1 ht
      obtain ⟨s, t, rfl, hl, he, hw, hst, hbefore, hafter⟩ := ih hs (by simpa using hn)
      have hss : s.StartsBlank := by
        cases s with
        | nil => exact absurd hr (not_startsBlank_inked hw t)
        | cons g s => simpa [StartsBlank] using hr
      have hne : s ≠ [] := by
        rintro rfl
        exact not_startsBlank_inked hw t hr
      refine ⟨b ++ (v ++ s), t, by simp, ?_, ?_, hw, hst, ?_, ?_⟩
      · simp [hl, Nat.add_comm, Nat.add_left_comm]
      · exact endsBlank_append (endsBlank_append he (.inl hne)) (.inr (endsBlank_of_isBlank hb))
      · rw [scan_first file hb hv hss, hbefore]
      · rw [← hafter]
        simp [shift_shift, Function.comp_def]

theorem inked_of_mem_scan {file : Int} {source : Text} {w : Word} (h : w ∈ scan file source) :
    w.text.Inked := by
  obtain ⟨before, after, hs⟩ := List.append_of_mem h
  obtain ⟨_, _, _, _, _, hw, _⟩ := scan_split hs
  exact hw

theorem stop_le_of_mem_scan {file : Int} {source : Text} {w : Word} (h : w ∈ scan file source) :
    w.stop ≤ source.length := by
  obtain ⟨before, after, hs⟩ := List.append_of_mem h
  obtain ⟨s, t, rfl, hl, _⟩ := scan_split hs
  simp only [stop, List.length_append, ← hl]
  omega

theorem scan_inner {file : Int} {source : Text} {before inner more : List Word} {w closer : Word}
    (h : scan file source = before ++ w :: (inner ++ closer :: more)) :
    (scan file (source.slice w.stop closer.start)).map (fun v => v.shift w.stop) = inner := by
  obtain ⟨s, t, rfl, hs, -, -, -, -, ht⟩ := scan_split h
  obtain ⟨inner', tail, hscan, rfl, htail⟩ := List.map_eq_append_iff.1 ht
  obtain ⟨closer', more', rfl, rfl, rfl⟩ := List.map_eq_cons_iff.1 htail
  obtain ⟨u, v, rfl, hu, -, -, -, rfl, -⟩ := scan_split hscan
  have hstop : w.stop = (s ++ w.text).length := by rw [List.length_append, hs]; rfl
  have hslice : slice (s ++ (w.text ++ (u ++ (closer'.text ++ v)))) w.stop (closer'.shift w.stop).start
      = u := by
    rw [shift_start, hstop, ← hu, ← List.append_assoc s, slice, Nat.add_comm u.length,
      List.take_length_add_append, List.take_left, List.drop_left]
  rw [hslice]

theorem scan_between {file : Int} {source : Text} {before inner more : List Word} {w closer : Word}
    (h : scan file source = before ++ w :: (inner ++ closer :: more)) :
    (scan file (source.slice w.stop closer.start)).map Word.text = inner.map Word.text := by
  have hinner := congrArg (List.map Word.text) (scan_inner h)
  rwa [List.map_map] at hinner

theorem scan_rest {file : Int} {source : Text} {before rest : List Word} {w : Word}
    (h : scan file source = before ++ w :: rest) :
    (scan file (source.drop w.stop)).map (fun v => v.shift w.stop) = rest := by
  obtain ⟨s, t, rfl, hs, -, -, -, -, rfl⟩ := scan_split h
  have hdrop : (s ++ (w.text ++ t)).drop w.stop = t := by
    rw [← List.append_assoc]
    exact List.drop_left' (by rw [List.length_append, hs]; rfl)
  rw [hdrop]

theorem scan_after {file : Int} {source : Text} {before rest : List Word} {w : Word}
    (h : scan file source = before ++ w :: rest) :
    (scan file (source.drop w.stop)).map Word.text = rest.map Word.text := by
  have hrest := congrArg (List.map Word.text) (scan_rest h)
  rwa [List.map_map] at hrest

end Word

end MapScript
