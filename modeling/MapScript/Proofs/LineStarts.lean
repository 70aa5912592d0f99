import Mathlib.Data.List.Basic
import Mathlib.Data.List.TakeWhile
import Mathlib.Data.Prod.Lex
import Mathlib.Order.Interval.Set.Defs
import Mathlib.Order.Monotone.Defs
import MapScript.Source

/-! The line and the column of an offset, and where the lines start. The line of an offset is the last one that starts
at or before it, which is found by halving the line starts, and the offset is where that line starts and the column
more. -/

namespace MapScript

namespace Text

/-- Nothing, or a text after which a line starts. -/
def EndsLine (t : Text) : Prop := ∀ g ∈ t.getLast?, g = lineFeed

theorem endsLine_nil : EndsLine [] := by simp [EndsLine]

theorem EndsLine.cons {g : Glyph} {t : Text} (h : EndsLine t) (hg : t ≠ [] ∨ g = lineFeed) : EndsLine (g :: t) := by
  cases t with
  | nil => simpa [EndsLine] using hg
  | cons x t => simpa [EndsLine] using h

theorem EndsLine.eq_nil_or_concat {t : Text} (h : EndsLine t) : t = [] ∨ ∃ front, t = front ++ [lineFeed] := by
  rcases List.eq_nil_or_concat' t with rfl | ⟨front, g, rfl⟩
  · exact .inl rfl
  · obtain rfl : g = lineFeed := h g (by simp)
    exact .inr ⟨front, rfl⟩

theorem exists_last_line (t : Text) : ∃ head line, t = head ++ line ∧ EndsLine head ∧ lineFeed ∉ line := by
  refine ⟨(t.reverse.dropWhile (· != lineFeed)).reverse, (t.reverse.takeWhile (· != lineFeed)).reverse, ?_, ?_, ?_⟩
  · rw [← List.reverse_append, List.takeWhile_append_dropWhile, List.reverse_reverse]
  · intro g hg
    have hn := List.head?_dropWhile_not (· != lineFeed) t.reverse
    rw [List.getLast?_reverse] at hg
    rw [Option.mem_def.1 hg] at hn
    simpa using hn
  · intro hmem
    simpa using List.mem_takeWhile_imp (List.mem_reverse.1 hmem)

theorem afterFeeds_append (pos : Nat) (s t : Text) :
    afterFeeds pos (s ++ t) = afterFeeds pos s ++ afterFeeds (pos + s.length) t := by
  induction s generalizing pos with
  | nil => simp [afterFeeds]
  | cons g s ih =>
    have hpos : pos + (s.length + 1) = pos + 1 + s.length := by omega
    rw [List.cons_append, afterFeeds, afterFeeds, ih, List.length_cons, hpos]
    split <;> rfl

theorem length_afterFeeds (pos : Nat) (t : Text) : (afterFeeds pos t).length = t.count lineFeed := by
  induction t generalizing pos with
  | nil => rfl
  | cons g rest ih =>
    rw [afterFeeds, List.count_cons]
    split <;> simp [*]

theorem length_lineStarts (t : Text) : (lineStarts t).length = t.count lineFeed + 1 := by
  rw [lineStarts, List.length_cons, length_afterFeeds]

theorem getElem?_lineStarts {head : Text} (h : EndsLine head) (rest : Text) :
    (lineStarts (head ++ rest))[head.count lineFeed]? = some head.length := by
  rcases h.eq_nil_or_concat with rfl | ⟨front, rfl⟩
  · rfl
  · have hcount : (front ++ [lineFeed]).count lineFeed = (afterFeeds 0 front).length + 1 := by
      rw [length_afterFeeds, List.count_append, List.count_singleton_self]
    rw [lineStarts, hcount, List.getElem?_cons_succ, List.append_assoc, afterFeeds_append,
      List.getElem?_append_right le_rfl]
    simp [afterFeeds]

theorem exists_head {t : Text} {line : Nat} (h : line ≤ t.count lineFeed) :
    ∃ head rest, t = head ++ rest ∧ EndsLine head ∧ head.count lineFeed = line := by
  induction t generalizing line with
  | nil => exact ⟨[], [], rfl, endsLine_nil, (Nat.le_zero.1 h).symm⟩
  | cons g t ih =>
    cases line with
    | zero => exact ⟨[], g :: t, rfl, endsLine_nil, rfl⟩
    | succ line =>
      by_cases hg : g = lineFeed
      · obtain ⟨head, rest, rfl, hh, hc⟩ := @ih line (by simpa [hg] using h)
        exact ⟨g :: head, rest, rfl, hh.cons (.inr hg), by simp [hg, hc]⟩
      · obtain ⟨head, rest, rfl, hh, hc⟩ := @ih (line + 1) (by simpa [List.count_cons, hg] using h)
        have hne : head ≠ [] := by
          rintro rfl
          simp at hc
        exact ⟨g :: head, rest, rfl, hh.cons (.inl hne), by simp [hc, hg]⟩

theorem getElem?_lineStarts_iff {t : Text} {line start : Nat} :
    (lineStarts t)[line]? = some start ↔
      ∃ head rest, t = head ++ rest ∧ EndsLine head ∧ head.count lineFeed = line ∧ head.length = start := by
  constructor
  · intro h
    have hline : line < (lineStarts t).length := (List.getElem?_eq_some_iff.1 h).1
    rw [length_lineStarts] at hline
    obtain ⟨head, rest, rfl, hh, rfl⟩ := exists_head (Nat.le_of_lt_succ hline)
    rw [getElem?_lineStarts hh] at h
    exact ⟨head, rest, rfl, hh, rfl, Option.some.inj h⟩
  · rintro ⟨head, rest, rfl, hh, rfl, rfl⟩
    exact getElem?_lineStarts hh rest

/-- A line starts at an offset or before it exactly if there are as many line feeds before the offset. -/
theorem start_le_iff {t : Text} {line start : Nat} (h : (lineStarts t)[line]? = some start) (offset : Nat) :
    start ≤ offset ↔ line ≤ (t.take offset).count lineFeed := by
  obtain ⟨head, rest, rfl, hh, rfl, rfl⟩ := getElem?_lineStarts_iff.1 h
  constructor
  · intro hle
    rw [List.take_append, List.take_of_length_le hle, List.count_append]
    exact Nat.le_add_right _ _
  · intro hle
    by_contra hlt
    rw [List.take_append_of_le_length (by omega)] at hle
    -- The last line feed of the part before the line is not among those before the offset.
    rcases hh.eq_nil_or_concat with rfl | ⟨front, rfl⟩
    · simp at hlt
    · have hfront : offset ≤ front.length := by
        simp at hlt
        omega
      rw [List.take_append_of_le_length hfront, List.count_append, List.count_singleton_self] at hle
      have := (List.take_sublist offset front).count_le lineFeed
      omega

theorem bisect_eq {numbers : List Nat} {x low high count : Nat} (hlow : low ≤ count) (hhigh : count ≤ high)
    (h : ∀ i < high, numbers.getD i 0 ≤ x ↔ i < count) : bisect numbers x low high = count := by
  fun_induction bisect numbers x low high with
  | case1 low high hlt middle hle ih =>
    exact ih ((h middle (by omega)).1 hle) hhigh h
  | case2 low high hlt middle hgt ih =>
    have hcount : count ≤ middle := Nat.le_of_not_lt fun hc => hgt ((h middle (by omega)).2 hc)
    exact ih hlow hcount fun i hi => h i (by omega)
  | case3 low high hge => omega

theorem bisect_lineStarts (t : Text) (offset : Nat) :
    bisect (lineStarts t) offset 0 (lineStarts t).length = (t.take offset).count lineFeed + 1 := by
  have hcount := (List.take_sublist offset t).count_le lineFeed
  refine bisect_eq (Nat.zero_le _) (by rw [length_lineStarts]; omega) fun i hi => ?_
  have hi' := List.getElem?_eq_getElem hi
  rw [List.getD_eq_getElem?_getD, hi', Option.getD_some, start_le_iff hi', Nat.lt_succ_iff]

theorem position_clamp (t : Text) (offset : Int) : position t offset = position t (max 0 (min offset t.length)) := by
  have hplace : max 0 (min (max 0 (min offset t.length)) (t.length : Int)) = max 0 (min offset t.length) := by omega
  rw [position, position, hplace]

theorem position_natCast {t : Text} {offset : Nat} (ho : offset ≤ t.length) :
    position t offset = ((t.take offset).count lineFeed,
      offset - (lineStarts t).getD ((t.take offset).count lineFeed) 0) := by
  have hplace : (max 0 (min (offset : Int) t.length)).toNat = offset := by omega
  rw [position, hplace, bisect_lineStarts, Nat.add_sub_cancel]

theorem fst_position {t : Text} {offset : Nat} (ho : offset ≤ t.length) :
    (position t offset).1 = (t.take offset).count lineFeed := by
  rw [position_natCast ho]

theorem exists_lineStart {t : Text} {offset : Nat} (ho : offset ≤ t.length) :
    ∃ start, (lineStarts t)[(position t offset).1]? = some start ∧ start + (position t offset).2 = offset ∧
      lineFeed ∉ t.slice start offset := by
  have hcount := (List.take_sublist offset t).count_le lineFeed
  obtain ⟨head, rest, rfl, hh, hline⟩ := exists_head hcount
  have hstart := getElem?_lineStarts hh rest
  have hle : head.length ≤ offset := (start_le_iff hstart offset).2 hline.le
  refine ⟨head.length, ?_, ?_, ?_⟩
  · rw [fst_position ho, ← hline]
    exact hstart
  · have hcolumn : (position (head ++ rest) offset).2 = offset - head.length := by
      rw [position_natCast ho, ← hline, List.getD_eq_getElem?_getD, hstart, Option.getD_some]
    omega
  · rw [List.take_append, List.take_of_length_le hle, List.count_append] at hline
    rw [slice, List.take_append, List.take_of_length_le hle, List.drop_left]
    exact List.count_eq_zero.1 (by omega)

theorem position_eq_iff {t : Text} {offset : Nat} (ho : offset ≤ t.length) {line column : Nat} :
    position t offset = (line, column) ↔
      ∃ start, (lineStarts t)[line]? = some start ∧ start + column = offset ∧ lineFeed ∉ t.slice start offset := by
  obtain ⟨start, hstart, hsum, hslice⟩ := exists_lineStart ho
  constructor
  · intro h
    rw [h] at hstart hsum
    exact ⟨start, hstart, hsum, hslice⟩
  · rintro ⟨other, hother, hsum', hslice'⟩
    obtain ⟨head, rest, rfl, hh, rfl, rfl⟩ := getElem?_lineStarts_iff.1 hother
    have hline : (position (head ++ rest) offset).1 = head.count lineFeed := by
      rw [slice, List.take_append, List.take_of_length_le (by omega), List.drop_left] at hslice'
      rw [fst_position ho, List.take_append, List.take_of_length_le (by omega), List.count_append,
        List.count_eq_zero.2 hslice', Nat.add_zero]
    rw [hline, hother, Option.some.injEq] at hstart
    exact Prod.ext hline (by omega)

theorem position_append {head line : Text} (hh : EndsLine head) (hl : lineFeed ∉ line) (rest : Text) :
    position (head ++ (line ++ rest)) (head.length + line.length : Nat) = (head.count lineFeed, line.length) := by
  refine (position_eq_iff (by simp)).2 ⟨head.length, getElem?_lineStarts hh _, rfl, ?_⟩
  rwa [slice, List.take_length_add_append, List.drop_left, List.take_left]

def counted (t : Text) (offset : Int) : Nat × Nat :=
  let before := t.take offset.toNat
  (before.count lineFeed, (before.reverse.takeWhile (· != lineFeed)).length)

theorem position_eq_counted (t : Text) (offset : Int) : position t offset = counted t offset := by
  rw [position_clamp]
  obtain ⟨place, hplace⟩ := Int.eq_ofNat_of_zero_le (Int.le_max_left 0 (min offset t.length))
  have htake : t.take offset.toNat = t.take place := by
    rcases Nat.le_total offset.toNat t.length with h | h
    · congr 1
      omega
    · rw [List.take_of_length_le h, List.take_of_length_le (by omega)]
  rw [hplace, counted, htake]
  obtain ⟨head, line, hsplit, hh, hl⟩ := exists_last_line (t.take place)
  have hlength : place = head.length + line.length := by
    rw [← List.length_append, ← hsplit, List.length_take_of_le (by omega)]
  have ht : t = head ++ (line ++ t.drop place) := by rw [← List.append_assoc, ← hsplit, List.take_append_drop]
  have hline : ∀ g ∈ line.reverse, (g != lineFeed) = true := by
    intro g hg
    simp only [bne_iff_ne, ne_eq]
    rintro rfl
    exact hl (List.mem_reverse.1 hg)
  have hhead : head.reverse.takeWhile (· != lineFeed) = [] := by
    rcases hh.eq_nil_or_concat with rfl | ⟨front, rfl⟩
    · rfl
    · simp
  have hpos := position_append hh hl (t.drop place)
  rw [← ht, ← hlength] at hpos
  rw [hpos, hsplit, List.count_append, List.count_eq_zero.2 hl, List.reverse_append,
    List.takeWhile_append_of_pos hline, hhead]
  simp

theorem fst_position_mono (t : Text) {a b : Nat} (hab : a ≤ b) : (position t a).1 ≤ (position t b).1 := by
  rw [position_eq_counted, position_eq_counted]
  exact List.Sublist.count_le _ (List.take_sublist_take_left (by simpa using hab))

theorem position_lt_position {t : Text} {a b : Nat} (hab : a < b) (hb : b ≤ t.length) :
    toLex (position t a) < toLex (position t b) := by
  obtain ⟨start, hstart, hsum, -⟩ := exists_lineStart (hab.le.trans hb)
  obtain ⟨start', hstart', hsum', -⟩ := exists_lineStart hb
  rw [Prod.Lex.toLex_lt_toLex]
  rcases (fst_position_mono t hab.le).lt_or_eq with hlt | hline
  · exact .inl hlt
  · -- On one line the columns differ as the offsets do.
    obtain rfl : start = start' := by
      rw [hline, hstart'] at hstart
      exact (Option.some.inj hstart).symm
    exact .inr ⟨hline, by omega⟩

end Text

namespace Source

open Text (lineFeed lineStarts)

theorem lineStart?_natCast (s : Source) (line : Nat) : s.lineStart? line = (lineStarts s.text)[line]? := by
  have hline : ¬ (line : Int) < 0 := by omega
  simp [lineStart?, hline]

/-- Offsets are resolved to lines and columns as the starts of the lines say: an offset is in the line that starts its
column before it, each place of a line is found there, and places are in the order of their offsets. The search among
the line starts finds what counting line feeds does. -/
theorem position_inverts_lineStart (s : Source) :
    (∀ offset : Nat, offset ≤ s.text.length → ∃ start, s.lineStart? (s.position offset).1 = some start ∧
      (s.position offset).1 = (s.text.take offset).count lineFeed ∧ (s.position offset).1 < s.lineCount ∧
      start + (s.position offset).2 = offset ∧ lineFeed ∉ s.text.slice start offset) ∧
    (∀ line column start : Nat, s.lineStart? line = some start → start + column ≤ s.text.length →
      lineFeed ∉ s.text.slice start (start + column) → s.position (start + column : Nat) = (line, column)) ∧
    StrictMonoOn (fun offset : Nat => toLex (s.position offset)) (Set.Iic s.text.length) ∧
    (∀ offset : Int, s.position offset = s.position (max 0 (min offset s.text.length))) ∧
    (∀ offset : Int, s.position offset = Text.counted s.text offset) := by
  refine ⟨?_, ?_, ?_, Text.position_clamp s.text, Text.position_eq_counted s.text⟩
  · intro offset ho
    obtain ⟨start, hstart, hsum, hslice⟩ := Text.exists_lineStart ho
    refine ⟨start, ?_, Text.fst_position ho, (List.getElem?_eq_some_iff.1 hstart).1, hsum, hslice⟩
    rw [lineStart?_natCast]
    exact hstart
  · intro line column start hstart ho hslice
    rw [lineStart?_natCast] at hstart
    exact (Text.position_eq_iff ho).2 ⟨start, hstart, rfl, hslice⟩
  · intro a _ b hb hab
    exact Text.position_lt_position hab hb

def fourLines : Source := ⟨0, "map.rms", "ab\ncd\n\nef"⟩

theorem fourLines_position :
    (∃ start, fourLines.lineStart? (fourLines.position 5).1 = some start ∧ start + (fourLines.position 5).2 = 5) ∧
    fourLines.position (7 + 2 : Nat) = (3, 2) ∧
    toLex (fourLines.position (5 : Nat)) < toLex (fourLines.position (6 : Nat)) := by
  obtain ⟨hin, hout, hmono, -⟩ := position_inverts_lineStart fourLines
  obtain ⟨start, hstart, -, -, hsum, -⟩ := hin 5 (by decide)
  exact ⟨⟨start, hstart, hsum⟩, hout 3 2 7 (by decide) (by decide) (by decide),
    hmono (by decide : 5 ≤ fourLines.text.length) (by decide : 6 ≤ fourLines.text.length) (by decide)⟩

end Source

end MapScript
