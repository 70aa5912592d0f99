import MapScript.Proofs.Codec
import MapScript.Proofs.Edges

/-! Ranges in bytes. A broken piece is shown as one character of three bytes, whatever its own length is, so
the bytes that a report speaks of are those of the file as long as no shorter broken piece comes before. -/

namespace MapScript

namespace Utf8

def Piece.glyph : Piece → Glyph
  | .char c => .char c
  | .broken _ => .char '\ufffd'

/-- How many bytes a piece is shown with beyond its own. -/
def Piece.drift : Piece → Nat
  | .char _ => 0
  | .broken bytes => 3 - bytes.length

def drift (ps : List Piece) : Nat := (ps.map Piece.drift).sum

theorem readReplacing_eq_map (bytes : Bytes) : Text.readReplacing bytes = (pieces none bytes).map Piece.glyph := by
  have hone : ∀ q : Piece, q.replaced = [q.glyph] := by
    intro q
    cases q <;> rfl
  rw [Text.readReplacing, funext hone, List.map_eq_flatMap]

theorem length_bytes_glyph {q : Piece} (h : q.Fit) : q.glyph.bytes.length = q.bytes.length + q.drift := by
  cases q with
  | char c => rfl
  | broken bytes =>
    have hthree : (Glyph.bytes (.char '\ufffd')).length = 3 := by decide
    have hle : bytes.length ≤ 3 := h.2.1
    rw [Piece.glyph, hthree, Piece.bytes, Piece.drift, Nat.add_sub_cancel' hle]

theorem length_encode_map {ps : List Piece} (h : ∀ q ∈ ps, q.Fit) :
    (Text.encode (ps.map Piece.glyph)).length = (ps.flatMap Piece.bytes).length + drift ps := by
  induction ps with
  | nil => rfl
  | cons q ps ih =>
    have hq := length_bytes_glyph (h q List.mem_cons_self)
    have hps := ih fun r hr => h r (List.mem_cons_of_mem q hr)
    simp only [Text.encode, drift, List.map_cons, List.flatMap_cons, List.length_append, List.sum_cons] at hps ⊢
    omega

theorem drift_append (front back : List Piece) : drift (front ++ back) = drift front + drift back := by
  simp [drift]

theorem drift_eq_zero {ps : List Piece} (h : ∀ q ∈ ps, q.Fit) :
    drift ps = 0 ↔ ∀ bytes, .broken bytes ∈ ps → bytes.length = 3 := by
  rw [drift, List.sum_eq_zero_iff_forall_eq_nat]
  constructor
  · intro hz bytes hm
    have hle : bytes.length ≤ 3 := (h _ hm).2.1
    have hzero : 3 - bytes.length = 0 := hz _ (List.mem_map_of_mem hm)
    omega
  · intro hthree n hn
    obtain ⟨q, hq, rfl⟩ := List.mem_map.1 hn
    cases q with
    | char c => rfl
    | broken bytes => simp [Piece.drift, hthree bytes hq]

/-- Bytes that are read as some pieces and then others, cut between them: a longer part of the bytes is read
as more pieces. -/
theorem exists_cut {bytes : Bytes} {front back : List Piece} (h : pieces none bytes = front ++ back) :
    ∃ rest, bytes = front.flatMap Piece.bytes ++ rest ∧ pieces none rest = back ∧
      ∀ n, pieces none (bytes.take ((front.flatMap Piece.bytes).length + n)) = front ++ pieces none (rest.take n) := by
  obtain ⟨xs, rest, rfl, hread⟩ := pieces_split h (.inl rfl)
  have hxs : front.flatMap Piece.bytes = xs := by
    have hnil := hread [] List.nil_prefix
    simp only [List.append_nil, pieces] at hnil
    rw [← hnil, flatMap_bytes_pieces]
  rw [hxs]
  refine ⟨rest, rfl, ?_, fun n => ?_⟩
  · rw [hread rest (List.prefix_refl rest)] at h
    exact List.append_cancel_left h
  · rw [List.take_length_add_append]
    exact hread _ (List.take_prefix n rest)

theorem eq_zero_of_read {front : List Piece} {rest : Bytes} {n : Nat}
    (h : (front ++ pieces none (rest.take n)).map Piece.glyph = front.map Piece.glyph) : n = 0 ∨ rest = [] := by
  rw [List.map_append, List.append_right_eq_self, List.map_eq_nil_iff] at h
  simpa using pieces_eq_nil h

/-- The bytes that a range is shown with are those it was read from if no broken piece up to its end is too
short, and else they are not. -/
theorem indexes_iff {bytes : Bytes} {front middle back : List Piece}
    (h : pieces none bytes = front ++ (middle ++ back)) (hne : middle ≠ []) {a b : Nat}
    (ha : a = (front.flatMap Piece.bytes).length + drift front)
    (hb : b = a + ((middle.flatMap Piece.bytes).length + drift middle)) :
    (b ≤ bytes.length ∧ Text.readReplacing (bytes.take a) = front.map Piece.glyph ∧
      Text.readReplacing ((bytes.take b).drop a) = middle.map Piece.glyph) ↔ drift (front ++ middle) = 0 := by
  obtain ⟨rest, hbytes, hrest, hfront⟩ := exists_cut h
  obtain ⟨last, hlast, -, hmiddle⟩ := exists_cut hrest
  simp only [readReplacing_eq_map, drift_append, Nat.add_eq_zero_iff]
  have hdrop : drift front = 0 → (bytes.take b).drop a = rest.take (b - a) := by
    intro hz
    rw [List.drop_take, hbytes, ha, hz, Nat.add_zero, List.drop_left]
  constructor
  · rintro ⟨hle, hbefore, hwithin⟩
    have hz : drift front = 0 := by
      rw [ha, hfront] at hbefore
      refine (eq_zero_of_read hbefore).resolve_right fun hnil => hne ?_
      rw [hnil, pieces] at hrest
      exact (List.append_eq_nil_iff.1 hrest.symm).1
    refine ⟨hz, ?_⟩
    rw [hdrop hz, hb, Nat.add_sub_cancel_left, hmiddle] at hwithin
    cases eq_zero_of_read hwithin with
    | inl hzero => exact hzero
    | inr hnil =>
      have hlen := congrArg List.length hbytes
      rw [hlast, hnil, List.append_nil, List.length_append] at hlen
      omega
  · rintro ⟨hz, hz'⟩
    refine ⟨?_, ?_, ?_⟩
    · have hlen := congrArg List.length hbytes
      rw [hlast, List.length_append, List.length_append] at hlen
      omega
    · rw [ha, hz, hfront, List.take_zero, pieces, List.append_nil]
    · rw [hdrop hz, hb, Nat.add_sub_cancel_left, hz', hmiddle, List.take_zero, pieces, List.append_nil]

end Utf8

/-- A range in bytes is that of the characters: what stands before it and what stands in it are read as the
text before the range and in it. -/
structure Extent.Indexes (e : Extent) (bytes : Bytes) (s : Span) : Prop where
  stop : e.byteEnd ≤ bytes.length
  before : Text.readReplacing (bytes.take e.byteStart) = (Text.readReplacing bytes).take s.start.toNat
  within : Text.readReplacing ((bytes.take e.byteEnd).drop e.byteStart)
    = (Text.readReplacing bytes).slice s.start.toNat s.stop.toNat

open Utf8 in
theorem Source.indexes_extent_iff {source : Source} {bytes : Bytes} (ht : source.text = Text.readReplacing bytes)
    {s : Span} (hs : s.Inside source.file source.text) :
    (source.extent s.start s.stop).byteStart ≤ (source.extent s.start s.stop).byteEnd ∧
      ((source.extent s.start s.stop).Indexes bytes s ↔
        ∀ piece, .broken piece ∈ (pieces none bytes).take s.stop.toNat → piece.length = 3) := by
  obtain ⟨-, hstart, hlt, hstop⟩ := hs
  obtain ⟨i, hi⟩ := Int.eq_ofNat_of_zero_le hstart
  obtain ⟨j, hj⟩ := Int.eq_ofNat_of_zero_le (Int.le_trans hstart (Int.le_of_lt hlt))
  rw [hi] at hlt
  rw [hj] at hlt hstop
  have hij : i < j := by omega
  have hlen : source.text.length = (pieces none bytes).length := by rw [ht, readReplacing_eq_map, List.length_map]
  have hfit : ∀ q ∈ pieces none bytes, q.Fit := fun q => fit_of_mem_pieces
  rw [hi, hj, Int.toNat_natCast]
  -- The pieces before the range, in it and after it.
  have hcut : (pieces none bytes).take i ++ ((pieces none bytes).take j).drop i = (pieces none bytes).take j := by
    have htake : (pieces none bytes).take i = ((pieces none bytes).take j).take i := by
      rw [List.take_take, Nat.min_eq_left (by omega)]
    rw [htake, List.take_append_drop]
  have hpieces : pieces none bytes
      = (pieces none bytes).take i ++ (((pieces none bytes).take j).drop i ++ (pieces none bytes).drop j) := by
    rw [← List.append_assoc, hcut, List.take_append_drop]
  have hne : ((pieces none bytes).take j).drop i ≠ [] := by
    rw [ne_eq, List.drop_eq_nil_iff, List.length_take]
    omega
  have hbefore : source.text.take i = ((pieces none bytes).take i).map Piece.glyph := by
    rw [ht, readReplacing_eq_map, List.map_take]
  have hwithin : source.text.slice i j = (((pieces none bytes).take j).drop i).map Piece.glyph := by
    rw [Text.slice, ht, readReplacing_eq_map, List.map_drop, List.map_take]
  have hfirst : source.byteOffset i
      = (((pieces none bytes).take i).flatMap Piece.bytes).length + drift ((pieces none bytes).take i) := by
    rw [byteOffset_natCast source (by omega), hbefore]
    exact length_encode_map fun q hq => hfit q (List.mem_of_mem_take hq)
  have hsecond : source.byteOffset j = source.byteOffset i
      + (((((pieces none bytes).take j).drop i).flatMap Piece.bytes).length
        + drift (((pieces none bytes).take j).drop i)) := by
    rw [byteOffset_add source (by omega : i ≤ j) (by omega), hwithin]
    rw [length_encode_map fun q hq => hfit q (List.mem_of_mem_take (List.mem_of_mem_drop hq))]
  refine ⟨?_, ?_⟩
  · simp only [extent]
    omega
  · have hiff := indexes_iff hpieces hne hfirst hsecond
    rw [hcut, drift_eq_zero fun q hq => hfit q (List.mem_of_mem_take hq), ← hbefore, ← hwithin] at hiff
    rw [← hiff]
    have hi' : s.start.toNat = i := by omega
    have hj' : s.stop.toNat = j := by omega
    constructor
    · rintro ⟨hle, hb, hw⟩
      rw [← ht, hi'] at hb
      rw [← ht, hi', hj'] at hw
      exact ⟨hle, hb, hw⟩
    · rintro ⟨hle, hb, hw⟩
      refine ⟨hle, ?_, ?_⟩
      · rw [← ht, hi']
        exact hb
      · rw [← ht, hi', hj']
        exact hw

namespace Report

theorem source_number {report : Report} {files : List (Text × Text)} (hr : report.sources = Source.number files)
    {s : Span} {i : Nat} {source : Source} (hi : (Source.number files)[i]? = some source) (hs : s.file = i) :
    report.source s = source := by
  obtain ⟨hlt, hget⟩ := List.getElem?_eq_some_iff.1 hi
  have hfind : (Source.number files).find? (·.file == s.file) = some source := by
    rw [List.find?_eq_some_iff_getElem]
    have hfile : ∀ (j : Nat) (h : j < (Source.number files).length), (Source.number files)[j].file = j := by
      intro j h
      simp [Source.number]
    refine ⟨?_, i, hlt, hget, fun j hj => ?_⟩
    · rw [← hget, hfile i hlt, hs, beq_self_eq_true]
    · rw [hfile j (by omega), hs]
      simp
      omega
  rw [Report.source, hr, hfind, Option.getD_some]

end Report

theorem Check.sources_of_run {c : Check} {report : Report} (h : c.run = .ok report) :
    report.sources = c.sources := by
  simp only [run, bind_eq_ok, pure_eq_ok] at h
  obtain ⟨ds, -, rfl⟩ := h
  rfl

def Source.ofBytes (files : List (Text × Bytes)) : List Source :=
  number (files.map fun file => (file.1, Text.readReplacing file.2))

theorem Source.getElem?_ofBytes {files : List (Text × Bytes)} {i : Nat} {source : Source}
    (h : (ofBytes files)[i]? = some source) :
    ∃ name bytes, files[i]? = some (name, bytes) ∧ source = ⟨i, name, Text.readReplacing bytes⟩ := by
  rw [ofBytes, number, List.getElem?_mapIdx, List.getElem?_map, Option.map_map, Option.map_eq_some_iff] at h
  obtain ⟨file, hfile, rfl⟩ := h
  exact ⟨file.1, file.2, hfile, rfl⟩

namespace Check

/-- The range in bytes that is reported for a problem or a suggestion is that of the file exactly if every
broken piece before its end has three bytes. Calls that go on in another file have no range in their own. -/
theorem byteRange_iff {level : Level} {rules : List Rule} {builtinMap : Bool} {files : List (Text × Bytes)}
    {report : Report} (h : (Check.mk level rules builtinMap (Source.ofBytes files)).run = .ok report)
    {d : Diagnostic} (hd : d ∈ report.diagnostics) :
    (∃ first next, (Check.mk level rules builtinMap (Source.ofBytes files)).Joins first next ∧
        first.file ≠ next.file ∧ ¬ (first.span.through next.span).Within (Source.ofBytes files) ∧
        d = (Rule.ArgTypes.splitCall first next).withCode Rule.argTypes.name) ∨
      ∀ s, s = d.span ∨ (∃ suggestion ∈ d.suggestions, s = suggestion.span) →
        ∃ name bytes, files[s.file.toNat]? = some (name, bytes) ∧
          let e := (report.source s).extent s.start s.stop
          e.name = name ∧ e.byteStart ≤ e.byteEnd ∧
          (e.Indexes bytes s ↔
            ∀ piece, .broken piece ∈ (Utf8.pieces none bytes).take s.stop.toNat → piece.length = 3) := by
  have hc : (Check.mk level rules builtinMap (Source.ofBytes files)).sources
      = Source.number (files.map fun file => (file.1, Text.readReplacing file.2)) := rfl
  have hsources := sources_of_run h
  cases placed_or_joined (words_within hc) (items_within hc) h hd with
  | inr hcall =>
    obtain ⟨first, next, hj, hout, hd⟩ := hcall
    obtain ⟨before, after, hs, hf⟩ := hj.split
    exact .inl ⟨first, next, hj, fun hfile => hout (through_within hc hs hf hfile), hout, hd⟩
  | inl hplaced =>
    refine .inr fun s hs => ?_
    have hwithin : s.Within (Source.ofBytes files) := by
      obtain rfl | ⟨suggestion, hm, rfl⟩ := hs
      · exact hplaced.span
      · exact hplaced.suggestions suggestion hm
    obtain ⟨i, source, hi, hin⟩ := hwithin
    have hsource := Report.source_number hsources hi hin.file
    obtain ⟨name, bytes, hfile, rfl⟩ := Source.getElem?_ofBytes hi
    refine ⟨name, bytes, ?_, ?_⟩
    · rw [hin.file, Int.toNat_natCast, hfile]
    · rw [hsource]
      exact ⟨rfl, Source.indexes_extent_iff rfl hin⟩

def shortPiece : List (Text × Bytes) := [("m.rms", [0xff, 0x0a, 0x78])]

theorem shortPiece_run : ∃ report,
    (Check.mk .conquerors Rule.defaults false (Source.ofBytes shortPiece)).run = .ok report ∧
      ∃ d ∈ report.diagnostics, d.span = ⟨0, 2, 3⟩ := by
  have hproblems : (Check.mk .conquerors Rule.defaults false (Source.ofBytes shortPiece)).problems.toOption.any
      (fun ds => ds.any fun d => d.span = ⟨0, 2, 3⟩) = true := by
    decide +kernel
  obtain ⟨ds, hds, hany⟩ := exists_eq_ok_iff.2 hproblems
  obtain ⟨d, hd, hspan⟩ := List.any_eq_true.1 hany
  refine ⟨_, by rw [run, hds]; rfl, d, List.mem_mergeSort.2 hd, of_decide_eq_true hspan⟩

theorem shortPiece_byteRange_iff : ∃ report,
    (Check.mk .conquerors Rule.defaults false (Source.ofBytes shortPiece)).run = .ok report ∧
      ∃ d ∈ report.diagnostics,
        (∃ first next, (Check.mk .conquerors Rule.defaults false (Source.ofBytes shortPiece)).Joins first next ∧
            first.file ≠ next.file ∧ ¬ (first.span.through next.span).Within (Source.ofBytes shortPiece) ∧
            d = (Rule.ArgTypes.splitCall first next).withCode Rule.argTypes.name) ∨
          ∀ s, s = d.span ∨ (∃ suggestion ∈ d.suggestions, s = suggestion.span) →
            ∃ name bytes, shortPiece[s.file.toNat]? = some (name, bytes) ∧
              let e := (report.source s).extent s.start s.stop
              e.name = name ∧ e.byteStart ≤ e.byteEnd ∧
              (e.Indexes bytes s ↔
                ∀ piece, .broken piece ∈ (Utf8.pieces none bytes).take s.stop.toNat → piece.length = 3) := by
  obtain ⟨report, hrun, d, hd, -⟩ := shortPiece_run
  exact ⟨report, hrun, d, hd, byteRange_iff hrun hd⟩

/-- The word is reported at the bytes 4 and 5 of a file of 3 bytes. -/
theorem shortPiece_past_end : ∃ report,
    (Check.mk .conquerors Rule.defaults false (Source.ofBytes shortPiece)).run = .ok report ∧
      ¬ ∀ d ∈ report.diagnostics, ∀ name bytes, shortPiece[d.span.file.toNat]? = some (name, bytes) →
        ((report.source d.span).extent d.span.start d.span.stop).byteEnd ≤ bytes.length := by
  obtain ⟨report, hrun, d, hd, hspan⟩ := shortPiece_run
  refine ⟨report, hrun, fun hall => ?_⟩
  have hsource : report.source d.span = ⟨0, "m.rms", Text.readReplacing [0xff, 0x0a, 0x78]⟩ :=
    Report.source_number (sources_of_run hrun) (i := 0) rfl (by rw [hspan]; rfl)
  have hle := hall d hd "m.rms" [0xff, 0x0a, 0x78] (by rw [hspan]; rfl)
  rw [hsource, hspan] at hle
  exact absurd hle (by decide)

end Check

end MapScript
