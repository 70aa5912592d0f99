import Mathlib.Algebra.GroupWithZero.Nat
import MapScript.Source

/-! Text and bytes agree. The pieces that bytes are read as are those bytes again, a text that keeps its stray
bytes is written as it was read, and bytes can be cut between any two pieces without a change in how either
part is read. -/

namespace MapScript

namespace Utf8

def Piece.bytes : Piece → Bytes
  | .char c => String.utf8EncodeChar c
  | .broken bytes => bytes

/-- A broken piece is at most three bytes, none of which is a character by itself. -/
def Piece.Fit : Piece → Prop
  | .char _ => True
  | .broken bytes => bytes ≠ [] ∧ bytes.length ≤ 3 ∧ ∀ b ∈ bytes, 0x80 ≤ b.toNat

def lastBytes : Nat → Nat → Bytes
  | 0, _ => []
  | m + 1, v => UInt8.ofNat (v / 64 ^ m % 64 + 0x80) :: lastBytes m v

/-- However a begun character goes on, its bytes so far are the first bytes of what it becomes. -/
structure Begun.Sound (p : Begun) : Prop where
  fit : (Piece.broken p.seen).Fit
  missing : 1 ≤ p.missing
  length : p.seen.length + p.missing ≤ 4
  low : 0x80 ≤ p.low
  high : p.high ≤ 0xbf
  encodes : ∀ v, (p.number * 64 + (p.low - 0x80)) * 64 ^ (p.missing - 1) ≤ v →
    v < (p.number * 64 + (p.high - 0x80) + 1) * 64 ^ (p.missing - 1) →
    String.utf8EncodeChar (Char.ofNat v) = p.seen ++ lastBytes p.missing v

inductive Lead.Reads (seen : Bytes) : Lead → Prop
  | whole {piece : Piece} (fit : piece.Fit) (bytes : piece.bytes = seen) : Reads seen (.whole piece)
  | begun {start : Begun} (sound : start.Sound) (bytes : start.seen = seen) : Reads seen (.begun start)

theorem val_ofNat {v : Nat} (h : v.isValidChar) : (Char.ofNat v).val.toNat = v := by
  rw [Char.ofNat, dif_pos h]
  exact UInt32.toNat_ofNatLT

theorem encode_two {v : Nat} (hlow : 0x80 ≤ v) (hhigh : v < 0x800) :
    String.utf8EncodeChar (Char.ofNat v) = UInt8.ofNat (v / 64 + 0xc0) :: lastBytes 1 v := by
  have hv : (Char.ofNat v).val.toNat = v := val_ofNat (.inl (by omega))
  rw [String.utf8EncodeChar, hv, if_neg (by omega), if_pos (by omega), Nat.mod_eq_of_lt (by omega : v / 64 < 32)]
  simp [lastBytes]

theorem encode_three {v : Nat} (hlow : 0x800 ≤ v) (hhigh : v < 0x10000) (h : v < 0xd800 ∨ 0xdfff < v) :
    String.utf8EncodeChar (Char.ofNat v) = UInt8.ofNat (v / 64 ^ 2 + 0xe0) :: lastBytes 2 v := by
  have hv : (Char.ofNat v).val.toNat = v := val_ofNat (h.imp id fun h => ⟨h, by omega⟩)
  rw [String.utf8EncodeChar, hv, if_neg (by omega), if_neg (by omega), if_pos (by omega),
    Nat.mod_eq_of_lt (by omega : v / 4096 < 16)]
  simp [lastBytes]

theorem encode_four {v : Nat} (hlow : 0x10000 ≤ v) (hhigh : v < 0x110000) :
    String.utf8EncodeChar (Char.ofNat v) = UInt8.ofNat (v / 64 ^ 3 + 0xf0) :: lastBytes 3 v := by
  have hv : (Char.ofNat v).val.toNat = v := val_ofNat (.inr ⟨by omega, by omega⟩)
  rw [String.utf8EncodeChar, hv, if_neg (by omega), if_neg (by omega), if_neg (by omega),
    Nat.mod_eq_of_lt (by omega : v / 262144 < 8)]
  simp [lastBytes]

/-- A byte begins a character if all numbers that its bits begin are written with it as the first byte. -/
theorem sound_first {b : UInt8} {mark number m low high : Nat}
    (hb : b.toNat = number + mark ∧ 0x80 ≤ b.toNat) (hm : 1 ≤ m ∧ m ≤ 3) (hrange : 0x80 ≤ low ∧ high ≤ 0xbf)
    (henc : ∀ v, (number * 64 + (low - 0x80)) * 64 ^ (m - 1) ≤ v →
      v < (number * 64 + (high - 0x80) + 1) * 64 ^ (m - 1) →
      String.utf8EncodeChar (Char.ofNat v) = UInt8.ofNat (v / 64 ^ m + mark) :: lastBytes m v) :
    (Begun.mk [b] number m low high).Sound := by
  refine ⟨⟨by simp, by simp, by simpa using hb.2⟩, hm.1, ?_, hrange.1, hrange.2, fun v hv hv' => ?_⟩
  · simp only [List.length_singleton]
    omega
  · have hdiv : v / 64 ^ m = number := by
      obtain rfl | rfl | rfl : m = 1 ∨ m = 2 ∨ m = 3 := by omega
      all_goals
        simp only [Nat.reduceSub, Nat.reducePow, Nat.mul_one] at hv hv' ⊢
        omega
    rw [henc v hv hv', hdiv, ← hb.1, UInt8.ofNat_toNat]
    rfl

theorem lead_reads (b : UInt8) : (lead b).Reads [b] := by
  have hb : b.toNat < 256 := b.toNat_lt
  unfold lead
  dsimp only
  split
  · next h =>
    refine .whole trivial ?_
    have hv : (Char.ofNat b.toNat).val.toNat = b.toNat := val_ofNat (.inl (by omega))
    rw [Piece.bytes, String.utf8EncodeChar, hv, if_pos (by omega), UInt8.ofNat_toNat]
  split
  · exact .whole ⟨by simp, by simp, by simp; omega⟩ rfl
  split
  · exact .begun (@sound_first b 0xc0 _ _ _ _ (by omega) (by omega) (by omega)
      fun v hv hv' => encode_two (by omega) (by omega)) rfl
  split
  · exact .begun (@sound_first b 0xe0 _ _ _ _ (by omega) (by omega) (by omega)
      fun v hv hv' => encode_three (by omega) (by omega) (by omega)) rfl
  split
  · exact .begun (@sound_first b 0xe0 _ _ _ _ (by omega) (by omega) (by omega)
      fun v hv hv' => encode_three (by omega) (by omega) (by omega)) rfl
  split
  · exact .begun (@sound_first b 0xe0 _ _ _ _ (by omega) (by omega) (by omega)
      fun v hv hv' => encode_three (by omega) (by omega) (by omega)) rfl
  split
  · exact .begun (@sound_first b 0xf0 _ _ _ _ (by omega) (by omega) (by omega)
      fun v hv hv' => encode_four (by omega) (by omega)) rfl
  split
  · exact .begun (@sound_first b 0xf0 _ _ _ _ (by omega) (by omega) (by omega)
      fun v hv hv' => encode_four (by omega) (by omega)) rfl
  split
  · exact .begun (@sound_first b 0xf0 _ _ _ _ (by omega) (by omega) (by omega)
      fun v hv hv' => encode_four (by omega) (by omega)) rfl
  · exact .whole ⟨by simp, by simp, by simp; omega⟩ rfl

theorem lastBytes_succ {b : UInt8} {number m v : Nat} (hb : 0x80 ≤ b.toNat ∧ b.toNat ≤ 0xbf)
    (hv : v / 64 ^ m = number * 64 + (b.toNat - 0x80)) : lastBytes (m + 1) v = b :: lastBytes m v := by
  have hbyte : v / 64 ^ m % 64 + 0x80 = b.toNat := by
    rw [hv]
    omega
  rw [lastBytes, hbyte, UInt8.ofNat_toNat]

theorem Begun.Sound.add {p : Begun} (hp : p.Sound) {b : UInt8} (hlow : p.low ≤ b.toNat) (hhigh : b.toNat ≤ p.high) :
    (p.add b).Reads (p.seen ++ [b]) := by
  obtain ⟨⟨hne, hlen, hseen⟩, hmissing, hlength, hplow, hphigh, hencodes⟩ := hp
  obtain ⟨seen, number, missing, low, high⟩ := p
  simp only at hne hlen hseen hmissing hlength hplow hphigh hencodes hlow hhigh
  obtain ⟨m, rfl⟩ : ∃ m, missing = m + 1 := ⟨missing - 1, by omega⟩
  rw [Nat.add_sub_cancel] at hencodes
  have hb : 0x80 ≤ b.toNat ∧ b.toNat ≤ 0xbf := by omega
  -- The numbers that are left have the bits of this byte in place.
  have hnext : ∀ v, (number * 64 + (b.toNat - 0x80)) * 64 ^ m ≤ v →
      v < (number * 64 + (b.toNat - 0x80) + 1) * 64 ^ m →
      String.utf8EncodeChar (Char.ofNat v) = seen ++ b :: lastBytes m v := by
    intro v hv hv'
    have hpos : 0 < 64 ^ m := Nat.pow_pos (by omega)
    have hdiv : v / 64 ^ m = number * 64 + (b.toNat - 0x80) := Nat.div_eq_of_lt_le hv hv'
    rw [← lastBytes_succ hb hdiv]
    refine hencodes v (Nat.le_trans (Nat.mul_le_mul_right _ (by omega)) hv) (Nat.lt_of_lt_of_le hv' ?_)
    exact Nat.mul_le_mul_right _ (by omega)
  unfold Begun.add
  dsimp only
  split
  · next h =>
    obtain rfl : m = 0 := by omega
    have hlast := hnext (number * 64 + (b.toNat - 0x80)) (by simp) (by simp)
    exact .whole trivial hlast
  · next h =>
    obtain ⟨k, rfl⟩ : ∃ k, m = k + 1 := ⟨m - 1, by omega⟩
    refine .begun ⟨⟨by simp, ?_, fun c hc => ?_⟩, by simp, ?_, Nat.le_refl _, Nat.le_refl _,
      fun v hv hv' => ?_⟩ rfl
    · simp only [List.length_append, List.length_singleton]
      omega
    · cases List.mem_append.1 hc with
      | inl hc => exact hseen c hc
      | inr hc => rw [List.mem_singleton.1 hc]; exact hb.1
    · simp only [List.length_append, List.length_singleton]
      omega
    · simp only [Nat.add_sub_cancel] at hv hv' ⊢
      rw [List.append_assoc]
      refine hnext v ?_ ?_
      · rw [Nat.pow_succ, Nat.mul_comm (64 ^ k), ← Nat.mul_assoc]
        simpa using hv
      · rw [Nat.pow_succ, Nat.mul_comm (64 ^ k), ← Nat.mul_assoc, Nat.add_mul]
        simpa [Nat.add_assoc] using hv'

def seen? (state : Option Begun) : Bytes := state.elim [] Begun.seen

def Lead.pieces (rest : Bytes) : Lead → List Piece
  | .whole piece => piece :: Utf8.pieces none rest
  | .begun start => Utf8.pieces (some start) rest

theorem pieces_lead (b : UInt8) (rest : Bytes) : pieces none (b :: rest) = (lead b).pieces rest := rfl

theorem pieces_in {p : Begun} {b : UInt8} (h : p.low ≤ b.toNat ∧ b.toNat ≤ p.high) (rest : Bytes) :
    pieces (some p) (b :: rest) = (p.add b).pieces rest := by
  rw [pieces, if_pos (by simpa using h)]
  rfl

theorem pieces_out {p : Begun} {b : UInt8} (h : ¬ (p.low ≤ b.toNat ∧ b.toNat ≤ p.high)) (rest : Bytes) :
    pieces (some p) (b :: rest) = .broken p.seen :: pieces none (b :: rest) := by
  rw [pieces_lead, pieces, if_neg (by simpa using h)]
  rfl

theorem pieces_spec {state : Option Begun} (hs : ∀ p ∈ state, p.Sound) (bytes : Bytes) :
    (∀ q ∈ pieces state bytes, q.Fit) ∧ (pieces state bytes).flatMap Piece.bytes = seen? state ++ bytes := by
  induction bytes generalizing state with
  | nil =>
    cases state with
    | none => simp [pieces, seen?]
    | some p => simpa [pieces, seen?, Piece.bytes] using (hs p rfl).fit
  | cons b rest ih =>
    have hstep : ∀ {l : Lead} {seen : Bytes}, l.Reads seen →
        (∀ q ∈ l.pieces rest, q.Fit) ∧ (l.pieces rest).flatMap Piece.bytes = seen ++ rest := by
      intro l seen hl
      cases hl with
      | @whole piece fit hbytes =>
        obtain ⟨hfit, heq⟩ := @ih none (by simp)
        exact ⟨by simpa [Lead.pieces] using ⟨fit, hfit⟩, by simp [Lead.pieces, heq, hbytes, seen?]⟩
      | @begun start sound hbytes =>
        obtain ⟨hfit, heq⟩ := @ih (some start) (by simpa using sound)
        exact ⟨hfit, by simp [Lead.pieces, heq, hbytes, seen?]⟩
    have hnone := hstep (lead_reads b)
    cases state with
    | none => exact hnone
    | some p =>
      by_cases hr : p.low ≤ b.toNat ∧ b.toNat ≤ p.high
      · have hin := hstep ((hs p rfl).add hr.1 hr.2)
        rw [pieces_in hr]
        exact ⟨hin.1, by simpa [seen?] using hin.2⟩
      · rw [pieces_out hr]
        refine ⟨fun q hq => ?_, ?_⟩
        · cases List.mem_cons.1 hq with
          | inl hq => exact hq ▸ (hs p rfl).fit
          | inr hq => exact hnone.1 q hq
        · rw [List.flatMap_cons]
          exact congrArg (p.seen ++ ·) hnone.2

theorem flatMap_bytes_pieces (bytes : Bytes) : (pieces none bytes).flatMap Piece.bytes = bytes :=
  (@pieces_spec none (by simp) bytes).2

theorem fit_of_mem_pieces {bytes : Bytes} {q : Piece} (h : q ∈ pieces none bytes) : q.Fit :=
  (@pieces_spec none (by simp) bytes).1 q h

theorem pieces_eq_nil {bytes : Bytes} (h : pieces none bytes = []) : bytes = [] := by
  rw [← flatMap_bytes_pieces bytes, h, List.flatMap_nil]

/-- After some of the pieces the bytes are read as if they stood alone, and those before them are read in the
same way whatever part of the rest follows. -/
theorem pieces_split {state : Option Begun} {bytes : Bytes} {front back : List Piece}
    (h : pieces state bytes = front ++ back) (hs : state = none ∨ front ≠ []) :
    ∃ xs ys, bytes = xs ++ ys ∧ ∀ more, more <+: ys → pieces state (xs ++ more) = front ++ pieces none more := by
  by_cases hfront : front = []
  · subst hfront
    obtain rfl := hs.resolve_right (by simp)
    exact ⟨[], bytes, rfl, fun more _ => rfl⟩
  clear hs
  induction bytes generalizing state front with
  | nil =>
    refine ⟨[], [], rfl, fun more hm => ?_⟩
    obtain rfl := List.prefix_nil.1 hm
    cases state with
    | none => exact absurd (List.append_eq_nil_iff.1 h.symm).1 hfront
    | some p =>
      cases front with
      | nil => exact absurd rfl hfront
      | cons q front =>
        obtain ⟨rfl, hnil⟩ := List.cons.inj h
        obtain ⟨rfl, -⟩ := List.append_eq_nil_iff.1 hnil.symm
        rfl
  | cons b rest ih =>
    -- A byte ends a piece or goes on with a character; either way the rest is split by the hypothesis.
    have hstep : ∀ {l : Lead} {front : List Piece}, l.pieces rest = front ++ back → front ≠ [] →
        ∃ xs ys, rest = xs ++ ys ∧ ∀ more, more <+: ys → l.pieces (xs ++ more) = front ++ pieces none more := by
      intro l front hl hne
      cases l with
      | begun start => exact ih hl hne
      | whole piece =>
        cases front with
        | nil => exact absurd rfl hne
        | cons q front =>
          obtain ⟨rfl, htail⟩ := List.cons.inj hl
          by_cases hmore : front = []
          · subst hmore
            exact ⟨[], rest, rfl, fun more _ => rfl⟩
          · obtain ⟨xs, ys, hbytes, hread⟩ := ih htail hmore
            exact ⟨xs, ys, hbytes, fun more hm => congrArg (piece :: ·) (hread more hm)⟩
    cases state with
    | none =>
      obtain ⟨xs, ys, rfl, hread⟩ := hstep h hfront
      exact ⟨b :: xs, ys, rfl, hread⟩
    | some p =>
      by_cases hr : p.low ≤ b.toNat ∧ b.toNat ≤ p.high
      · rw [pieces_in hr] at h
        obtain ⟨xs, ys, rfl, hread⟩ := hstep h hfront
        exact ⟨b :: xs, ys, rfl, fun more hm => by rw [List.cons_append, pieces_in hr, hread more hm]⟩
      · rw [pieces_out hr] at h
        cases front with
        | nil => exact absurd rfl hfront
        | cons q front =>
          obtain ⟨rfl, htail⟩ := List.cons.inj h
          by_cases hmore : front = []
          · -- The broken piece ends here, whether the byte that ends it follows or not.
            subst hmore
            refine ⟨[], b :: rest, rfl, fun more hm => ?_⟩
            cases more with
            | nil => rfl
            | cons c more =>
              obtain ⟨rfl, -⟩ := List.cons_prefix_cons.1 hm
              exact pieces_out hr more
          · obtain ⟨xs, ys, rfl, hread⟩ := hstep htail hmore
            exact ⟨b :: xs, ys, rfl, fun more hm => by
              rw [List.cons_append, pieces_out hr, pieces_lead, hread more hm, List.cons_append]⟩

end Utf8

theorem Utf8.encode_kept {q : Piece} (h : q.Fit) : Text.encode q.kept = q.bytes := by
  cases q with
  | char c => simp [Text.encode, Piece.kept, Glyph.bytes, Piece.bytes]
  | broken bytes =>
    obtain ⟨-, -, hhigh⟩ := h
    have hone : ∀ b ∈ bytes, (strayOf b).bytes = [b] := by
      intro b hb
      have hlow := hhigh b hb
      have hlt := b.toNat_lt
      have hval : (Fin.ofNat 128 (b.toNat - 0x80)).val = b.toNat - 0x80 := Nat.mod_eq_of_lt (by omega)
      rw [strayOf, Glyph.ofStray, Glyph.bytes, hval, Nat.add_sub_cancel' hlow, UInt8.ofNat_toNat]
    rw [Text.encode, Piece.kept, List.flatMap_map, List.flatMap_def, List.map_congr_left hone, ← List.flatMap_def,
      List.flatMap_singleton', Piece.bytes]

namespace Text

theorem clamp_of_le {t : Text} {i : Int} (h : 0 ≤ i) (hle : i ≤ t.length) : t.clamp i = i.toNat := by
  rw [clamp, if_neg (by omega), Nat.min_eq_left (by omega)]

theorem take_append_slice (t : Text) {i j : Nat} (h : i ≤ j) : t.take i ++ t.slice i j = t.take j := by
  have htake : t.take i = (t.take j).take i := by rw [List.take_take, Nat.min_eq_left h]
  rw [htake, slice, List.take_append_drop]

theorem slice_append_drop (t : Text) {i j : Nat} (h : i ≤ j) : t.slice i j ++ t.drop j = t.drop i := by
  rw [slice, List.drop_take, ← Nat.add_sub_cancel' h, ← List.drop_drop, Nat.add_sub_cancel_left,
    List.take_append_drop]

theorem encode_append (s t : Text) : encode (s ++ t) = encode s ++ encode t := List.flatMap_append

theorem encode_readKeeping (bytes : Bytes) : encode (readKeeping bytes) = bytes := by
  have hpiece : ∀ q ∈ Utf8.pieces none bytes, encode q.kept = q.bytes := fun q hq =>
    Utf8.encode_kept (Utf8.fit_of_mem_pieces hq)
  calc
    encode (readKeeping bytes) = (Utf8.pieces none bytes).flatMap fun q => encode q.kept := List.flatMap_assoc
    _ = (Utf8.pieces none bytes).flatMap Utf8.Piece.bytes := by
      rw [List.flatMap_def, List.map_congr_left hpiece, ← List.flatMap_def]
    _ = bytes := Utf8.flatMap_bytes_pieces bytes

end Text

namespace Source

theorem byteOffset_natCast (source : Source) {i : Nat} (h : i ≤ source.text.length) :
    source.byteOffset i = (Text.encode (source.text.take i)).length := by
  rw [byteOffset, Text.clamp_of_le (by omega) (by omega), Int.toNat_natCast]

theorem byteOffset_add (source : Source) {i j : Nat} (hij : i ≤ j) (hj : j ≤ source.text.length) :
    source.byteOffset j = source.byteOffset i + (Text.encode (source.text.slice i j)).length := by
  rw [byteOffset_natCast source hj, byteOffset_natCast source (by omega), ← Text.take_append_slice _ hij,
    Text.encode_append, List.length_append]

end Source

end MapScript
