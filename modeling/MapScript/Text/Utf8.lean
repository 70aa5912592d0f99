import MapScript.Text.Basic

/-! Text and bytes. Reading cuts the bytes into characters and broken pieces, where a broken piece is the
longest start of a character that does not go on as one; the two ways of reading differ only in what stands
for a broken piece. Writing gives each stray byte back. -/

namespace MapScript

abbrev Bytes := List UInt8

namespace Utf8

/-- A character that has begun: its bytes so far, the number they make up, how many bytes are missing, and
the range of the next one. -/
structure Begun where
  seen : Bytes
  number : Nat
  missing : Nat
  low : Nat
  high : Nat

inductive Piece where
  | char (c : Char)
  | broken (bytes : Bytes)

inductive Lead where
  | whole (piece : Piece)
  | begun (start : Begun)

def lead (b : UInt8) : Lead :=
  let n := b.toNat
  if n < 0x80 then .whole (.char (Char.ofNat n))
  else if n < 0xc2 then .whole (.broken [b])
  else if n < 0xe0 then .begun ⟨[b], n - 0xc0, 1, 0x80, 0xbf⟩
  else if n = 0xe0 then .begun ⟨[b], 0, 2, 0xa0, 0xbf⟩
  else if n = 0xed then .begun ⟨[b], 0xd, 2, 0x80, 0x9f⟩
  else if n < 0xf0 then .begun ⟨[b], n - 0xe0, 2, 0x80, 0xbf⟩
  else if n = 0xf0 then .begun ⟨[b], 0, 3, 0x90, 0xbf⟩
  else if n < 0xf4 then .begun ⟨[b], n - 0xf0, 3, 0x80, 0xbf⟩
  else if n = 0xf4 then .begun ⟨[b], 4, 3, 0x80, 0x8f⟩
  else .whole (.broken [b])

def Begun.add (p : Begun) (b : UInt8) : Lead :=
  let number := p.number * 64 + (b.toNat - 0x80)
  if p.missing ≤ 1 then .whole (.char (Char.ofNat number))
  else .begun ⟨p.seen ++ [b], number, p.missing - 1, 0x80, 0xbf⟩

def pieces : Option Begun → Bytes → List Piece
  | none, [] => []
  | some p, [] => [.broken p.seen]
  | none, b :: rest =>
    match lead b with
    | .whole piece => piece :: pieces none rest
    | .begun q => pieces (some q) rest
  | some p, b :: rest =>
    if p.low ≤ b.toNat && b.toNat ≤ p.high then
      match p.add b with
      | .whole piece => piece :: pieces none rest
      | .begun q => pieces (some q) rest
    else
      .broken p.seen ::
        match lead b with
        | .whole piece => piece :: pieces none rest
        | .begun q => pieces (some q) rest

def strayOf (b : UInt8) : Glyph := .ofStray (b.toNat - 0x80)

def Piece.replaced : Piece → Text
  | .char c => [.char c]
  | .broken _ => [.char '\ufffd']

def Piece.kept : Piece → Text
  | .char c => [.char c]
  | .broken bytes => bytes.map strayOf

end Utf8

namespace Text

/-- Reads bytes for display; the bytes of a broken piece are lost. -/
def readReplacing (bytes : Bytes) : Text := (Utf8.pieces none bytes).flatMap Utf8.Piece.replaced

/-- Reads bytes so that `encode` gives them back. -/
def readKeeping (bytes : Bytes) : Text := (Utf8.pieces none bytes).flatMap Utf8.Piece.kept

end Text

def Glyph.bytes : Glyph → Bytes
  | .char c => String.utf8EncodeChar c
  | .stray b => [UInt8.ofNat (0x80 + b.val)]

def Text.encode (t : Text) : Bytes := t.flatMap Glyph.bytes

end MapScript
