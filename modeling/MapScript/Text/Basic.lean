/-! Script text. A position holds a character or, where a file is not valid UTF-8, a byte that belongs to no
character, so that every file has a text and every text can be written back byte for byte. Offsets and
lengths count positions. -/

namespace MapScript

/-- A character, or the byte `0x80 + b` that belongs to no character. -/
inductive Glyph where
  | char (c : Char)
  | stray (b : Fin 128)
deriving DecidableEq, Repr, Inhabited

abbrev Text := List Glyph

namespace Glyph

/-- The number that orders glyphs; stray bytes stand between the characters below and above `0xe000`. -/
def code : Glyph → Nat
  | .char c => c.toNat
  | .stray b => 0xdc80 + b.val

def ofStray (n : Nat) : Glyph := .stray (Fin.ofNat 128 n)

/-- The glyph of a number; the halves of characters beyond sixteen bits have none. -/
def ofCode? (n : Nat) : Option Glyph :=
  if n.isValidChar then some (.char (Char.ofNat n))
  else if 0xdc80 ≤ n && n < 0xdd00 then some (ofStray (n - 0xdc80))
  else none

def char? : Glyph → Option Char
  | .char c => some c
  | .stray _ => none

/-- The only characters with an ASCII lowercase form other than themselves are `A` to `Z` and the Kelvin
sign; all others are kept, which is enough to compare a text with a lowercase ASCII name. -/
def lower : Glyph → Glyph
  | .char c => if c = '\u212a' then .char 'k' else .char c.toLower
  | .stray b => .stray b

end Glyph

namespace Text

def ofString (s : String) : Text := s.toList.map Glyph.char

instance : Coe String Text := ⟨ofString⟩

def toString? (t : Text) : Option String := (t.mapM Glyph.char?).map String.ofList

def ofNat (n : Nat) : Text := ofString n.repr

def ofInt : Int → Text
  | .ofNat n => ofNat n
  | .negSucc n => .char '-' :: ofNat (n + 1)

def lower (t : Text) : Text := t.map Glyph.lower

def startsWith (t start : Text) : Bool := start.isPrefixOf t

def endsWith (t finish : Text) : Bool := finish.isSuffixOf t

def slice (t : Text) (start stop : Nat) : Text := (t.take stop).drop start

/-- An offset that counts from the end when it is negative, kept inside the text. -/
def clamp (t : Text) (offset : Int) : Nat :=
  if offset < 0 then (t.length + offset).toNat else min offset.toNat t.length

/-- The pieces between the separators; there is one more of them than separators. -/
def fields (separator : Glyph) : Text → List Text
  | [] => [[]]
  | g :: rest =>
    if g = separator then [] :: fields separator rest
    else match fields separator rest with
      | [] => [[g]]
      | field :: more => (g :: field) :: more

def cut? (mark : Text) : Text → Option (Text × Text)
  | [] => if mark.isEmpty then some ([], []) else none
  | g :: rest =>
    if mark.isPrefixOf (g :: rest) then some ([], (g :: rest).drop mark.length)
    else (cut? mark rest).map fun (before, after) => (g :: before, after)

def join (separator : Text) (parts : List Text) : Text := List.intercalate separator parts

def ofChars (n : Nat) (c : Char) : Text := List.replicate n (.char c)

def padRight (t : Text) (width : Nat) : Text := t ++ ofChars (width - t.length) ' '

def le : Text → Text → Bool
  | [], _ => true
  | _ :: _, [] => false
  | a :: s, b :: t => if a.code = b.code then le s t else a.code < b.code

def sort (ts : List Text) : List Text := ts.mergeSort le

end Text

end MapScript
