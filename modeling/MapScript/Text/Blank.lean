import MapScript.Text.Run

/-! Blank characters and line breaks. -/

namespace MapScript

namespace Glyph

def blankRuns : List Run :=
  [⟨0x0009, 0x000d, 1⟩, ⟨0x001c, 0x0020, 1⟩, ⟨0x0085, 0x0085, 1⟩, ⟨0x00a0, 0x00a0, 1⟩,
   ⟨0x1680, 0x1680, 1⟩, ⟨0x2000, 0x200a, 1⟩, ⟨0x2028, 0x2029, 1⟩, ⟨0x202f, 0x202f, 1⟩,
   ⟨0x205f, 0x205f, 1⟩, ⟨0x3000, 0x3000, 1⟩]

def isBlank : Glyph → Bool
  | .char c => Run.cover blankRuns c.toNat
  | .stray _ => false

def lineBreakRuns : List Run :=
  [⟨0x000a, 0x000d, 1⟩, ⟨0x001c, 0x001e, 1⟩, ⟨0x0085, 0x0085, 1⟩, ⟨0x2028, 0x2029, 1⟩]

def isLineBreak : Glyph → Bool
  | .char c => Run.cover lineBreakRuns c.toNat
  | .stray _ => false

end Glyph

namespace Text

def isBlank (t : Text) : Bool := t.all Glyph.isBlank

def trimLeft (t : Text) : Text := t.dropWhile Glyph.isBlank

def trimRight (t : Text) : Text := (t.reverse.dropWhile Glyph.isBlank).reverse

def trim (t : Text) : Text := trimRight (trimLeft t)

def removeBlanks (t : Text) : Text := t.filter fun g => !g.isBlank

/-- Lines ended by any line break; a line feed right after a carriage return belongs to the same break.
`afterReturn` says that a carriage return came just before, `line` holds the current line backwards. -/
def breakLines (afterReturn : Bool) (line : Text) : Text → List Text
  | [] => if line.isEmpty then [] else [line.reverse]
  | g :: rest =>
    if g = .char '\n' && afterReturn then breakLines false line rest
    else if g.isLineBreak then line.reverse :: breakLines (g == .char '\r') [] rest
    else breakLines false (g :: line) rest

def anyLines (t : Text) : List Text := breakLines false [] t

/-- The lines of a text, split at line feeds only and without a carriage return at their ends; a line feed
at the end starts no further line. -/
def feedLines (t : Text) : List Text :=
  if t.isEmpty then []
  else
    let pieces := fields (.char '\n') t
    let lines := if endsWith t "\n" then pieces.dropLast else pieces
    lines.map fun line => if endsWith line "\r" then line.dropLast else line

end Text

end MapScript
