import MapScript.Atom.Basic

/-! Text that is being laid out, as the pieces written so far. -/

namespace MapScript.Layout

structure Options where
  tabSize : Int := 2
  useSpaces : Bool := true
  alignArgs : Bool := true
  lineEnding : Text := "\r\n"

/-- What has been written: its pieces, the last one first, whether a line has been begun and still needs its
indentation, and the atom that was written last. A line ending is always a piece of its own. -/
structure Output where
  pieces : List Text := []
  atLineStart : Bool := false
  last : Option Atom := none

def spaces (n : Int) : Text := Text.ofChars n.toNat ' '

def Options.indentation (o : Options) (indent : Nat) : Text :=
  if o.useSpaces then spaces (indent * o.tabSize) else Text.ofChars indent '\t'

namespace Output

def text (out : Output) : Text := out.pieces.reverse.flatten

def raw (out : Output) (t : Text) : Output := { out with pieces := t :: out.pieces }

def newline (o : Options) (out : Output) : Output :=
  { out with pieces := o.lineEnding :: out.pieces, atLineStart := true }

def removeNewline (o : Options) (out : Output) : Output :=
  match out.pieces with
  | piece :: rest =>
    if piece = o.lineEnding then { out with pieces := rest, atLineStart := false } else out
  | [] => out

def write (o : Options) (indent : Nat) (out : Output) (t : Text) : Output :=
  if out.atLineStart then
    { out with pieces := t :: o.indentation indent :: out.pieces, atLineStart := false }
  else out.raw t

def statement (o : Options) (indent : Nat) (out : Output) (words : List Text) : Output :=
  (out.write o indent (Text.join " " words)).newline o

def setLast (out : Output) (atom : Option Atom) : Output := { out with last := atom }

def ending (length : Nat) : List Text → Text
  | [] => []
  | piece :: rest =>
    if length ≤ piece.length then piece else ending (length - piece.length) rest ++ piece

def endsWith (out : Output) (t : Text) : Bool := Text.endsWith (ending t.length out.pieces) t

/-- Ends a line that would otherwise not be followed by an empty one. -/
def separate (o : Options) (out : Output) : Output :=
  if out.endsWith (o.lineEnding ++ o.lineEnding) then out else out.newline o

end Output

end MapScript.Layout
