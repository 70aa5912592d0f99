import MapScript.Path
import MapScript.Span
import MapScript.Text.Quoted
import MapScript.Text.Utf8

/-! Named source texts, and the lines, columns and bytes of their offsets. Lines and columns count from
zero; lines end at line feeds only. -/

namespace MapScript

structure Source where
  file : Int
  name : Text
  text : Text

structure Extent where
  name : Text
  line : Nat
  column : Nat
  endLine : Nat
  endColumn : Nat
  byteStart : Nat
  byteEnd : Nat

namespace Text

def lineFeed : Glyph := .char '\n'

def afterFeeds (pos : Nat) : Text → List Nat
  | [] => []
  | g :: rest =>
    if g = lineFeed then (pos + 1) :: afterFeeds (pos + 1) rest else afterFeeds (pos + 1) rest

def lineStarts (t : Text) : List Nat := 0 :: afterFeeds 0 t

/-- How many of the numbers are at most `x`, when these are the first ones, by halving the part from `low` to `high`. -/
def bisect (numbers : List Nat) (x low high : Nat) : Nat :=
  if low < high then
    let middle := (low + high) / 2
    if numbers.getD middle 0 ≤ x then bisect numbers x (middle + 1) high else bisect numbers x low middle
  else low
termination_by high - low

/-- The line and the column of an offset; offsets outside of the text count as its nearest end. -/
def position (t : Text) (offset : Int) : Nat × Nat :=
  let starts := lineStarts t
  let place := (max 0 (min offset t.length)).toNat
  let line := bisect starts place 0 starts.length - 1
  (line, place - starts.getD line 0)

end Text

namespace Source

def describe (s : Source) : Text :=
  "SourceFile(" ++ Text.ofInt s.file ++ ", " ++ Text.quoted s.name ++ ")"

def lineCount (s : Source) : Nat := (Text.lineStarts s.text).length

def isPacked (s : Source) : Bool := (Path.ofText s.name).name.startsWith "ZR@"

def position (s : Source) (offset : Int) : Nat × Nat := Text.position s.text offset

/-- Where a line starts; a negative number counts lines from the end. -/
def lineStart? (s : Source) (line : Int) : Option Nat :=
  let starts := Text.lineStarts s.text
  let index := if line < 0 then starts.length + line else line
  if index < 0 then none else starts[index.toNat]?

/-- A line without its end, which is one place before the start of the next. -/
def lineText? (s : Source) (line : Int) : Option Text :=
  (s.lineStart? line).map fun start =>
    let stop := match s.lineStart? (line + 1) with
      | some next => s.text.clamp (next - 1)
      | none => s.text.length
    ((s.text.slice start stop).reverse.dropWhile (· == .char '\r')).reverse

inductive NoLine where
  | outside
  | tooFar
deriving DecidableEq, Repr

def NoLine.message : NoLine → Text
  | .outside => "list index out of range"
  | .tooFar => Index.message

def line (s : Source) (n : Int) : Except NoLine (Nat × Text) :=
  match s.lineStart? n, s.lineText? n with
  | some start, some text => .ok (start, text)
  | _, _ => .error (if Index.fits n then .outside else .tooFar)

def byteOffset (s : Source) (offset : Int) : Nat :=
  (Text.encode (s.text.take (s.text.clamp offset))).length

def extent (s : Source) (start stop : Int) : Extent :=
  let (line, column) := s.position start
  let (endLine, endColumn) := s.position stop
  ⟨s.name, line, column, endLine, endColumn, s.byteOffset start, s.byteOffset stop⟩

def number (sources : List (Text × Text)) : List Source :=
  sources.mapIdx fun i (name, text) => ⟨i, name, text⟩

end Source

end MapScript
