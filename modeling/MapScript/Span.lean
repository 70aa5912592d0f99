import MapScript.Text.Basic

/-! Ranges of a file's text. Files are numbered; bounds are offsets, and a range moved by some amount may end
up anywhere, so all three are integers. -/

namespace MapScript

namespace Index

/-- Places are counted with numbers of sixty-four bits with a sign. -/
def bound : Nat := Nat.pow 2 63

def fits (n : Int) : Bool := -bound ≤ n && n < bound

def message : Text := "cannot fit 'int' into an index-sized integer"

end Index

structure Span where
  file : Int
  start : Int
  stop : Int
deriving DecidableEq, Repr, Inhabited

namespace Span

def shift (s : Span) (offset : Int) : Span := ⟨s.file, s.start + offset, s.stop + offset⟩

def through (s other : Span) : Span := ⟨s.file, s.start, other.stop⟩

/-- Why a range has no length: it ends before it starts, or too far behind its start. -/
inductive NoLength where
  | backwards
  | tooLong
deriving DecidableEq, Repr

def NoLength.message : NoLength → Text
  | .backwards => "__len__() should return >= 0"
  | .tooLong => Index.message

def length (s : Span) : Except NoLength Nat :=
  let n := s.stop - s.start
  if n < 0 then .error .backwards else if Index.fits n then .ok n.toNat else .error .tooLong

def bounds (s : Span) : Text := Text.ofInt s.start ++ ".." ++ Text.ofInt s.stop

def describe (s : Span) : Text :=
  "SourceLocation(" ++ Text.ofInt s.file ++ ", " ++ s.bounds ++ ")"

def le (s t : Span) : Bool := s.file < t.file || (s.file == t.file && s.start ≤ t.start)

end Span

end MapScript
