import MapScript.Text.Blank

/-! Numbers as scripts write them: a numeral, or a call of `rnd` with numerals as arguments. -/

namespace MapScript

namespace Numeral

def isDigit : Glyph → Bool
  | .char c => c.isDigit
  | .stray _ => false

def digitValue : Glyph → Nat
  | .char c => c.toNat - '0'.toNat
  | .stray _ => 0

def splitSign : Text → Bool × Text
  | .char '+' :: rest => (false, rest)
  | .char '-' :: rest => (true, rest)
  | t => (false, t)

def isNumeral (t : Text) : Bool :=
  let digits := (splitSign t).2
  !digits.isEmpty && digits.all isDigit

structure TooLong where
  digits : Nat
deriving DecidableEq, Repr

def maxDigits : Nat := 4300

def value (t : Text) : Int :=
  let (negative, digits) := splitSign t
  let size : Int := digits.foldl (fun n g => 10 * n + digitValue g) (0 : Nat)
  if negative then -size else size

def value? (t : Text) : Except TooLong (Option Int) :=
  if isNumeral t then
    let count := (splitSign t).2.length
    if count ≤ maxDigits then .ok (some (value t)) else .error ⟨count⟩
  else .ok none

/-- Why a number cannot be written, if it cannot: a numeral for it would have too many digits. -/
def tooLong? (n : Int) : Option TooLong :=
  let count := (Text.ofNat n.natAbs).length
  if count ≤ maxDigits then none else some ⟨count⟩

end Numeral

namespace Rnd

def opening : Text := "rnd("

def isCall (t : Text) : Bool :=
  t.startsWith opening && t.endsWith ")" &&
    (Text.fields (.char ',') (t.slice 4 (t.length - 1))).all Numeral.isNumeral

/-- The call that remains of a text with blanks when these are removed. -/
def joined? (t : Text) : Option Text :=
  let joined := Text.removeBlanks t
  if !isCall t && t.any Glyph.isBlank && isCall joined then some joined else none

def verdict (t : Text) : Bool × Option Text := (isCall t, joined? t)

/-- Whether a text is the start of a call of which the rest may follow after a blank. -/
def isUnfinished (t : Text) : Bool := (t.startsWith opening && t.endsWith ",") || t == "rnd"

end Rnd

end MapScript
