import MapScript.Binary64.Basic
import MapScript.Text.Basic

/-! Binary numbers in decimal digits: the fewest that are read back as the same number, and of those the
nearest. -/

namespace MapScript.Binary64

structure Decimal where
  digits : Nat
  exponent : Int
deriving DecidableEq, Repr

/-- The numbers that round to a binary number lie between two bounds, and the bounds belong to them if the
mantissa is even. All is in quarters of the finest step. -/
structure Interval where
  value : Nat
  low : Nat
  high : Nat
  closed : Bool

/-- Below a power of two the next number is half as far away as above it. -/
def interval (mantissa scale : Nat) : Interval :=
  let step := Nat.pow 2 scale
  let value := 4 * mantissa * step
  { value
    low := value - (if mantissa = Nat.pow 2 52 && 0 < scale then step else 2 * step)
    high := value + 2 * step
    closed := mantissa % 2 = 0 }

def unit : Nat := Nat.pow 2 (places + 2)

namespace Interval

def sides (d : Decimal) (quarters : Nat) : Nat × Nat :=
  (d.digits * Nat.pow 10 d.exponent.toNat * unit, quarters * Nat.pow 10 (-d.exponent).toNat)

def contains (i : Interval) (d : Decimal) : Bool :=
  let (x, low) := sides d i.low
  let (_, high) := sides d i.high
  (low < x || (i.closed && x = low)) && (x < high || (i.closed && x = high))

def topExponent (i : Interval) : Int :=
  if unit ≤ i.value then (Nat.toDigits 10 (i.value / unit)).length - 1
  else
    match (List.range 400).find? fun k => unit ≤ i.value * Nat.pow 10 k with
    | some k => -k
    | none => -400

/-- The decimal number on a grid that is nearest to the value, if one of the two next to it belongs to the
interval. Of two at the same distance the even one is taken. -/
def onGrid? (i : Interval) (exponent : Int) : Option Decimal :=
  let size := i.value * Nat.pow 10 (-exponent).toNat
  let grid := Nat.pow 10 exponent.toNat * unit
  let below : Decimal := ⟨size / grid, exponent⟩
  let above : Decimal := ⟨size / grid + 1, exponent⟩
  match i.contains below, i.contains above with
  | true, true => some ⟨roundDiv size grid, exponent⟩
  | true, false => some below
  | false, true => some above
  | false, false => none

/-- Seventeen digits are always enough. -/
def shortest (i : Interval) : Decimal :=
  let top := i.topExponent
  ((List.range 17).findSome? fun n : Nat => i.onGrid? (top - n)).getD ⟨0, 0⟩

end Interval

def Decimal.figures (d : Decimal) : Text × Int :=
  let digits := Text.ofNat d.digits
  ((digits.reverse.dropWhile (· == .char '0')).reverse, d.exponent + digits.length - 1)

/-- Numbers from a tenthousandth on and below ten to the sixteenth have their digits around the point, and
at least one after it; others have one digit in front of the point and an exponent of two digits or more. -/
def Decimal.text (d : Decimal) : Text :=
  let (digits, top) := d.figures
  if top < -4 || 16 ≤ top then
    let size := Text.ofNat top.natAbs
    let fraction : Text := if digits.length ≤ 1 then [] else "." ++ digits.drop 1
    digits.take 1 ++ fraction ++ (if top < 0 then "e-" else "e+") ++ Text.ofChars (2 - size.length) '0'
      ++ size
  else if top < 0 then "0." ++ Text.ofChars (top.natAbs - 1) '0' ++ digits
  else
    let whole := top.toNat + 1
    let fraction : Text := if digits.length ≤ whole then "0" else digits.drop whole
    digits.take whole ++ Text.ofChars (whole - digits.length) '0' ++ "." ++ fraction

def text : Binary64 → Text
  | .finite negative mantissa scale =>
    let size : Text := if mantissa = 0 then "0.0" else (interval mantissa scale).shortest.text
    if negative then "-" ++ size else size
  | .infinite negative => if negative then "-inf" else "inf"
  | .undefined => "nan"

end MapScript.Binary64
