/-! Binary numbers of fifty-three digits, and how exact numbers are rounded to them. -/

namespace MapScript

/-- A finite number is `mantissa * 2 ^ scale / 2 ^ 1074`; zero has a sign too. -/
inductive Binary64 where
  | finite (negative : Bool) (mantissa scale : Nat)
  | infinite (negative : Bool)
  | undefined
deriving DecidableEq, Repr

namespace Binary64

def places : Nat := 1074

def roundDiv (num den : Nat) : Nat :=
  let below := num / den
  let rest := 2 * (num % den)
  if den < rest || (rest = den && below % 2 = 1) then below + 1 else below

/-- Packs a mantissa of at most fifty-three digits, or one that was rounded up to the next power of two. -/
def pack (negative : Bool) (mantissa scale : Nat) : Binary64 :=
  let (mantissa, scale) :=
    if mantissa = Nat.pow 2 53 then (Nat.pow 2 52, scale + 1) else (mantissa, scale)
  if scale ≤ 2045 then .finite negative mantissa scale else .infinite negative

def ofRatio (negative : Bool) (num den : Nat) : Binary64 :=
  let units := num * Nat.pow 2 places
  let scale := Nat.log2 (units / den) - 52
  pack negative (roundDiv units (den * Nat.pow 2 scale)) scale

/-- The number nearest to `digits * 10 ^ exponent`. What is beyond all numbers or below the finest step by
far is told by its length. -/
def ofDecimal (negative : Bool) (digits : Nat) (exponent : Int) : Binary64 :=
  let top := (Nat.toDigits 10 digits).length + exponent
  if digits = 0 || top < -400 then .finite negative 0 0
  else if 400 < top then .infinite negative
  else ofRatio negative (digits * Nat.pow 10 exponent.toNat) (Nat.pow 10 (-exponent).toNat)

def ofNat (n : Nat) : Binary64 := ofRatio false n 1

def steps? : Binary64 → Option Nat
  | .finite _ mantissa scale => some (mantissa * Nat.pow 2 scale)
  | _ => none

def add (x y : Binary64) : Binary64 :=
  match x.steps?, y.steps? with
  | some a, some b => ofRatio false (a + b) (Nat.pow 2 places)
  | _, _ => .infinite false

def mul (x y : Binary64) : Binary64 :=
  match x.steps?, y.steps? with
  | some a, some b => ofRatio false (a * b) (Nat.pow 2 (2 * places))
  | _, _ => .infinite false

def withSign (negative : Bool) : Binary64 → Binary64
  | .finite _ mantissa scale => .finite negative mantissa scale
  | .infinite _ => .infinite negative
  | .undefined => .undefined

def isZero : Binary64 → Bool
  | .finite _ mantissa _ => mantissa = 0
  | _ => false

def toInt? : Binary64 → Option Int
  | .finite negative mantissa scale =>
    let steps := mantissa * Nat.pow 2 scale
    let whole := steps / Nat.pow 2 places
    if steps % Nat.pow 2 places = 0 then some (if negative then -whole else whole) else none
  | _ => none

end Binary64

end MapScript
