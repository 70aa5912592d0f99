import MapScript.Settings.Value

/-! Which value a word without quotes stands for. -/

namespace MapScript.Settings

namespace Scalar

def nulls : List Text := ["", "~", "null", "Null", "NULL"]

def yes : List Text := ["yes", "Yes", "YES", "true", "True", "TRUE", "on", "On", "ON"]

def no : List Text := ["no", "No", "NO", "false", "False", "FALSE", "off", "Off", "OFF"]

def reserved : List Text := ["=", "<<"]

def digit? (base : Nat) (g : Glyph) : Option Nat :=
  match ("0123456789abcdef" : Text).idxOf? g.lower with
  | some n => if n < base then some n else none
  | none => none

def isFigures (base : Nat) (t : Text) : Bool :=
  t.all fun g => g == .char '_' || (digit? base g).isSome

def figures (base : Nat) (t : Text) : Nat := (t.filterMap (digit? base)).foldl (base * · + ·) 0

def figureCount (t : Text) : Nat := t.countP (· != .char '_')

def decimal (t : Text) : Except Fault Nat :=
  if figureCount t ≤ Numeral.maxDigits then .ok (figures 10 t) else .error (.tooLong ⟨figureCount t⟩)

def based (base : Nat) (t : Text) : Except Fault Nat :=
  if figureCount t = 0 then .error (.noDigits base) else .ok (figures base t)

def isWhole (t : Text) : Bool := t.head?.any Numeral.isDigit && isFigures 10 t

def isSixtieth : Text → Bool
  | [a] => Numeral.isDigit a
  | [a, b] => (digit? 6 a).isSome && Numeral.isDigit b
  | _ => false

def sixties? (t : Text) : Option (Text × List Text) :=
  match Text.fields (.char ':') t with
  | first :: second :: rest =>
    if isWhole first && (second :: rest).all isSixtieth then some (first, second :: rest) else none
  | _ => none

/-- A whole number without a sign: decimal, binary, octal or hexadecimal by its first characters, or parts
of sixty. -/
def natural? : Text → Option (Except Fault Nat)
  | [.char '0'] => some (.ok 0)
  | .char '0' :: .char 'b' :: rest => if !rest.isEmpty && isFigures 2 rest then some (based 2 rest) else none
  | .char '0' :: .char 'x' :: rest => if !rest.isEmpty && isFigures 16 rest then some (based 16 rest) else none
  | .char '0' :: rest => if isFigures 8 rest then some (.ok (figures 8 rest)) else none
  | t =>
    if isWhole t then some (decimal t)
    else (sixties? t).map fun (first, rest) => do
      return rest.foldl (fun n part => 60 * n + figures 10 part) (← decimal first)

def integer? (t : Text) : Option (Except Fault Int) :=
  let (negative, size) := Numeral.splitSign t
  (natural? size).map fun n => n.map fun n => if negative then -(n : Int) else n

def exponent? : Text → Option Int
  | [] => some 0
  | mark :: sign :: digits =>
    if (mark == .char 'e' || mark == .char 'E') && !digits.isEmpty && digits.all Numeral.isDigit then
      if sign = .char '-' then some (-(figures 10 digits : Int))
      else if sign = .char '+' then some (figures 10 digits)
      else none
    else none
  | _ => none

def pointed (whole part : Text) (exponent : Int) : Binary64 :=
  .ofDecimal false (figures 10 (whole ++ part)) (exponent - figureCount part)

/-- Parts of sixty, of which the last has a point; rounded part by part from the last one on. -/
def pointedSixties (first : Text) (rest : List Text) (part : Text) : Binary64 :=
  let parts := (rest.dropLast.reverse ++ [first]).map fun t => Binary64.ofDecimal false (figures 10 t) 0
  let last := pointed (rest.getLastD []) part 0
  (parts.foldl (fun (sum, base) x => (Binary64.add sum (.mul x (.ofNat base)), 60 * base))
    (last, 60)).1

/-- A number with a point and without a sign. Where `bare` holds, digits may be missing in front of the
point. -/
def fraction? (bare : Bool) (t : Text) : Option Binary64 :=
  match Text.cut? "." t with
  | none => none
  | some (whole, rest) =>
    let part := rest.takeWhile fun g => g == .char '_' || Numeral.isDigit g
    match exponent? (rest.drop part.length), sixties? whole with
    | some exponent, sixties =>
      if isWhole whole || (bare && whole.isEmpty && isWhole part) then some (pointed whole part exponent)
      else match sixties with
        | some (first, others) =>
          if part.length = rest.length then some (pointedSixties first others part) else none
        | none => none
    | none, _ => none

def infinities : List Text := [".inf", ".Inf", ".INF"]

def undefineds : List Text := [".nan", ".NaN", ".NAN"]

/-- A number with a point. One without digits in front of the point has no sign. -/
def float? (t : Text) : Option Binary64 :=
  let (negative, size) := Numeral.splitSign t
  if undefineds.contains t then some .undefined
  else if infinities.contains size then some (.infinite negative)
  else (fraction? (size.length = t.length) size).map (·.withSign negative)

end Scalar

def Value.ofPlain (t : Text) : Except Scalar.Fault Value :=
  if Scalar.nulls.contains t then .ok .null
  else if Scalar.yes.contains t then .ok (.bool true)
  else if Scalar.no.contains t then .ok (.bool false)
  else if Scalar.reserved.contains t then .error .reserved
  else match Scalar.float? t, Scalar.integer? t, Moment.ofText? t with
    | some x, _, _ => .ok (.float x)
    | none, some n, _ => do return .int (← n)
    | none, none, some m =>
      match m.fault? with
      | some fault => .error (.moment fault)
      | none => .ok (.moment m)
    | none, none, none => .ok (.text t)

end MapScript.Settings
