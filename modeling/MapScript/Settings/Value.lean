import MapScript.Binary64.Shortest
import MapScript.Settings.Moment
import MapScript.Text.Flaw
import MapScript.Text.Quoted

/-! The values that a settings file can hold, and why one may hold none. -/

namespace MapScript.Settings

inductive Value where
  | null
  | bool (b : Bool)
  | int (n : Int)
  | float (x : Binary64)
  | moment (m : Moment)
  | text (t : Text)
  /-- The numbers of a text of which some are halves of characters. -/
  | halves (codes : List Nat)
  | list (items : List Value)
  | map (fields : List (Value × Value))
deriving Inhabited

namespace Value

def showCodes (escape : Glyph → Text) (codes : List Nat) : Text :=
  codes.flatMap fun n => ((Glyph.ofCode? n).map escape).getD (Text.escapeCode n)

def quotedCodes (codes : List Nat) : Text :=
  let quote := Text.quoteFor (codes.filterMap Glyph.ofCode?)
  quote :: showCodes (Text.escape quote) codes ++ [quote]

def ofCodes (codes : List Nat) : Value :=
  match codes.mapM Glyph.ofCode? with
  | some t => .text t
  | none => .halves codes

mutual
def quoted : Value → Text
  | .null => "None"
  | .bool true => "True"
  | .bool false => "False"
  | .int n => Text.ofInt n
  | .float x => x.text
  | .moment m => m.quoted
  | .text t => t.quoted
  | .halves codes => quotedCodes codes
  | .list items => "[" ++ Text.join ", " (quotedItems items) ++ "]"
  | .map fields => "\x7b" ++ Text.join ", " (quotedFields fields) ++ "\x7d"

def quotedItems : List Value → List Text
  | [] => []
  | item :: rest => item.quoted :: quotedItems rest

def quotedFields : List (Value × Value) → List Text
  | [] => []
  | (key, value) :: rest => (key.quoted ++ ": " ++ value.quoted) :: quotedFields rest
end

mutual
def wholes : Value → List Int
  | .int n => [n]
  | .list items => itemWholes items
  | .map fields => fieldWholes fields
  | _ => []

def itemWholes : List Value → List Int
  | [] => []
  | item :: rest => item.wholes ++ itemWholes rest

def fieldWholes : List (Value × Value) → List Int
  | [] => []
  | (key, value) :: rest => key.wholes ++ value.wholes ++ fieldWholes rest
end

def describe : Value → Text
  | .text t => t
  | .halves codes => showCodes (fun g => [g]) codes
  | .moment m => m.text
  | v => v.quoted

/-- Whether a value counts as yes: it is neither null, nor zero, nor empty. -/
def isTrue : Value → Bool
  | .null => false
  | .bool b => b
  | .int n => n ≠ 0
  | .float x => !x.isZero
  | .moment _ => true
  | .text t => !t.isEmpty
  | .halves _ => true
  | .list items => !items.isEmpty
  | .map fields => !fields.isEmpty

def isNested : Value → Bool
  | .list _ => true
  | .map _ => true
  | _ => false

def kindName : Value → Text
  | .null => "NoneType"
  | .bool _ => "bool"
  | .int _ => "int"
  | .float _ => "float"
  | .moment m => if m.clock.isSome then "datetime.datetime" else "datetime.date"
  | .text _ => "str"
  | .halves _ => "str"
  | .list _ => "list"
  | .map _ => "dict"

structure NoMembers where
  value : Value

def NoMembers.message (e : NoMembers) : Text := "'" ++ e.value.kindName ++ "' object is not iterable"

def members : Value → Except NoMembers (List Value)
  | .list items => .ok items
  | .map fields => .ok (fields.map Prod.fst)
  | .text t => .ok (t.map fun g => .text [g])
  | .halves codes => .ok (codes.map fun n => ofCodes [n])
  | v => .error ⟨v⟩

/-- The number that a value stands for as a key, if it is a whole one; yes is one and no is zero. -/
def whole? : Value → Option Int
  | .bool b => some (if b then 1 else 0)
  | .int n => some n
  | .float x => x.toInt?
  | _ => none

def sameKey (a b : Value) : Bool :=
  match a, b with
  | .null, .null => true
  | .text s, .text t => s == t
  | .halves s, .halves t => s == t
  | .moment m, .moment n => m == n
  | .float x, .float y => (x == y && x != .undefined) || (x.isZero && y.isZero)
  | a, b => a.whole?.isSome && a.whole? == b.whole?

/-- Gives a key a value. One that is there already keeps its place. -/
def setField (fields : List (Value × Value)) (key v : Value) : List (Value × Value) :=
  if fields.any fun (k, _) => k.sameKey key then
    fields.map fun (k, old) => (k, if k.sameKey key then v else old)
  else fields ++ [(key, v)]

end Value

inductive Scalar.Fault where
  | noDigits (base : Nat)
  | tooLong (fault : Numeral.TooLong)
  | moment (fault : Moment.Fault)
  | reserved
deriving DecidableEq, Repr

def Scalar.Fault.message : Scalar.Fault → Text
  | .noDigits base => "invalid literal for int() with base " ++ Text.ofNat base ++ ": ''"
  | .tooLong fault => "a number has " ++ Text.ofNat fault.digits ++ " digits"
  | .moment fault => fault.message
  | .reserved => "a word is reserved"

/-- Why no value is read from a settings file. All but the first are failures of the reader. -/
inductive ReadFault where
  | malformed
  | noText (flaw : Utf8.Flaw)
  | scalar (fault : Scalar.Fault)
  | noCharacter

abbrev Reader := Bytes → Except ReadFault Value

end MapScript.Settings
