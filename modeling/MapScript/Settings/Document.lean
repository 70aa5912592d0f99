import MapScript.Settings.Node

/-! A reader of settings files, for the part of the format without anchors, tags, block texts and directives. -/

namespace MapScript.Settings

namespace Node

def scalarFault : Scalar.Fault → ReadFault
  | .reserved => .malformed
  | fault => .scalar fault

/-- The value of a word; in a map one reserved word is an ordinary key. -/
def wordValue (isKey : Bool) (t : Text) : Except ReadFault Value :=
  if isKey && t = "=" then .ok (.text t) else (Value.ofPlain t).mapError scalarFault

mutual
def value : Node → Value
  | .word t => ((wordValue false t).toOption).getD .null
  | .quoted codes => .ofCodes codes
  | .list items => .list (values items)
  | .map fields => .map (fieldValues [] fields)

def values : List Node → List Value
  | [] => []
  | n :: rest => n.value :: values rest

def fieldValues (before : List (Value × Value)) : List (Node × Node) → List (Value × Value)
  | [] => before
  | (.word t, v) :: rest =>
    fieldValues (Value.setField before (((wordValue true t).toOption).getD .null) v.value) rest
  | (k, v) :: rest => fieldValues (Value.setField before k.value v.value) rest
end

/-- A number that no character can have; this comes before all other faults. -/
def codeFaults (codes : List Nat) : List (Nat × ReadFault) :=
  if codes.any (0x110000 ≤ ·) then [(0, .noCharacter)] else []

mutual
def faults (depth : Nat) : Node → List (Nat × ReadFault)
  | .word t =>
    match wordValue false t with
    | .ok _ => []
    | .error fault => [(depth, fault)]
  | .quoted codes => codeFaults codes
  | .list items => itemFaults (depth + 1) items
  | .map fields => fieldFaults (depth + 1) fields

def itemFaults (depth : Nat) : List Node → List (Nat × ReadFault)
  | [] => []
  | n :: rest => n.faults depth ++ itemFaults depth rest

def fieldFaults (depth : Nat) : List (Node × Node) → List (Nat × ReadFault)
  | [] => []
  | (.word t, v) :: rest =>
    (match wordValue true t with
      | .ok _ => []
      | .error fault => [(depth, fault)]) ++ v.faults depth ++ fieldFaults depth rest
  | (.quoted codes, v) :: rest => codeFaults codes ++ v.faults depth ++ fieldFaults depth rest
  | (_, v) :: rest => (depth, .malformed) :: v.faults depth ++ fieldFaults depth rest
end

def outermost? : List (Nat × ReadFault) → Option (Nat × ReadFault)
  | [] => none
  | fault :: rest =>
    match outermost? rest with
    | some other => if other.1 < fault.1 then some other else some fault
    | none => some fault

def read (n : Node) : Except ReadFault Value :=
  match outermost? (n.faults 0) with
  | some (_, fault) => .error fault
  | none => .ok n.value

end Node

namespace Value

def isAllowed (g : Glyph) : Bool :=
  match g with
  | .char c =>
    let n := c.toNat
    n = 0x09 || n = 0x0a || n = 0x0d || (0x20 ≤ n && n ≤ 0x7e) || n = 0x85
      || (0xa0 ≤ n && n ≠ 0xfffe && n ≠ 0xffff)
  | .stray _ => false

def feeds : Text → Text
  | [] => []
  | .char '\r' :: .char '\n' :: rest => .char '\n' :: feeds rest
  | .char '\r' :: rest => .char '\n' :: feeds rest
  | g :: rest => g :: feeds rest

def read (t : Text) : Except ReadFault Value :=
  match if t.all isAllowed then (Token.scan? (feeds t)).bind Node.ofTokens? else none with
  | some node => node.read
  | none => .error .malformed

def ofBytes (bytes : Bytes) : Except ReadFault Value :=
  match Utf8.flaw? bytes with
  | some flaw => .error (.noText flaw)
  | none => read (Text.readKeeping bytes)

end Value

end MapScript.Settings
