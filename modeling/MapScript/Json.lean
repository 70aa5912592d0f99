import MapScript.Text.Quoted

/-! Values to be printed as JSON. Fields keep their order. -/

namespace MapScript

inductive Json where
  | null
  | bool (b : Bool)
  | int (n : Int)
  | text (t : Text)
  | list (items : List Json)
  | object (fields : List (Text × Json))

namespace Json

def ofOption (encode : α → Json) : Option α → Json
  | some a => encode a
  | none => .null

/-- A character in a string, with ASCII only; one beyond sixteen bits becomes two halves. -/
def escapeGlyph (g : Glyph) : Text :=
  let unit (n : Nat) : Text := "\\u" ++ Text.hex 4 n
  if g = .char '"' then "\\\""
  else if g = .char '\\' then "\\\\"
  else if g = .char '\n' then "\\n"
  else if g = .char '\r' then "\\r"
  else if g = .char '\t' then "\\t"
  else if g = .char '\x08' then "\\b"
  else if g = .char '\x0c' then "\\f"
  else if 0x20 ≤ g.code && g.code < 0x7f then [g]
  else if g.code < 0x10000 then unit g.code
  else
    let n := g.code - 0x10000
    unit (0xd800 + n / 0x400) ++ unit (0xdc00 + n % 0x400)

def quote (t : Text) : Text := "\"" ++ t.flatMap escapeGlyph ++ "\""

def newline (indent : Nat) : Text := "\n" ++ Text.ofChars (2 * indent) ' '

mutual
/-- One item or field on each line, two spaces deeper than the line that opens the list or object. -/
def render (indent : Nat) : Json → Text
  | .null => "null"
  | .bool true => "true"
  | .bool false => "false"
  | .int n => Text.ofInt n
  | .text t => quote t
  | .list [] => "[]"
  | .list (item :: rest) =>
    "[" ++ newline (indent + 1) ++ render (indent + 1) item ++ renderItems (indent + 1) rest
      ++ newline indent ++ "]"
  | .object [] => "\x7b\x7d"
  | .object ((key, value) :: rest) =>
    "\x7b" ++ newline (indent + 1) ++ quote key ++ ": " ++ render (indent + 1) value
      ++ renderFields (indent + 1) rest ++ newline indent ++ "\x7d"

def renderItems (indent : Nat) : List Json → Text
  | [] => []
  | item :: rest => "," ++ newline indent ++ render indent item ++ renderItems indent rest

def renderFields (indent : Nat) : List (Text × Json) → Text
  | [] => []
  | (key, value) :: rest =>
    "," ++ newline indent ++ quote key ++ ": " ++ render indent value ++ renderFields indent rest
end

end Json

end MapScript
