import MapScript.Text.Decimal

/-! The switches of the commands, and how they are told from other arguments. -/

namespace MapScript.Command

inductive Switch where
  | help
  | version
  | verbose
  | json
  | level
  | config
  | builtin
  | dryRun
  | risky
  | noBackup
  | inPlace
  | onlyCheck
  | tabSize
  | tabs
  | noAlign
deriving DecidableEq, Repr

def Switch.takesValue : Switch → Bool
  | .level => true
  | .config => true
  | .tabSize => true
  | _ => false

abbrev Table := List (Text × Switch)

namespace Table

def common : Table :=
  [("-h", .help), ("--help", .help), ("--version", .version), ("-v", .verbose), ("--verbose", .verbose)]

def check : Table :=
  [("-h", .help), ("--help", .help), ("--json", .json), ("-c", .level), ("--compatibility", .level),
   ("--config", .config), ("--builtin", .builtin)]

def parse : Table := [("-h", .help), ("--help", .help), ("--json", .json)]

def fix : Table :=
  [("-h", .help), ("--help", .help), ("--dry-run", .dryRun), ("--unsafe", .risky),
   ("--no-backup", .noBackup), ("-c", .level), ("--compatibility", .level), ("--config", .config),
   ("--builtin", .builtin)]

def format : Table :=
  [("-h", .help), ("--help", .help), ("-i", .inPlace), ("--inplace", .inPlace), ("--check", .onlyCheck),
   ("--tab-size", .tabSize), ("--tabs", .tabs), ("--no-align", .noAlign), ("--config", .config)]

end Table

inductive Stop where
  | help
  | version
  | misused
deriving DecidableEq, Repr

/-- An argument by its form. A switch is `short` when it has one dash; what is written behind it in the same
argument is attached to it. -/
inductive Argument where
  | plain (text : Text)
  | divider
  | switch (s : Switch) (short : Bool) (attached : Option Text)
  | unknown

namespace Argument

def dash : Glyph := .char '-'

/-- Whether a text is a negative number, which is no switch. A line feed may end it. -/
def isNegative (t : Text) : Bool :=
  let isDigits (t : Text) : Bool := t.all fun g => (Glyph.decimal? g).isSome
  match if t.endsWith "\n" then t.dropLast else t with
  | [] => false
  | g :: size =>
    g == dash &&
      match Text.cut? "." size with
      | none => !size.isEmpty && isDigits size
      | some (whole, part) => isDigits whole && !part.isEmpty && isDigits part

def isLong (t : Text) : Bool := t.startsWith "--"

/-- The switches that a text can be short for. One with two dashes may leave out the end of the name, and
behind one with a single dash the value follows at once. -/
def candidates (table : Table) (t : Text) : List Argument :=
  if isLong t then
    let (name, attached) : Text × Option Text := match Text.cut? "=" t with
      | some (name, value) => (name, some value)
      | none => (t, none)
    (table.filter fun (full, _) => full.startsWith name).map fun (_, s) => .switch s false attached
  else
    (table.filter fun (full, _) => full == t.take 2).map fun (_, s) =>
      .switch s true (some (t.drop 2))

def inFull? (table : Table) (t : Text) : Option Argument :=
  match table.lookup t, Text.cut? "=" t with
  | some s, _ => some (.switch s (!isLong t) none)
  | none, some (name, value) =>
    (table.lookup name).map fun s => .switch s (!isLong name) (some value)
  | none, none => none

def ofDashed (table : Table) (t : Text) : Except Stop Argument :=
  match inFull? table t, candidates table t with
  | some a, _ => .ok a
  | none, [a] => .ok a
  | none, _ :: _ :: _ => .error .misused
  | none, [] => .ok (if isNegative t || t.contains (.char ' ') then .plain t else .unknown)

def ofText (table : Table) (t : Text) : Except Stop Argument :=
  match t with
  | g :: _ :: _ => if g = dash then ofDashed table t else .ok (.plain t)
  | _ => .ok (.plain t)

def ofTexts (table : Table) : List Text → Except Stop (List Argument)
  | [] => .ok []
  | t :: rest =>
    if t = "--" then .ok (.divider :: rest.map plain)
    else do
      let a ← ofText table t
      return a :: (← ofTexts table rest)

end Argument

abbrev Setting := Switch × Option Text

structure Expansion where
  settings : List Setting
  waiting : Option Switch := none

/-- An attached value; two dashes stand for no value. -/
def attachedValue (t : Text) : Option Text := if t = "--" then none else some t

/-- Takes the switches behind one dash apart. The one before the text is `s`, and `before` comes before it. -/
def expandShort (table : Table) (before : List Setting) (s : Switch) : Text → Except Stop Expansion
  | [] => if s.takesValue then .ok { settings := before ++ [(s, some [])] } else .error .misused
  | g :: rest =>
    if s.takesValue then .ok { settings := before ++ [(s, attachedValue (g :: rest))] }
    else
      let settings := before ++ [(s, none)]
      match table.lookup [Argument.dash, g], rest with
      | none, _ => .error .misused
      | some next, [] =>
        if next.takesValue then .ok { settings, waiting := some next }
        else .ok { settings := settings ++ [(next, none)] }
      | some next, h :: value => expandShort table settings next (h :: value)

def expand (table : Table) (s : Switch) (short : Bool) : Option Text → Except Stop Expansion
  | none =>
    if s.takesValue then .ok { settings := [], waiting := some s } else .ok { settings := [(s, none)] }
  | some text =>
    if short then expandShort table [] s text
    else if s.takesValue then .ok { settings := [(s, attachedValue text)] }
    else .error .misused

end MapScript.Command
