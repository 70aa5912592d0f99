import MapScript.Layout.Output
import MapScript.Level.Basic
import MapScript.Path
import MapScript.Rule.Basic
import MapScript.Settings.Value

/-! The settings of a check and of the layout, as they are given and as they are used. -/

namespace MapScript

structure Settings where
  level : Level
  rules : List Rule
  fixRisky : Bool
  layout : Layout.Options
  path : Option Path

namespace Settings

inductive Fault where
  | unknownLevel (level : Value)
  | rulesNotListed
  | nestedRule (rule : Value)
  | unknownRules (rules : List Value)
  | badTabSize (tabSize : Value)
  /-- A value that is wrong cannot be shown for one of its numbers. -/
  | tooLong (fault : Numeral.TooLong)

def Fault.message : Fault → Text
  | .unknownLevel level => "Unknown compatibility: " ++ level.describe
  | .rulesNotListed => "`lints` must be a list of lint names"
  | .nestedRule rule => "unhashable type: '" ++ rule.kindName ++ "'"
  | .unknownRules rules => "Unknown lints: " ++ Text.join ", " (rules.map Value.describe)
  | .badTabSize tabSize => "`tab_size` must be a non-negative integer, got " ++ tabSize.quoted
  | .tooLong fault => "a number has " ++ Text.ofNat fault.digits ++ " digits"

/-- The fault itself when the values in its message can be shown, and otherwise that they cannot. -/
def Fault.showing (values : List Value) (fault : Fault) : Fault :=
  match (Value.itemWholes values).findSome? Numeral.tooLong? with
  | some number => .tooLong number
  | none => fault

structure Draft where
  level : Value := .text "conquerors"
  rules : Value := .list (Rule.defaults.map fun r => .text r.name)
  fixRisky : Value := .bool false
  tabSize : Value := .int 2
  useSpaces : Value := .bool true
  alignArgs : Value := .bool true
  path : Option Path := none

namespace Draft

def set (d : Draft) (name : Text) (v : Value) : Draft :=
  if name = "compatibility" then { d with level := v }
  else if name = "lints" then { d with rules := v }
  else if name = "fix_unsafe" then { d with fixRisky := v }
  else if name = "tab_size" then { d with tabSize := v }
  else if name = "use_spaces" then { d with useSpaces := v }
  else if name = "align_arguments" then { d with alignArgs := v }
  else d

def setAll (d : Draft) (fields : List (Value × Value)) : Draft :=
  fields.foldl (fun d (key, v) =>
    match key with
    | .text name => d.set name v
    | _ => d) d

def level? (d : Draft) : Option Level := Level.ofName? d.level.describe

def rule? : Value → Option Rule
  | .text name => Rule.ofName? name
  | _ => none

/-- The rules that the settings name. A list or map among the names comes first of all that can be wrong
with them. -/
def checkRules (items : List Value) : Except Fault (List Rule) :=
  match items.find? Value.isNested, items.filter (fun v => (rule? v).isNone) with
  | some rule, _ => .error (.nestedRule rule)
  | none, [] => .ok (items.filterMap rule?)
  | none, unknown => .error (.showing unknown (.unknownRules unknown))

def checkTabSize : Value → Except Fault Int
  | .int n => if 0 ≤ n then .ok n else .error (.showing [.int n] (.badTabSize (.int n)))
  | v => .error (.showing [v] (.badTabSize v))

def checkLevel (d : Draft) : Except Fault Level :=
  match d.level? with
  | some level => .ok level
  | none => .error (.showing [d.level] (.unknownLevel d.level))

def listed : Value → Except Fault (List Value)
  | .list items => .ok items
  | _ => .error .rulesNotListed

def check (d : Draft) : Except Fault Settings := do
  let level ← d.checkLevel
  let rules ← checkRules (← listed d.rules)
  let tabSize ← checkTabSize d.tabSize
  return {
    level
    rules
    fixRisky := d.fixRisky.isTrue
    layout := { tabSize, useSpaces := d.useSpaces.isTrue, alignArgs := d.alignArgs.isTrue }
    path := d.path }

/-- Sets one value and checks them all. The value stays when it cannot be used. -/
def override (d : Draft) (name : Text) (v : Value) : Draft × Except Fault Settings :=
  let d := d.set name v
  (d, d.check)

end Draft

end Settings

end MapScript
