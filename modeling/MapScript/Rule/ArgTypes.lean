import MapScript.Numeral
import MapScript.Rule.Basic
import MapScript.Text.Lowercase
import MapScript.Text.Similar
import MapScript.Text.Uppercase

/-! Arguments have the right types and are in range. -/

namespace MapScript.Rule.ArgTypes

def splitCall (first next : Word) : Diagnostic :=
  let span := first.span.through next.span
  let replacement : Replacement :=
    match Rnd.joined? (first.text ++ " " ++ next.text) with
    | some call => .safe call
    | none => .absent
  (Diagnostic.error span "Incorrect rnd() call").suggest span "rnd() must not contain spaces" replacement

/-- Looks at a word, when `unfinished` is the start of a call in the word before; gives back the start of a
call in this word. -/
def onWord (cursor : Cursor) (unfinished : Option Word) (word : Word) :
    Option Diagnostic × Option Word :=
  match unfinished with
  | some first => (some (splitCall first word), none)
  | none =>
    match cursor.entry with
    | some entry =>
      if entry.argType? cursor.argIndex = some .number && Rnd.isUnfinished word.text then
        (none, some word)
      else (none, none)
    | none => (none, none)

def suggestName (d : Diagnostic) (word : Word) (names : List Text) : Diagnostic :=
  match Text.closest? word.text names with
  | some name => d.suggest word.span ("Did you mean `" ++ name ++ "`?") (.risky name)
  | none => d

def checkDefined (scope : Scope) (word : Word) : Option Diagnostic :=
  if scope.mayHaveDefine word.text then none
  else
    let message := "Token `" ++ word.text ++ "` is never defined, this condition will always fail"
    some (suggestName (.warning word.span message) word scope.defineNames)

def checkValued (scope : Scope) (word : Word) : Option Diagnostic :=
  if scope.hasConst word.text then none
  else if scope.hasDefine word.text then
    some (.warning word.span
      ("Expected a valued token (defined using #const), got a valueless token `" ++ word.text
        ++ "` (defined using #define)"))
  else
    let message := "Token `" ++ word.text ++ "` is never defined"
    some (suggestName (.warning word.span message) word scope.constNames)

/-- A number is a numeral, a call of `rnd`, or a name with a value. The start of a call is left to the pass
over the words. -/
def isNumber (scope : Scope) (t : Text) : Bool :=
  Numeral.isNumeral t || Rnd.isCall t || Rnd.isUnfinished t || scope.hasConst t

def checkNumber (scope : Scope) (name arg : Word) : Option Diagnostic :=
  if isNumber scope arg.text then none
  else
    let problem := Diagnostic.error arg.span
      ("Expected a number argument to " ++ name.text ++ ", but got " ++ arg.text)
    if arg.text.startsWith "(" then
      let call := "rnd" ++ arg.text
      some (problem.suggest arg.span "Did you forget the `rnd`?" (.safe ((Rnd.joined? call).getD call)))
    else some problem

def checkName (arg : Word) : Option Diagnostic :=
  if Numeral.isNumeral arg.text then
    some (.error arg.span ("Expected a const name, but got a number " ++ arg.text))
  else none

def checkCapitals (arg : Word) : Option Diagnostic :=
  if arg.text.any Glyph.isLowercase then
    some ((Diagnostic.warning arg.span
      "Using lowercase for constant names may cause confusion with attribute or command names").suggest
        arg.span "Use uppercase for constants" (.safe (Text.upper arg.text)))
  else none

def checkArg (scope : Scope) (name : Word) (type : ArgType) (arg : Word) : Option Diagnostic :=
  match type with
  | .number => checkNumber scope name arg
  | .word => checkName arg <|> checkCapitals arg
  | .optionalToken => checkName arg <|> checkDefined scope arg
  | .token => checkName arg <|> checkValued scope arg
  | .fileName => none

/-- Arguments against their types, up to the first that is missing. -/
def checkArgs (scope : Scope) (atom : Atom) (name : Word) : List ArgType → List Word → List Diagnostic
  | [], _ => []
  | _ :: _, [] => [.error atom.span ("Missing arguments to " ++ name.text)]
  | type :: types, arg :: args =>
    (checkArg scope name type arg).toList ++ checkArgs scope atom name types args

def argValue (args : List Word) (i : Nat) : Except Numeral.TooLong (Option (Word × Int)) :=
  match args[i]? with
  | some arg => do return (← Numeral.value? arg.text).map fun n => (arg, n)
  | none => return none

def checkValue (arg : Option (Word × Int)) (good : Int → Bool) (message : Text) : List Diagnostic :=
  match arg with
  | some (word, n) => if good n then [] else [.warning word.span message]
  | none => []

def isBetween (low high n : Int) : Bool := low ≤ n && n ≤ high

inductive Target where
  | color
  | player
  | team

def Target.ofText? (t : Text) : Option Target :=
  ([("AT_COLOR", .color), ("AT_PLAYER", .player), ("AT_TEAM", .team)] : List (Text × Target)).lookup t

def checkAssignNumber (arg : Option (Word × Int)) : Option Target → List Diagnostic
  | some .team =>
    checkValue arg (fun n => isBetween (-4) 4 n || n == -10)
      "`assign_to` Number must be 1-4 when targeting AT_TEAM"
  | some _ =>
    checkValue arg (isBetween 0 8)
      "`assign_to` Number must be 1-8 when targeting AT_COLOR or AT_PLAYER"
  | none => []

def checkAssignMode (arg : Option (Word × Int)) : Option Target → List Diagnostic
  | some .team =>
    checkValue arg (isBetween (-1) 0)
      ("`assign_to` Mode must be 0 (random selection) or -1 (ordered selection) "
        ++ "when targeting AT_TEAM")
  | some _ =>
    checkValue arg (· == 0) "`assign_to` Mode should be 0 when targeting AT_COLOR or AT_PLAYER"
  | none => []

def checkAssignTarget : List Word → List Diagnostic
  | [] => []
  | first :: _ =>
    if (Target.ofText? first.text).isSome then []
    else [.warning first.span "`assign_to` Target must be AT_COLOR, AT_PLAYER, AT_TEAM"]

def checkAssign (args : List Word) : Except Numeral.TooLong (List Diagnostic) := do
  let target := args.head?.bind fun first => Target.ofText? first.text
  let number ← argValue args 1
  let mode ← argValue args 2
  let flags ← argValue args 3
  return checkAssignTarget args ++ checkAssignNumber number target ++ checkAssignMode mode target
    ++ checkValue flags (isBetween 0 3) "`assign_to` Flags must only combine flags 1 and 2"

def checkRanges (name : Word) (args : List Word) : Except Numeral.TooLong (List Diagnostic) := do
  if name.text == "base_elevation" then
    let elevation ← argValue args 0
    return checkValue elevation (isBetween 0 7) "Elevation value out of range (0 or 1-7)"
  else if name.text == "land_position" then
    let first ← argValue args 0
    let second ← argValue args 1
    return checkValue first (isBetween 0 100) "Land position out of range (0-100)"
      ++ checkValue second (isBetween 0 99) "Land position out of range (0-99)"
  else if name.text == "zone" then
    match args with
    | arg :: _ =>
      return if arg.text == "99" then [.warning arg.span "`zone 99` crashes the game"] else []
    | [] => return []
  else if name.text == "assign_to" then checkAssign args
  else return []

def onAtom (scope : Scope) (atom : Atom) : Except Numeral.TooLong (List Diagnostic) :=
  match atom with
  | .ifThen _ condition => return (checkDefined scope condition).toList
  | .elseIf _ condition => return (checkDefined scope condition).toList
  | .define head name => return (checkArg scope head .word name).toList
  | .undefine head name => return (checkArg scope head .word name).toList
  | .const head name value =>
    return (checkArg scope head .word name).toList
      ++ (value.bind (checkArg scope head .number)).toList
  | .command name args => do
    let types := ((Catalog.find? name.text).map Entry.args).getD []
    return checkArgs scope atom name types args ++ (← checkRanges name args)
  | _ => return []

end MapScript.Rule.ArgTypes
