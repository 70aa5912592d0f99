import MapScript.Rule.Watch

/-! Checking words and atoms as they come, against the rules in use and for what concerns no single rule:
comment marks, unknown sections, balance and flaws. -/

namespace MapScript

namespace Cursor

/-- Forgets a name whose arguments have all been read, and enters a comment at its mark. -/
def enter (c : Cursor) (t : Text) : Cursor :=
  let done := c.entry.any fun entry => entry.arity ≤ c.argIndex
  let c := if done then { c with entry := none, argIndex := 0 } else c
  if t.startsWith Item.openMark then { c with inComment := true } else c

/-- Leaves a comment at its mark or else, outside of comments, counts a word as an argument and starts to
read the arguments of a name. -/
def leave (c : Cursor) (t : Text) : Cursor :=
  if c.inComment then { c with inComment := !t.endsWith Item.closeMark }
  else
    match Catalog.find? t with
    | some entry => { c with entry := some entry, argIndex := 0 }
    | none => if c.entry.isSome then { c with argIndex := c.argIndex + 1 } else c

end Cursor

namespace Marks

def openingProblem (word : Word) : Option Diagnostic :=
  let t := word.text
  if t.startsWith Item.openMark && 2 < t.length then
    let problem := Diagnostic.error word.span
      "Incorrect comment: there must be a space after the opening /*"
    if Item.isInlineComment t then
      some (problem.suggest word.span "Add spaces at the start and end of the comment"
        (.safe ("/* " ++ t.slice 2 (t.length - 2) ++ " */")))
    else
      some (problem.suggest word.span "Add a space after the /*" (.safe ("/* " ++ t.drop 2)))
  else none

def closingProblem (word : Word) : Option Diagnostic :=
  let t := word.text
  if 2 < t.length then
    some ((Diagnostic.warning word.span
      "Possibly unclosed comment, */ must be preceded by whitespace").suggest
        word.span "Add a space before the */" (.safe (t.take (t.length - 2) ++ " */")))
  else none

def problem (inComment : Bool) (word : Word) : Option Diagnostic :=
  let t := word.text
  if t.endsWith Item.closeMark then
    if inComment then openingProblem word <|> closingProblem word
    else some (.error word.span "Unexpected closing `*/`")
  else if !inComment && Catalog.isSectionShaped t && !Catalog.contains t then
    some (.error word.span ("Invalid section " ++ t))
  else openingProblem word

end Marks

structure Checker where
  watches : List Watch
  tracker : Tracker

namespace Checker

def syntaxCode : Text := "syntax"

def flawCode : Text := "parse"

def initial (rules : List Rule) (level : Level) (builtinMap : Bool) : Checker :=
  ⟨rules.map fun rule => { rule }, .initial level builtinMap⟩

def addRule (c : Checker) (rule : Rule) : Checker := { c with watches := c.watches ++ [{ rule }] }

def rules (c : Checker) : List Rule := c.watches.map Watch.rule

def uses (c : Checker) (rule : Rule) : Bool := c.rules.contains rule

/-- Takes a word. There is at most one problem with it; a problem with marks comes before those that the
rules find. -/
def writeWord (c : Checker) (word : Word) : Checker × Option Diagnostic :=
  let cursor := c.tracker.cursor.enter word.text
  let (watches, found) := Watch.allOnWord { c.tracker with cursor } word c.watches
  let problem := (Marks.problem cursor.inComment word).map (·.withCode syntaxCode)
  (⟨watches, { c.tracker with cursor := cursor.leave word.text }⟩, problem <|> found)

def writeAtom (c : Checker) (atom : Atom) : Except Numeral.TooLong (Checker × List Diagnostic) := do
  let (watches, problems) ← Watch.allOnAtom c.tracker atom c.watches
  let (tracker, unbalanced) := c.tracker.update atom
  return (⟨watches, tracker⟩, problems ++ (unbalanced.map (·.withCode syntaxCode)).toList)

def isCovered (c : Checker) (atom : Atom) (flaw : Flaw) : Bool :=
  match flaw.kind with
  | .missingCommandArgs => c.uses .argTypes
  | .unknownWord =>
    let t := atom.head.text
    Catalog.isSectionShaped t || (Catalog.contains (Text.lower t) && c.uses .attributeCase)
  | _ => false

def writeFlaws (c : Checker) (item : Item) : List Diagnostic :=
  (item.flaws.filter fun flaw => !c.isCovered item.atom flaw).map fun flaw =>
    (Diagnostic.error flaw.span flaw.kind.message).withCode flawCode

def writeItem (c : Checker) (item : Item) : Except Numeral.TooLong (Checker × List Diagnostic) := do
  let (c, problems) ← c.writeAtom item.atom
  return (c, problems ++ c.writeFlaws item)

def writeWords (c : Checker) : List Word → Checker × List Diagnostic
  | [] => (c, [])
  | word :: rest =>
    let (c, problem) := c.writeWord word
    let (c, problems) := writeWords c rest
    (c, problem.toList ++ problems)

def writeItems (c : Checker) : List Item → Except Numeral.TooLong (Checker × List Diagnostic)
  | [] => return (c, [])
  | item :: rest => do
    let (c, problems) ← c.writeItem item
    let (c, more) ← writeItems c rest
    return (c, problems ++ more)

end Checker

end MapScript
