import MapScript.Diagnostic
import MapScript.Nesting
import MapScript.Scope
import MapScript.Catalog.Names

/-! The rules that a script can be checked against, by name, and what they may look at. -/

namespace MapScript

inductive Rule where
  | argTypes
  | attributeCase
  | commentContents
  | compatibility
  | deadComment
  | inclusion
  | incorrectSection
  | actorAreasMatch
  | unknownAttribute
deriving DecidableEq, Repr

namespace Rule

def all : List Rule :=
  [.argTypes, .attributeCase, .commentContents, .compatibility, .deadComment, .inclusion,
   .incorrectSection, .actorAreasMatch, .unknownAttribute]

def defaults : List Rule :=
  [.argTypes, .attributeCase, .commentContents, .compatibility, .deadComment, .inclusion,
   .incorrectSection, .actorAreasMatch]

def name : Rule → Text
  | .argTypes => "arg-types"
  | .attributeCase => "attribute-case"
  | .commentContents => "comment-contents"
  | .compatibility => "compatibility"
  | .deadComment => "dead-comment"
  | .inclusion => "include"
  | .incorrectSection => "incorrect-section"
  | .actorAreasMatch => "actor-areas-match"
  | .unknownAttribute => "unknown-attribute"

def ofName? (name : Text) : Option Rule := all.find? fun r => r.name == name

structure Unknown where
  name : Text

def Unknown.message (u : Unknown) : Text := "Unknown lint: " ++ u.name

def ofName (name : Text) : Except Unknown Rule :=
  match ofName? name with
  | some rule => .ok rule
  | none => .error ⟨name⟩

def seesComments : Rule → Bool
  | .commentContents => true
  | _ => false

end Rule

/-- Where the pass over the words is: the name whose arguments it reads, how many of these it has read, and
whether it is inside a comment. -/
structure Cursor where
  entry : Option Entry := none
  argIndex : Nat := 0
  inComment : Bool := false

structure Tracker where
  scope : Scope
  nesting : List Nesting := []
  cursor : Cursor := {}
  builtinMap : Bool := false

namespace Tracker

def initial (level : Level) (builtinMap : Bool) : Tracker :=
  { scope := .initial level, builtinMap }

def update (t : Tracker) (atom : Atom) : Tracker × Option Diagnostic :=
  let (nesting, problem) := Nesting.step t.nesting atom
  ({ t with scope := t.scope.update atom, nesting }, problem)

end Tracker

end MapScript
