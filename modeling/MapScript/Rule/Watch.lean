import MapScript.Rule.ActorAreas
import MapScript.Rule.ArgTypes
import MapScript.Rule.AttributeCase
import MapScript.Rule.CommentContents
import MapScript.Rule.Compatibility
import MapScript.Rule.DeadComment
import MapScript.Rule.IncorrectSection
import MapScript.Rule.Inclusion
import MapScript.Rule.UnknownAttribute

/-! Rules at work: each rule in use remembers what it needs of the words and atoms before. -/

namespace MapScript

structure Memory where
  unfinished : Option Word := none
  guards : Rule.Compatibility.Guards := []
  areas : List Int := []

structure Watch where
  rule : Rule
  memory : Memory := {}

namespace Watch

def onWord (watch : Watch) (tracker : Tracker) (word : Word) : Watch × Option Diagnostic :=
  match watch.rule with
  | .argTypes =>
    let (problem, unfinished) := Rule.ArgTypes.onWord tracker.cursor watch.memory.unfinished word
    ({ watch with memory := { watch.memory with unfinished } }, problem)
  | _ => (watch, none)

def onAtom (watch : Watch) (tracker : Tracker) (atom : Atom) :
    Except Numeral.TooLong (Watch × List Diagnostic) :=
  match watch.rule with
  | .argTypes => return (watch, ← Rule.ArgTypes.onAtom tracker.scope atom)
  | .attributeCase => return (watch, Rule.AttributeCase.onAtom atom)
  | .commentContents => return (watch, Rule.CommentContents.onAtom tracker atom)
  | .compatibility =>
    let guards := watch.memory.guards
    return ({ watch with memory :=
        { watch.memory with guards := Rule.Compatibility.guardsAfter guards atom } },
      Rule.Compatibility.onAtom tracker.scope.level guards atom)
  | .deadComment => return (watch, Rule.DeadComment.onAtom tracker.nesting atom)
  | .inclusion => return (watch, Rule.Inclusion.onAtom tracker.builtinMap atom)
  | .incorrectSection =>
    return (watch, Rule.IncorrectSection.onAtom tracker.scope.sectionMark atom)
  | .actorAreasMatch => do
    let (problems, areas) ← Rule.ActorAreas.onAtom watch.memory.areas atom
    return ({ watch with memory := { watch.memory with areas } }, problems)
  | .unknownAttribute => return (watch, Rule.UnknownAttribute.onAtom atom)

/-- Shows a word to the rules in order, up to the first that finds a problem. -/
def allOnWord (tracker : Tracker) (word : Word) : List Watch → List Watch × Option Diagnostic
  | [] => ([], none)
  | watch :: rest =>
    if tracker.cursor.inComment && !watch.rule.seesComments then
      let (rest, problem) := allOnWord tracker word rest
      (watch :: rest, problem)
    else
      match watch.onWord tracker word with
      | (watch, some problem) => (watch :: rest, some (problem.withCode watch.rule.name))
      | (watch, none) =>
        let (rest, problem) := allOnWord tracker word rest
        (watch :: rest, problem)

def allOnAtom (tracker : Tracker) (atom : Atom) :
    List Watch → Except Numeral.TooLong (List Watch × List Diagnostic)
  | [] => return ([], [])
  | watch :: rest => do
    let (watch, problems) ← watch.onAtom tracker atom
    let (rest, more) ← allOnAtom tracker atom rest
    return (watch :: rest, problems.map (·.withCode watch.rule.name) ++ more)

end Watch

end MapScript
