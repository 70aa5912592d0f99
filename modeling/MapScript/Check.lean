import MapScript.Checker
import MapScript.Report.Basic

/-! Checks of whole scripts. -/

namespace MapScript

structure Check where
  level : Level := .conquerors
  rules : List Rule := Rule.defaults
  builtinMap : Bool := false
  sources : List Source

namespace Check

/-- Packed maps are for UserPatch 1.5 at least. -/
def effectiveLevel (c : Check) : Level :=
  if c.sources.any Source.isPacked && !(.userPatch15 ≤ c.level) then .userPatch15 else c.level

def words (c : Check) : List Word := c.sources.flatMap fun s => Word.scan s.file s.text

def items (c : Check) : List Item := c.sources.flatMap fun s => Item.parse s.file s.text

/-- All problems in the order they are found: first all words are checked, and then all items. -/
def problems (c : Check) : Except Numeral.TooLong (List Diagnostic) := do
  let checker := Checker.initial c.rules c.effectiveLevel c.builtinMap
  let (checker, onWords) := checker.writeWords c.words
  let (_, onItems) ← checker.writeItems c.items
  return onWords ++ onItems

def run (c : Check) : Except Numeral.TooLong Report := do
  return ⟨c.sources, (← c.problems).mergeSort fun a b => a.span.le b.span⟩

end Check

end MapScript
