import MapScript.Rule.Basic

/-! Names are written in lowercase. The game knows them in no other spelling. -/

namespace MapScript.Rule.AttributeCase

def fixCase (t : Text) : Option Text :=
  let lowered := Text.lower t
  if lowered == t || Catalog.contains t then none
  else if Catalog.contains lowered then some lowered
  else none

def onAtom : Atom → List Diagnostic
  | .other word =>
    match fixCase word.text with
    | some fixed =>
      [(Diagnostic.error word.span ("Unknown attribute `" ++ word.text ++ "`")).suggest
        word.span "Convert to lowercase" (.safe fixed)]
    | none => []
  | _ => []

end MapScript.Rule.AttributeCase
