import MapScript.Rule.Basic
import MapScript.Text.Digit
import MapScript.Text.Similar

/-! Every word that starts no statement is a misspelled name, unless it is made of digits. -/

namespace MapScript.Rule.UnknownAttribute

def onAtom : Atom → List Diagnostic
  | .other word =>
    if Text.isDigits word.text then []
    else
      let problem := Diagnostic.error word.span ("Unknown attribute `" ++ word.text ++ "`")
      match Text.closest? word.text Catalog.names with
      | some name => [problem.suggest word.span ("Did you mean `" ++ name ++ "`?") (.risky name)]
      | none => [problem]
  | _ => []

end MapScript.Rule.UnknownAttribute
