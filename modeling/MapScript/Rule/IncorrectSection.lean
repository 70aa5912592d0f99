import MapScript.Rule.Basic

/-! Commands stand in the section that they belong to. -/

namespace MapScript.Rule.IncorrectSection

def problem (atom : Atom) (expected : Text) : Option Word → List Diagnostic
  | none =>
    [.error atom.span
      ("Command can only appear in section " ++ expected ++ ", but no section has been started.")]
  | some current =>
    if current.text == expected then []
    else
      [(Diagnostic.error atom.span
        ("Command is invalid in section " ++ current.text ++ ", it can only appear in "
          ++ expected)).note current.span "Section started here"]

def onAtom (current : Option Word) (atom : Atom) : List Diagnostic :=
  match atom with
  | .command name _ =>
    match (Catalog.find? name.text).bind Entry.requiredSection with
    | some expected => problem atom expected current
    | none => []
  | _ => []

end MapScript.Rule.IncorrectSection
