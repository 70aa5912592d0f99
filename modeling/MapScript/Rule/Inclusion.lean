import MapScript.Rule.Basic

/-! Only the scripts that come with the game include other files. -/

namespace MapScript.Rule.Inclusion

def onAtom (builtinMap : Bool) (atom : Atom) : List Diagnostic :=
  match atom with
  | .command name _ =>
    if builtinMap then []
    else if name.text == "#include_drs" then
      [.error atom.span "#include_drs can only be used by builtin maps"]
    else if name.text == "#include" then
      [(Diagnostic.error atom.span "#include can only be used by builtin maps").suggest atom.span
        "If you're trying to make a map pack, use a map pack generator instead."]
    else []
  | _ => []

end MapScript.Rule.Inclusion
