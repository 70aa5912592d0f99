import MapScript.Rule.Basic

/-! No comments inside random groups. -/

namespace MapScript.Rule.DeadComment

def problem (atom : Atom) (group : Nesting) : Diagnostic :=
  ((Diagnostic.warning atom.span
    "Using comments inside `start_random` groups is potentially dangerous.").note
      group.atom.span "`start_random` opened here").suggest atom.span
        ("Only #define constants in the `start_random` group, "
          ++ "and then use `if` branches for the actual code.")

/-- One problem for each group around a comment, the outermost first. -/
def onAtom (nesting : List Nesting) (atom : Atom) : List Diagnostic :=
  match atom with
  | .comment .. => (nesting.reverse.filter (·.opener == .startRandom)).map (problem atom)
  | _ => []

end MapScript.Rule.DeadComment
