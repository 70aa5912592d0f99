import MapScript.Numeral
import MapScript.Rule.Basic

/-! Actor areas are declared before they are used. -/

namespace MapScript.Rule.ActorAreas

def uses : List Text := ["actor_area_to_place_in", "avoid_actor_area"]

/-- Looks at an atom when `known` are the areas declared before it, and gives them back with those that it
declares. -/
def onAtom (known : List Int) (atom : Atom) : Except Numeral.TooLong (List Diagnostic × List Int) :=
  match atom with
  | .command name (arg :: _) => do
    match ← Numeral.value? arg.text with
    | some area =>
      if name.text == "actor_area" then return ([], area :: known)
      else if uses.contains name.text && !known.contains area then
        return ([.warning arg.span ("Actor area " ++ Text.ofInt area ++ " is never defined")], known)
      else return ([], known)
    | none => return ([], known)
  | _ => return ([], known)

end MapScript.Rule.ActorAreas
