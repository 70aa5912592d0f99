import MapScript.Rule.Basic

/-! Commands work in the version that the script is for, or are guarded by a condition. -/

namespace MapScript.Rule.Compatibility

/-- The conditions of the branches that are open, innermost first. An `else` branch counts as a blank. -/
abbrev Guards := List Text

def guardsAfter (guards : Guards) : Atom → Guards
  | .ifThen _ condition => condition.text :: guards
  | .elseIf _ condition => condition.text :: guards.tail
  | .elseThen _ => " " :: guards.tail
  | .endIf _ => guards.tail
  | _ => guards

def userPatch15Fix : Text :=
  "Wrap this command in an `if UP_EXTENSION` statement or add a "
    ++ "/* Compatibility: UserPatch 1.5 */ comment at the top of the file"

def userPatch14Fix : Text :=
  "Wrap this command in an `if UP_AVAILABLE` statement or add a "
    ++ "/* Compatibility: UserPatch 1.4 */ comment at the top of the file"

def definitiveFix : Text :=
  "Add a /* Compatibility: Definitive Edition */ comment at the top of the file"

def effectCommands : List Text := ["effect_amount", "effect_percent"]

def actorAreaCommands : List Text :=
  ["actor_area", "actor_area_to_place_in", "avoid_actor_area", "avoid_all_actor_areas",
   "actor_area_radius"]

def zoneCommands : List Text := ["avoid_forest_zone", "place_on_forest_zone", "avoid_cliff_zone"]

def hasExtension (level : Level) (guards : Guards) : Bool :=
  .userPatch15 ≤ level || guards.contains "UP_EXTENSION"

def hasUserPatch (level : Level) (guards : Guards) : Bool :=
  .userPatch14 ≤ level || guards.contains "UP_AVAILABLE"

def lacking (level : Level) (guards : Guards) (name : Text) : Option (Text × Text) :=
  if effectCommands.contains name && !hasExtension level guards then
    some ("RMS Effects require UserPatch 1.5", userPatch15Fix)
  else if name == "direct_placement" && !hasExtension level guards then
    some ("Direct placement requires UserPatch 1.5 or Definitive Edition", userPatch15Fix)
  else if name == "nomad_resources" && !hasUserPatch level guards && level != .hdEdition then
    some ("Nomad resources requires UserPatch 1.4 or HD Edition", userPatch14Fix)
  else if actorAreaCommands.contains name && level != .definitiveEdition then
    some ("Actor areas are only supported in the Definitive Edition", definitiveFix)
  else if zoneCommands.contains name && level != .definitiveEdition then
    some ("Forest and cliff zones are only supported in the Definitive Edition", definitiveFix)
  else if name == "second_object" && level != .definitiveEdition then
    some ("second_object is only supported in the Definitive Edition", definitiveFix)
  else none

def onAtom (level : Level) (guards : Guards) (atom : Atom) : List Diagnostic :=
  match atom with
  | .command name _ =>
    match lacking level guards name.text with
    | some (message, fix) => [(Diagnostic.warning atom.span message).suggest atom.span fix]
    | none => []
  | _ => []

end MapScript.Rule.Compatibility
