import MapScript.Folder
import MapScript.Settings.Basic

/-! Settings from a file and from the environment. What reads the file is left open. -/

namespace MapScript.Settings

structure Environment where
  level : Option Text := none
  rules : Option Text := none
  home : Path := ⟨[], []⟩

inductive LoadFault where
  | notFound (path : Path)
  | unreadable (fault : Folder.Fault)
  | noText (flaw : Utf8.Flaw)
  | malformed (path : Path)
  | scalar (fault : Scalar.Fault)
  | noCharacter
  | notMap (path : Path)
  | unusable (fault : Fault)

def LoadFault.message : LoadFault → Text
  | .notFound path => "Config file not found: " ++ path.toText
  | .unreadable fault => fault.message
  | .noText flaw => flaw.message
  | .malformed path => "Failed to parse config " ++ path.toText ++ ": it is malformed"
  | .scalar fault => fault.message
  | .noCharacter => "chr() arg not in range(0x110000)"
  | .notMap path => "Config " ++ path.toText ++ " must be a mapping"
  | .unusable fault => fault.message

def ReadFault.toLoad (path : Path) : ReadFault → LoadFault
  | .malformed => .malformed path
  | .noText flaw => .noText flaw
  | .scalar fault => .scalar fault
  | .noCharacter => .noCharacter

def searched (env : Environment) : List Path :=
  [Path.ofText ".rmscheck.yaml", (env.home.child ".rmscheck").child "config.yaml"]

namespace Draft

/-- Takes over the value of a settings file. One that does not count as yes stands for no settings. -/
def ofValue (path : Path) (v : Value) : Except LoadFault Draft :=
  match v.isTrue, v with
  | false, _ => .ok { path := some path }
  | true, .map fields => .ok (setAll { path := some path } fields)
  | true, _ => .error (.notMap path)

def ofFile (read : Reader) (folder : Folder) (path : Path) : Except LoadFault Draft := do
  let bytes ← (folder.read path).mapError LoadFault.unreadable
  ofValue path (← (read bytes).mapError (ReadFault.toLoad path))

def names (t : Text) : List Value :=
  (((Text.fields (.char ',') t).map Text.trim).filter fun name => !name.isEmpty).map Value.text

def setEnvironment (env : Environment) (d : Draft) : Draft :=
  let d := match env.level with
    | some level => { d with level := .text level }
    | none => d
  match env.rules with
  | some rules => { d with rules := .list (names rules) }
  | none => d

def ofPaths (read : Reader) (folder : Folder) : List Path → Except LoadFault Draft
  | [] => .ok {}
  | path :: rest => do
    if ← (folder.has path).mapError LoadFault.unreadable then ofFile read folder path
    else ofPaths read folder rest

def ofPath (read : Reader) (folder : Folder) (path : Path) : Except LoadFault Draft := do
  if ← (folder.has path).mapError LoadFault.unreadable then ofFile read folder path
  else .error (.notFound path)

end Draft

inductive Origin where
  | named (path : Path)
  | search (paths : List Path)

def Draft.loadWith (read : Reader) (env : Environment) (folder : Folder) (origin : Origin) :
    Except LoadFault (Draft × Settings) := do
  let d ← match origin with
    | .named path => ofPath read folder path
    | .search paths => ofPaths read folder paths
  let d := d.setEnvironment env
  return (d, ← d.check.mapError LoadFault.unusable)

end MapScript.Settings
