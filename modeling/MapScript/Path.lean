import MapScript.Text.Basic

/-! File paths with slashes. -/

namespace MapScript

/-- A path without empty parts and parts that are a single dot. The root is empty for a relative path. -/
structure Path where
  root : Text
  parts : List Text
deriving DecidableEq, Repr

namespace Path

/-- Two slashes at the start are a root of their own, any other number of them is the same as one. -/
def rootOf (t : Text) : Text :=
  match (t.takeWhile (· == .char '/')).length with
  | 0 => []
  | 2 => "//"
  | _ => "/"

def ofText (t : Text) : Path :=
  ⟨rootOf t, (Text.fields (.char '/') t).filter fun part => !part.isEmpty && part != "."⟩

def toText (p : Path) : Text :=
  if p.root.isEmpty && p.parts.isEmpty then "." else p.root ++ Text.join "/" p.parts

def name (p : Path) : Text := p.parts.getLastD []

def withName (p : Path) (name : Text) : Path := { p with parts := p.parts.dropLast ++ [name] }

def addSuffix (p : Path) (suffix : Text) : Path := p.withName (p.name ++ suffix)

def child (p : Path) (name : Text) : Path := { p with parts := p.parts ++ [name] }

end Path

end MapScript
