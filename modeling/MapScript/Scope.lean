import MapScript.Atom.Basic
import MapScript.Level.Builtin

/-! What is known at some point of a script: the version it is for, the section it is in, and the names that
are defined. -/

namespace MapScript

structure Definition where
  name : Text
  atom : Atom
  value : Option Text
deriving DecidableEq, Repr

def Definition.span (d : Definition) : Span := d.atom.span

/-- Definitions of different names, the newest first. -/
abbrev Symbols := List Definition

namespace Symbols

def find? (s : Symbols) (name : Text) : Option Definition := List.find? (fun d => d.name == name) s

def contains (s : Symbols) (name : Text) : Bool := (find? s name).isSome

def insert (s : Symbols) (d : Definition) : Symbols := d :: s.filter fun e => e.name != d.name

def names (s : Symbols) : List Text := s.map Definition.name

end Symbols

structure Scope where
  level : Level
  gameDefines : List Text
  gameConsts : List Text
  options : List Text
  defines : Symbols := []
  consts : Symbols := []
  sectionMark : Option Word := none
  pastHeader : Bool := false

namespace Scope

def initial (level : Level) : Scope :=
  { level, gameDefines := level.defines, gameConsts := level.consts, options := level.options }

def setLevel (s : Scope) (level : Level) : Scope :=
  { s with level, gameDefines := level.defines, gameConsts := level.consts, options := level.options }

def addOption (s : Scope) (name : Text) : Scope :=
  if s.options.contains name then s else { s with options := s.options ++ [name] }

def hasDefine (s : Scope) (name : Text) : Bool :=
  s.defines.contains name || s.gameDefines.contains name

/-- Whether a name may be defined; that is enough for a condition and not for an argument. -/
def mayHaveDefine (s : Scope) (name : Text) : Bool := s.hasDefine name || s.options.contains name

def hasConst (s : Scope) (name : Text) : Bool :=
  s.consts.contains name || s.gameConsts.contains name

def defineNames (s : Scope) : List Text := s.defines.names ++ s.gameDefines

def constNames (s : Scope) : List Text := s.consts.names ++ s.gameConsts

/-- A line of a header: a key and a value with a colon and a space between them, and perhaps a star and a
space before. -/
def headerField? (line : Text) : Option (Text × Text) :=
  let line := Text.trim line
  let line := if line.startsWith "* " then line.drop 2 else line
  Text.cut? ": " line

def headerLevel? (line : Text) : Option Level :=
  match headerField? line with
  | some (key, value) =>
    if Text.lower (Text.trim key) == "compatibility" then Level.ofName? value else none
  | none => none

def readHeaderLine (s : Scope) (line : Text) : Scope :=
  match headerLevel? line with
  | some level => s.setLevel level
  | none => s

def readHeader (s : Scope) (content : Text) : Scope :=
  (Text.anyLines content).foldl readHeaderLine s

/-- Comments count as headers until something else comes. -/
def updateHeader (s : Scope) (atom : Atom) : Scope :=
  if s.pastHeader then s
  else
    match atom with
    | .comment _ content _ _ => s.readHeader content
    | _ => { s with pastHeader := true }

def record (s : Scope) (atom : Atom) : Scope :=
  match atom with
  | .sectionMark name => { s with sectionMark := some name }
  | .define _ name => { s with defines := s.defines.insert ⟨name.text, atom, none⟩ }
  | .const _ name value =>
    { s with consts := s.consts.insert ⟨name.text, atom, value.map Word.text⟩ }
  | _ => s

def update (s : Scope) (atom : Atom) : Scope := (s.updateHeader atom).record atom

end Scope

end MapScript
