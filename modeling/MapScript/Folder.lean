import MapScript.Path
import MapScript.Text.Quoted
import MapScript.Text.Utf8

/-! The files that a command reads and writes. -/

namespace MapScript

/-- Files by their paths, and directories that have to be known though no file in them is. -/
structure Folder where
  files : List (Path × Bytes) := []
  directories : List Path := []

namespace Folder

inductive Reason where
  | missing
  | notDirectory
  | isDirectory
  | tooLong
  | nullByte
deriving DecidableEq, Repr

structure Fault where
  reason : Reason
  path : Path
deriving DecidableEq, Repr

def Reason.message : Reason → Text
  | .missing => "[Errno 2] No such file or directory"
  | .notDirectory => "[Errno 20] Not a directory"
  | .isDirectory => "[Errno 21] Is a directory"
  | .tooLong => "[Errno 36] File name too long"
  | .nullByte => "embedded null byte"

def Fault.message (fault : Fault) : Text :=
  if fault.reason = .nullByte then fault.reason.message
  else fault.reason.message ++ ": " ++ fault.path.toText.quoted

def leadsTo (p q : Path) : Bool := p.root == q.root && p.parts.isPrefixOf q.parts

def back : Text := ".."

/-- Whether a path is a directory. The root, the working directory and those that hold it always are. -/
def isDirectory (f : Folder) (p : Path) : Bool :=
  p.parts.all (· == back) || f.directories.any (leadsTo p) || f.files.any fun (q, _) => q != p && leadsTo p q

/-- One part more on the way from the root or the working directory; `place` is the way so far, backwards.
There is nothing above the root. -/
def go (root : Text) (part : Text) (place : List Text) : List Text :=
  if part ≠ back then part :: place
  else match place with
    | [] => if root.isEmpty then [back] else []
    | last :: rest => if last = back then back :: place else rest

def maxName : Nat := 255

def maxPath : Nat := 4095

/-- Takes the steps back out of a path where they can be taken; all on the way have to be directories. -/
def resolve (f : Folder) (root : Text) (place : List Text) : List Text → Except Reason (List Text)
  | [] => .ok place.reverse
  | part :: rest =>
    let here : Path := ⟨root, place.reverse⟩
    if f.isDirectory here then
      if maxName < part.encode.length then .error .tooLong else f.resolve root (go root part place) rest
    else if f.files.any (·.1 == here) then .error .notDirectory
    else .error .missing

def locate (f : Folder) (p : Path) : Except Reason Path :=
  let root : Text := if p.root.isEmpty then [] else "/"
  if p.toText.contains (.char '\x00') then .error .nullByte
  else if maxPath < p.toText.encode.length then .error .tooLong
  else (f.resolve root [] p.parts).map fun parts => ⟨root, parts⟩

def find? (f : Folder) (p : Path) : Except Reason Bytes :=
  match f.files.lookup p with
  | some bytes => .ok bytes
  | none => do
    let place ← f.locate p
    match f.files.lookup place with
    | some bytes => .ok bytes
    | none => .error (if f.isDirectory place then .isDirectory else .missing)

def read (f : Folder) (p : Path) : Except Fault Bytes := (f.find? p).mapError fun reason => ⟨reason, p⟩

def has (f : Folder) (p : Path) : Except Fault Bool :=
  match f.find? p with
  | .ok _ => .ok true
  | .error .tooLong => .error ⟨.tooLong, p⟩
  | .error reason => .ok (reason == .isDirectory)

def place (f : Folder) (p : Path) : Path := ((f.locate p).toOption).getD p

def insert (f : Folder) (p : Path) (bytes : Bytes) : Folder :=
  if f.files.any (·.1 == p) then
    { f with files := f.files.map fun (q, old) => (q, if q = p then bytes else old) }
  else { f with files := f.files ++ [(p, bytes)] }

def write (f : Folder) (p : Path) (bytes : Bytes) : Except Fault Folder := do
  let place ← (f.locate p).mapError fun reason => ⟨reason, p⟩
  if f.isDirectory place then .error ⟨.isDirectory, p⟩ else .ok (f.insert place bytes)

def move (f : Folder) (source target : Path) : Except Fault Folder := do
  let bytes ← f.read source
  let kept := { f with files := f.files.filter fun (q, _) => q != f.place source }
  return kept.insert (f.place target) bytes

end Folder

end MapScript
