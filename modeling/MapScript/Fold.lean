import MapScript.Atom.Reader
import MapScript.Source

/-! The parts of a script that an editor can fold: comments, blocks, branches and random groups that take
more than one line. -/

namespace MapScript.Fold

abbrev Range := Nat × Nat

def range (first last : Nat) : List Range := if first < last then [(first, last)] else []

def line (source : Text) (offset : Nat) : Nat := (Text.position source offset).1

def close (source : Text) (kinds : List Atom.Kind) (last : Nat) :
    List Atom → List Atom × List Range
  | top :: rest =>
    if kinds.contains top.kind then (rest, range (line source top.start) last) else (top :: rest, [])
  | [] => ([], [])

/-- A branch takes the place of the one before it, if there is one, which ends on the line before. -/
def branch (source : Text) (atom : Atom) (waiting : List Atom) : List Atom × List Range :=
  match waiting with
  | top :: rest =>
    if top.kind = .ifThen || top.kind = .elseIf then
      (atom :: rest, range (line source top.start) (line source atom.start - 1))
    else (waiting, [])
  | [] => ([], [])

/-- The atoms that wait to be closed after an atom, innermost first, and the ranges that it ends. -/
def step (source : Text) (waiting : List Atom) (atom : Atom) : List Atom × List Range :=
  let here := line source atom.start
  match atom with
  | .comment _ _ (some closer) _ => (waiting, range here (line source closer.start))
  | .openBlock _ => (atom :: waiting, [])
  | .ifThen _ _ => (atom :: waiting, [])
  | .startRandom _ => (atom :: waiting, [])
  | .closeBlock _ => close source [.openBlock] here waiting
  | .elseIf _ _ => branch source atom waiting
  | .elseThen _ => branch source atom waiting
  | .endIf _ => close source [.ifThen, .elseIf, .elseThen] here waiting
  | .percentChance _ _ =>
    let (waiting, ranges) := close source [.percentChance] (here - 1) waiting
    (atom :: waiting, ranges)
  | .endRandom _ =>
    let (waiting, chances) := close source [.percentChance] (here - 1) waiting
    let (waiting, groups) := close source [.startRandom] here waiting
    (waiting, chances ++ groups)
  | _ => (waiting, [])

def run (source : Text) : List Atom → List Atom → List Range
  | _, [] => []
  | waiting, atom :: rest =>
    let (waiting, ranges) := step source waiting atom
    ranges ++ run source waiting rest

def ranges (source : Text) : List Range := run source [] (Atom.parse 0 source)

end MapScript.Fold
