import MapScript.Atom.Basic
import MapScript.Diagnostic

/-! The constructs that are open at some point of a script, innermost first, and how each atom opens and
closes them. -/

namespace MapScript

inductive Opener where
  | ifThen
  | elseIf
  | elseThen
  | startRandom
  | percentChance
  | brace
deriving DecidableEq, Repr

namespace Opener

def name : Opener → Text
  | .ifThen => "IF"
  | .elseIf => "ELSEIF"
  | .elseThen => "ELSE"
  | .startRandom => "START_RANDOM"
  | .percentChance => "PERCENT_CHANCE"
  | .brace => "BRACE"

def label : Opener → Text
  | .ifThen => "Matches this `if`"
  | .elseIf => "Matches this `elseif`"
  | .elseThen => "Matches this `else`"
  | .startRandom => "Matches this `start_random`"
  | .percentChance => "Matches this `percent_chance`"
  | .brace => "Matches this open brace `\x7b`"

/-- A branch that another branch of the same condition may follow. -/
def continues : Opener → Bool
  | .ifThen => true
  | .elseIf => true
  | _ => false

def isBranch : Opener → Bool
  | .ifThen => true
  | .elseIf => true
  | .elseThen => true
  | _ => false

def isRandom : Opener → Bool
  | .startRandom => true
  | .percentChance => true
  | _ => false

end Opener

structure Nesting where
  opener : Opener
  atom : Atom
deriving DecidableEq, Repr

namespace Nesting

def describe (n : Nesting) : Text :=
  "Nesting(" ++ n.opener.name ++ ", " ++ n.atom.span.bounds ++ ")"

def unbalanced (name : Text) (atom : Atom) : List Nesting → Diagnostic
  | [] => .error atom.span ("Unbalanced `" ++ name ++ "`, nothing is open")
  | top :: _ =>
    (Diagnostic.error atom.span ("Unbalanced `" ++ name ++ "`")).note top.atom.span top.opener.label

def pop? (sort : Opener → Bool) : List Nesting → Option (List Nesting)
  | top :: rest => if sort top.opener then some rest else none
  | [] => none

def closeChance (stack : List Nesting) : List Nesting := (pop? (· == .percentChance) stack).getD stack

def close (sort : Opener → Bool) (name : Text) (atom : Atom) (stack : List Nesting) :
    List Nesting × Option Diagnostic :=
  match pop? sort stack with
  | some rest => (rest, none)
  | none => (stack, some (unbalanced name atom stack))

def branch (opener : Opener) (atom : Atom) (stack : List Nesting) :
    List Nesting × Option Diagnostic :=
  let (rest, problem) := close Opener.continues (Text.lower atom.head.text) atom stack
  (⟨opener, atom⟩ :: rest, problem)

def chance (atom : Atom) (stack : List Nesting) : List Nesting × Option Diagnostic :=
  let group := closeChance stack
  (⟨.percentChance, atom⟩ :: group,
    match group with
    | ⟨.startRandom, _⟩ :: _ => none
    | _ => some (unbalanced "percent_chance" atom group))

def step (stack : List Nesting) (atom : Atom) : List Nesting × Option Diagnostic :=
  match atom with
  | .openBlock _ => (⟨.brace, atom⟩ :: stack, none)
  | .ifThen _ _ => (⟨.ifThen, atom⟩ :: stack, none)
  | .startRandom _ => (⟨.startRandom, atom⟩ :: stack, none)
  | .closeBlock _ => close (· == .brace) "\x7d" atom stack
  | .elseIf _ _ => branch .elseIf atom stack
  | .elseThen _ => branch .elseThen atom stack
  | .endIf _ => close Opener.isBranch "endif" atom stack
  | .percentChance _ _ => chance atom stack
  | .endRandom _ => close (· == .startRandom) "end_random" atom (closeChance stack)
  | _ => (stack, none)

/-- The open constructs of the given sorts, or all when none is given. -/
def enclosing (sorts : List Opener) (stack : List Nesting) : List Nesting :=
  stack.filter fun n => sorts.isEmpty || sorts.contains n.opener

end Nesting

end MapScript
