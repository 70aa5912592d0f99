import MapScript.Layout.Write

/-! Whether a layout can be written. It cannot if it needs a tab size and there is none, or if the tab size
asks for more spaces than there can be; what comes first in the script decides. -/

namespace MapScript.Layout

inductive Use where
  | indentation
  | width
  | condition
deriving DecidableEq, Repr

inductive Fault where
  | noTabSize (use : Use)
  | tooWide
  | outOfMemory
deriving DecidableEq, Repr

def Fault.message : Fault → Text
  | .noTabSize .indentation => "can't multiply sequence by non-int of type 'list'"
  | .noTabSize .width => "unsupported operand type(s) for +: 'int' and 'list'"
  | .noTabSize .condition => "unsupported operand type(s) for -: 'int' and 'list'"
  | .tooWide => Index.message
  | .outOfMemory => ""

/-- A layout without its spaces, the tab size that it should have, and how many spaces are too many. -/
structure Trial where
  job : Job
  tabSize : Option Int
  memory : Nat

namespace Trial

def checkSpaces (t : Trial) (n : Int) : Except Fault Unit :=
  if !Index.fits n then .error .tooWide else if t.memory ≤ n then .error .outOfMemory else .ok ()

def checkIndentation (t : Trial) (indent : Nat) : Except Fault Unit :=
  match t.job.options.useSpaces, t.tabSize with
  | false, _ => .ok ()
  | true, some n => t.checkSpaces (indent * n)
  | true, none => .error (.noTabSize .indentation)

def checkPiece (t : Trial) (place : Place) (out : Output) : Except Fault Unit :=
  if out.atLineStart then t.checkIndentation place.indent else .ok ()

def atom (t : Trial) (tabSize : Int) (beforeBlock : Bool) (out : Output) (a : Atom) : Output :=
  { t.job with options := { t.job.options with tabSize } }.atom { indent := 1 } beforeBlock out a

/-- Whether a line begins with some part of an atom: it comes out longer when lines are indented. -/
def beginsLine (t : Trial) (beforeBlock : Bool) (out : Output) (a : Atom) : Bool :=
  (t.atom 1 beforeBlock out a).text.length ≠ (t.atom 0 beforeBlock out a).text.length

def checkArguments (t : Trial) (place : Place) : Atom → Except Fault Unit
  | .command name (_ :: _) =>
    if t.job.options.alignArgs then t.checkSpaces (max 0 (place.width.command - name.text.length)) else .ok ()
  | _ => .ok ()

def write (t : Trial) (place : Place) (beforeBlock : Bool) (out : Output) (a : Atom) :
    Except Fault Output := do
  if t.job.options.useSpaces && t.beginsLine beforeBlock out a then t.checkIndentation place.indent
  t.checkArguments place a
  return t.atom 0 beforeBlock out a

def line (t : Trial) (place : Place) (out : Output) (words : List Text) : Except Fault Output := do
  t.checkPiece place out
  return out.statement t.job.options 0 words

def sized (t : Trial) : Job :=
  { t.job with options := { t.job.options with tabSize := t.tabSize.getD 0 } }

def checkWidth (t : Trial) (body : List Node) : Except Fault Unit :=
  if t.tabSize.isNone && (Node.allAtoms body).any (·.kind == .command) then .error (.noTabSize .width)
  else .ok ()

def checkCondition (t : Trial) : Except Fault Unit :=
  if t.tabSize.isNone then .error (.noTabSize .condition) else .ok ()

mutual
def node (t : Trial) (place : Place) (next : Option Node) (out : Output) : Node → Except Fault Output
  | .single a => t.write (Job.placeOf place a) (next.any Node.isBlock) out a
  | .block opener body _ => do
    t.checkWidth body
    let out ← t.write place false out opener
    let out ← nodes t (t.sized.blockPlace place body) out body
    t.line place (t.job.endStray out) ["\x7d"]
  | .condition opener body closer => do
    let out ← t.write place false out opener
    t.checkCondition
    let out ← nodes t (t.sized.conditionPlace place) out body
    match closer with
    | some closer =>
      let _ ← t.write place false out closer
      return t.job.closeCondition { place with indent := 0 } next out closer
    | none => return out
  | .random opener leading chanceNodes _ => do
    let out ← t.write place false out opener
    let inner := Job.randomPlace place
    let out ← nodes t inner out leading
    let short := chanceNodes.all Job.isShortChance
    let out ← chances t inner short out chanceNodes
    t.line place out ["end_random"]
  | .chance head body => do nodes t place (← t.write place false out head) body

def nodes (t : Trial) (place : Place) (out : Output) : List Node → Except Fault Output
  | [] => .ok out
  | n :: rest => do nodes t place (← node t place rest.head? out n) rest

def chances (t : Trial) (place : Place) (short : Bool) (out : Output) : List Node → Except Fault Output
  | [] => .ok out
  | .chance head body :: rest => do
    t.checkPiece place out
    let out ←
      if short then
        let out := out.write t.job.options 0 (Job.chanceText head)
        if body.isEmpty then pure (out.newline t.job.options)
        else nodes t place ((out.raw " ").setLast none) body
      else
        nodes t (Job.chancePlace place) (out.statement t.job.options 0 [Job.chanceText head]) body
    chances t place short out rest
  | _ :: rest => chances t place short out rest
end

end Trial

/-- Why a layout cannot be written. A tab size that is small for the script needs no trial. -/
def fault? (memory : Nat) (options : Options) (tabSize : Option Int) (source : Text) : Option Fault :=
  if tabSize.any fun n => (n.natAbs + 1) * (source.length + 1) < memory then none
  else
    let t : Trial := ⟨⟨{ options with tabSize := 0 }, source⟩, tabSize, memory⟩
    match t.nodes {} {} (Node.group (Atom.parse 0 source)) with
    | .ok _ => none
    | .error fault => some fault

def formatWithin (memory : Nat) (options : Options) (tabSize : Option Int) (source : Text) :
    Except Fault Text :=
  match fault? memory options tabSize source with
  | some fault => .error fault
  | none => .ok (format { options with tabSize := tabSize.getD 0 } source)

theorem eq_format_of_formatWithin {memory : Nat} {options : Options} {tabSize : Option Int} {source result : Text}
    (h : formatWithin memory options tabSize source = .ok result) :
    result = format { options with tabSize := tabSize.getD 0 } source := by
  unfold formatWithin at h
  split at h
  · cases h
  · exact (Except.ok.inj h).symm

theorem formatWithin_of_lt {memory : Nat} {n : Int} {source : Text}
    (h : (n.natAbs + 1) * (source.length + 1) < memory) (options : Options) :
    formatWithin memory options (some n) source = .ok (format { options with tabSize := n } source) := by
  have hfault : fault? memory options (some n) source = none := by simp [fault?, h]
  rw [formatWithin, hfault]
  rfl

end MapScript.Layout
