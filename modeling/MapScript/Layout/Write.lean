import MapScript.Atom.Reader
import MapScript.Layout.Output
import MapScript.Layout.Tree
import MapScript.Text.Utf8

/-! Laying out a script: one command on a line, the bodies of constructs indented, the first arguments of the
commands in a block in a column, and at most one of the empty lines between statements kept. -/

namespace MapScript.Layout

structure Width where
  command : Int := 0
  arg : Nat := 0

/-- Where something is written. The branches of a condition after the first are indented differently from
the statements beside them. -/
structure Place where
  indent : Nat := 0
  branchIndent : Nat := 0
  width : Width := {}
  inBlock : Bool := false

structure Job where
  options : Options
  source : Text

namespace Job

def between (job : Job) (a b : Atom) : Text := job.source.slice a.stop b.start

/-- Whether there is an empty line between two atoms. The piece before the first line feed and the piece
after the last one count as lines too, though not when they are missing. -/
def isPadded (job : Job) (a b : Atom) : Bool :=
  let gap := job.between a b
  (if gap.endsWith "\n" then 2 else 3) ≤ (Text.feedLines gap).countP fun line => (Text.trim line).isEmpty

def isTrailing (job : Job) (a b : Atom) : Bool :=
  b.kind == .comment && !(job.between a b).contains (.char '\n')

def endRun (job : Job) (out : Output) (atom : Atom) : Output :=
  match out.last with
  | some last =>
    if last.kind = .closeBlock || (last.kind = .other && atom.kind ≠ .other) then
      out.newline job.options
    else out
  | none => out

def makeSpace (job : Job) (indent : Nat) (out : Output) (atom : Atom) : Output :=
  match out.last with
  | some last =>
    if job.isPadded last atom then out.separate job.options
    else if job.isTrailing last atom then
      (out.removeNewline job.options).write job.options indent " "
    else out
  | none => out

def before (job : Job) (indent : Nat) (out : Output) (atom : Atom) : Output :=
  job.makeSpace indent (job.endRun out atom) atom

def arguments (job : Job) (width : Width) (name : Word) (args : List Word) : List Text :=
  let plain (words : List Word) : List Text := words.map fun w => " " ++ w.text
  match args with
  | [] => []
  | first :: rest =>
    if job.options.alignArgs then
      (spaces (width.command - name.text.length) ++ " " ++ first.text)
        :: (if rest.isEmpty then [] else [spaces (width.arg - first.text.length)]) ++ plain rest
    else plain args

def command (job : Job) (place : Place) (beforeBlock : Bool) (out : Output) (name : Word)
    (args : List Word) : Output :=
  let out := out.write job.options place.indent name.text
  let out := (job.arguments place.width name args).foldl Output.raw out
  if beforeBlock then out.raw " " else out.newline job.options

def sectionMark (job : Job) (indent : Nat) (out : Output) (name : Word) : Output :=
  let out := if out.last.isSome then out.separate job.options else out
  out.statement job.options indent [name.text]

def dropBlankEnd (lines : List Text) : List Text :=
  (lines.reverse.dropWhile fun line => (Text.trim line).isEmpty).reverse

def commentLine (line : Text) : Text :=
  let trimmed := Text.trim line
  if trimmed.startsWith "*" then " " ++ trimmed else " * " ++ Text.trimRight line

def comment (job : Job) (indent : Nat) (out : Output) (content : Text) : Output :=
  let o := job.options
  let lines := Text.feedLines content
  let first := Text.trim (lines.headD [])
  let rest := dropBlankEnd lines.tail
  let out := out.write o indent (if first.isEmpty then "/*" else "/* " ++ first)
  let out := rest.foldl (fun out line => (out.newline o).write o indent (commentLine line)) out
  let out := if rest.isEmpty then out else out.newline o
  (out.write o indent " */").newline o

def other (job : Job) (indent : Nat) (out : Output) (word : Word) : Output :=
  let follows := out.last.any (·.kind == .other) && !out.atLineStart
  (if follows then out.raw " " else out).write job.options indent word.text

def atomBody (job : Job) (place : Place) (beforeBlock : Bool) (out : Output) (atom : Atom) : Output :=
  let statement := out.statement job.options place.indent
  match atom with
  | .sectionMark name => job.sectionMark place.indent out name
  | .define _ name => statement ["#define", name.text]
  | .undefine _ name => statement ["#undefine", name.text]
  | .const _ name (some value) => statement ["#const", name.text, value.text]
  | .const _ name none => statement ["#const", name.text]
  | .command name args => job.command place beforeBlock out name args
  | .comment _ content _ _ => job.comment place.indent out content
  | .other word => job.other place.indent out word
  | .ifThen _ condition => statement ["if", condition.text]
  | .elseIf _ condition => statement ["elseif", condition.text]
  | .elseThen _ => statement ["else"]
  | .endIf _ => statement ["endif"]
  | .startRandom _ => statement ["start_random"]
  | .percentChance _ chance => statement ["percent_chance", chance.text]
  | .endRandom _ => statement ["end_random"]
  | .openBlock _ => (out.write job.options place.indent "\x7b").newline job.options
  | .closeBlock _ => statement ["\x7d"]

def atom (job : Job) (place : Place) (beforeBlock : Bool) (out : Output) (atom : Atom) : Output :=
  (job.atomBody place beforeBlock (job.before place.indent out atom) atom).setLast (some atom)

def widthOf (tabSize : Int) (depth : Int) (width : Width) : List Atom → Width
  | [] => width
  | .command name args :: rest =>
    let arg := match args with
      | first :: _ => first.text.length
      | [] => 0
    widthOf tabSize depth
      ⟨max width.command (name.text.length + depth * tabSize), max width.arg arg⟩ rest
  | .ifThen _ _ :: rest => widthOf tabSize (depth + 1) width rest
  | .endIf _ :: rest => widthOf tabSize (depth - 1) width rest
  | _ :: rest => widthOf tabSize depth width rest

def blockPlace (job : Job) (place : Place) (body : List Node) : Place :=
  { indent := place.indent + 1
    branchIndent := place.indent + 1
    width := widthOf job.options.tabSize 0 {} (Node.allAtoms body)
    inBlock := true }

def conditionPlace (job : Job) (place : Place) : Place :=
  { place with
    indent := place.indent + 1
    branchIndent := place.indent
    width := { place.width with command := max 0 (place.width.command - job.options.tabSize) } }

def randomPlace (place : Place) : Place :=
  { place with indent := place.indent + 1, branchIndent := place.indent + 1, width := {} }

def chancePlace (place : Place) : Place :=
  { place with indent := place.indent + 1, branchIndent := place.indent + 1 }

def chanceText (head : Atom) : Text :=
  Text.join " " ("percent_chance" :: head.tail.map Word.text)

def isShort (atom : Atom) : Bool :=
  match atom.kind with
  | .define => true
  | .const => true
  | .undefine => true
  | .command => true
  | _ => false

def isShortChance : Node → Bool
  | .chance _ [] => true
  | .chance _ [.single atom] => isShort atom
  | _ => false

def chanceLength (chances : List Node) : Nat :=
  chances.foldl (fun longest node =>
    match node with
    | .chance head _ => max longest (chanceText head).length
    | _ => longest) 0

def placeOf (place : Place) (atom : Atom) : Place :=
  match atom.kind with
  | .elseIf => { place with indent := place.branchIndent }
  | .elseThen => { place with indent := place.branchIndent }
  | _ => place

/-- The end of a condition. At the top it has an empty line after it, unless it guards a block or nothing
follows. -/
def closeCondition (job : Job) (place : Place) (next : Option Node) (out : Output)
    (closer : Atom) : Output :=
  let out := job.atom place false out closer
  match next with
  | some node => if !place.inBlock && !node.isBlock then out.newline job.options else out
  | none => out

def endStray (job : Job) (out : Output) : Output :=
  if out.last.any (·.kind == .other) then out.newline job.options else out

mutual
def node (job : Job) (place : Place) (next : Option Node) (out : Output) : Node → Output
  | .single a => job.atom (placeOf place a) (next.any Node.isBlock) out a
  | .block opener body _ =>
    let out := job.atom place false out opener
    let out := job.endStray (nodes job (job.blockPlace place body) out body)
    out.statement job.options place.indent ["\x7d"]
  | .condition opener body closer =>
    let out := job.atom place false out opener
    let out := nodes job (job.conditionPlace place) out body
    match closer with
    | some closer => job.closeCondition place next out closer
    | none => out
  | .random opener leading chanceNodes _ =>
    let out := job.atom place false out opener
    let inner := randomPlace place
    let out := nodes job inner out leading
    let short := chanceNodes.all isShortChance
    let out := chances job inner short (chanceLength chanceNodes) out chanceNodes
    out.statement job.options place.indent ["end_random"]
  | .chance head body => nodes job place (job.atom place false out head) body

def nodes (job : Job) (place : Place) (out : Output) : List Node → Output
  | [] => out
  | n :: rest => nodes job place (node job place rest.head? out n) rest

/-- The chances of a random group, each on a line when all are short. A short statement stays on the line
whatever space the source has before it. -/
def chances (job : Job) (place : Place) (short : Bool) (length : Nat) (out : Output) :
    List Node → Output
  | [] => out
  | .chance head body :: rest =>
    let out :=
      if short then
        let out := out.write job.options place.indent (Text.padRight (chanceText head) length)
        if body.isEmpty then out.newline job.options
        else nodes job place ((out.raw " ").setLast none) body
      else
        nodes job (chancePlace place)
          (out.statement job.options place.indent [chanceText head]) body
    chances job place short length out rest
  | _ :: rest => chances job place short length out rest
end

end Job

def format (options : Options) (source : Text) : Text :=
  (Job.nodes ⟨options, source⟩ {} {} (Node.group (Atom.parse 0 source))).text

def formatBytes (options : Options) (bytes : Bytes) : Bytes :=
  (format options (Text.readKeeping bytes)).encode

def isFormatted (options : Options) (source : Text) : Bool := format options source == source

end MapScript.Layout
