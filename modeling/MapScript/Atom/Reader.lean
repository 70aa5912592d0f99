import MapScript.Atom.Basic
import MapScript.Catalog.Names

/-! Reading atoms from words. Reading never fails: a malformed statement gives an atom and a flaw, and every
word goes into exactly one atom. -/

namespace MapScript

inductive Keyword where
  | openBrace
  | closeBrace
  | openComment
  | ifWord
  | elseIfWord
  | elseWord
  | endIfWord
  | startRandom
  | percentChance
  | endRandom
  | define
  | undefine
  | const
deriving DecidableEq, Repr

namespace Keyword

def all : List Keyword :=
  [.openBrace, .closeBrace, .openComment, .ifWord, .elseIfWord, .elseWord, .endIfWord, .startRandom,
   .percentChance, .endRandom, .define, .undefine, .const]

def spelling : Keyword → Text
  | .openBrace => "\x7b"
  | .closeBrace => "\x7d"
  | .openComment => "/*"
  | .ifWord => "if"
  | .elseIfWord => "elseif"
  | .elseWord => "else"
  | .endIfWord => "endif"
  | .startRandom => "start_random"
  | .percentChance => "percent_chance"
  | .endRandom => "end_random"
  | .define => "#define"
  | .undefine => "#undefine"
  | .const => "#const"

def ofText? (t : Text) : Option Keyword :=
  let lowered := Text.lower t
  all.find? fun k => k.spelling == lowered

end Keyword

inductive Flaw.Kind where
  | missingConstName
  | missingConstValue
  | missingDefineName
  | missingCommandArgs
  | missingIfCondition
  | missingPercentChance
  | unclosedComment
  | unknownWord
deriving DecidableEq, Repr

namespace Flaw.Kind

def name : Flaw.Kind → Text
  | .missingConstName => "MISSING_CONST_NAME"
  | .missingConstValue => "MISSING_CONST_VALUE"
  | .missingDefineName => "MISSING_DEFINE_NAME"
  | .missingCommandArgs => "MISSING_COMMAND_ARGS"
  | .missingIfCondition => "MISSING_IF_CONDITION"
  | .missingPercentChance => "MISSING_PERCENT_CHANCE"
  | .unclosedComment => "UNCLOSED_COMMENT"
  | .unknownWord => "UNKNOWN_WORD"

def message : Flaw.Kind → Text
  | .missingConstName => "Missing #const name"
  | .missingConstValue => "Missing #const value"
  | .missingDefineName => "Missing #define name"
  | .missingCommandArgs => "Missing command arguments"
  | .missingIfCondition => "Missing condition after `if`"
  | .missingPercentChance => "Missing chance value after `percent_chance`"
  | .unclosedComment => "Unclosed comment"
  | .unknownWord => "Unknown word"

def wantsMore : Flaw.Kind → Bool
  | .unclosedComment => false
  | .unknownWord => false
  | _ => true

end Flaw.Kind

structure Flaw where
  kind : Flaw.Kind
  span : Span
deriving DecidableEq, Repr

structure Item where
  atom : Atom
  flaws : List Flaw
deriving DecidableEq, Repr

namespace Item

def openMark : Text := "/*"

def closeMark : Text := "*/"

def nonArguments : List Text :=
  [openMark, closeMark, "\x7b", "\x7d", "if", "elseif", "else", "endif", "start_random", "percent_chance",
   "end_random"]

/-- Whether a word can be an argument; one that looks like a comment mark cannot. -/
def isArgument (t : Text) : Bool :=
  !nonArguments.contains t && !Catalog.contains t && !t.startsWith openMark && !t.endsWith closeMark

def isInlineComment (t : Text) : Bool := 4 ≤ t.length && t.startsWith openMark && t.endsWith closeMark

def takeArgs (n : Nat) (words : List Word) : List Word :=
  (words.take n).takeWhile fun w => isArgument w.text

def sound (atom : Atom) : Item := ⟨atom, []⟩

def flawed (atom : Atom) (kind : Flaw.Kind) : Item := ⟨atom, [⟨kind, atom.span⟩]⟩

/-- A keyword with the one argument it needs, or else a stray word; with it the number of words taken from
`rest`, as in all readers below. -/
def readWithArg (build : Word → Atom) (missing : Flaw.Kind) (head : Word) (rest : List Word) :
    Item × Nat :=
  match takeArgs 1 rest with
  | arg :: _ => (sound (build arg), 1)
  | [] => (flawed (.other head) missing, 0)

def readConst (head : Word) (rest : List Word) : Item × Nat :=
  match takeArgs 2 rest with
  | [] => (flawed (.other head) .missingConstName, 0)
  | [name] => (flawed (.const head name none) .missingConstValue, 1)
  | name :: value :: _ => (sound (.const head name (some value)), 2)

def readCommand (entry : Entry) (name : Word) (rest : List Word) : Item × Nat :=
  let args := takeArgs entry.arity rest
  let atom := Atom.command name args
  (if args.length = entry.arity then sound atom else flawed atom .missingCommandArgs, args.length)

/-- A comment goes on to the first word that is just the closing mark. -/
def readComment (source : Text) (opener : Word) (rest : List Word) : Item × Nat :=
  let inner := rest.takeWhile fun w => w.text != closeMark
  match rest.drop inner.length with
  | closer :: _ =>
    (sound (.comment opener (source.slice opener.stop closer.start) (some closer) closer.stop),
      inner.length + 1)
  | [] =>
    (flawed (.comment opener (source.drop opener.stop) none (inner.getLastD opener).stop)
      .unclosedComment, inner.length)

def inlineComment (w : Word) : Atom :=
  .comment ⟨w.text.take 2, w.file, w.start⟩ (w.text.slice 2 (w.text.length - 2))
    (some ⟨w.text.drop (w.text.length - 2), w.file, w.stop - 2⟩) w.stop

def read (source : Text) (w : Word) (rest : List Word) : Item × Nat :=
  if Catalog.isSectionShaped w.text && Catalog.contains w.text then (sound (.sectionMark w), 0)
  else
    match Keyword.ofText? w.text with
    | some .openBrace => (sound (.openBlock w), 0)
    | some .closeBrace => (sound (.closeBlock w), 0)
    | some .openComment => readComment source w rest
    | some .ifWord => readWithArg (.ifThen w) .missingIfCondition w rest
    | some .elseIfWord => readWithArg (.elseIf w) .missingIfCondition w rest
    | some .elseWord => (sound (.elseThen w), 0)
    | some .endIfWord => (sound (.endIf w), 0)
    | some .startRandom => (sound (.startRandom w), 0)
    | some .percentChance => readWithArg (.percentChance w) .missingPercentChance w rest
    | some .endRandom => (sound (.endRandom w), 0)
    | some .define => readWithArg (.define w) .missingDefineName w rest
    | some .undefine => readWithArg (.undefine w) .missingDefineName w rest
    | some .const => readConst w rest
    | none =>
      match Catalog.find? w.text with
      | some entry => readCommand entry w rest
      | none =>
        if isInlineComment w.text then (sound (inlineComment w), 0)
        else (flawed (.other w) .unknownWord, 0)

def readFrom (source : Text) : (skip : Nat) → List Word → List Item
  | _, [] => []
  | skip + 1, _ :: rest => readFrom source skip rest
  | 0, w :: rest =>
    let (item, used) := read source w rest
    item :: readFrom source used rest

def parse (file : Int) (source : Text) : List Item := readFrom source 0 (Word.scan file source)

end Item

namespace Atom

def parse (file : Int) (source : Text) : List Atom := (Item.parse file source).map Item.atom

end Atom

end MapScript
