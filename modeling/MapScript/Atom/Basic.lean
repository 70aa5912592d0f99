import MapScript.Word

/-! Atoms: the smallest statements of a script, with the words they were read from. -/

namespace MapScript

inductive Atom where
  | const (head name : Word) (value : Option Word)
  | define (head name : Word)
  | undefine (head name : Word)
  | sectionMark (name : Word)
  | ifThen (head condition : Word)
  | elseIf (head condition : Word)
  | elseThen (head : Word)
  | endIf (head : Word)
  | startRandom (head : Word)
  | percentChance (head chance : Word)
  | endRandom (head : Word)
  | openBlock (head : Word)
  | closeBlock (head : Word)
  | command (name : Word) (args : List Word)
  /-- The text between the marks of a comment, and the offset where the comment ends; without a closing
  mark that is the end of the last word. -/
  | comment (opener : Word) (content : Text) (closer : Option Word) (stop : Nat)
  | other (word : Word)
deriving DecidableEq, Repr

namespace Atom

inductive Kind where
  | const
  | define
  | undefine
  | sectionMark
  | ifThen
  | elseIf
  | elseThen
  | endIf
  | startRandom
  | percentChance
  | endRandom
  | openBlock
  | closeBlock
  | command
  | comment
  | other
deriving DecidableEq, Repr

def Kind.name : Kind → Text
  | .const => "const"
  | .define => "define"
  | .undefine => "undefine"
  | .sectionMark => "section"
  | .ifThen => "if"
  | .elseIf => "elseif"
  | .elseThen => "else"
  | .endIf => "endif"
  | .startRandom => "start_random"
  | .percentChance => "percent_chance"
  | .endRandom => "end_random"
  | .openBlock => "open_block"
  | .closeBlock => "close_block"
  | .command => "command"
  | .comment => "comment"
  | .other => "other"

def kind : Atom → Kind
  | .const .. => .const
  | .define .. => .define
  | .undefine .. => .undefine
  | .sectionMark .. => .sectionMark
  | .ifThen .. => .ifThen
  | .elseIf .. => .elseIf
  | .elseThen .. => .elseThen
  | .endIf .. => .endIf
  | .startRandom .. => .startRandom
  | .percentChance .. => .percentChance
  | .endRandom .. => .endRandom
  | .openBlock .. => .openBlock
  | .closeBlock .. => .closeBlock
  | .command .. => .command
  | .comment .. => .comment
  | .other .. => .other

def head : Atom → Word
  | .const head _ _ => head
  | .define head _ => head
  | .undefine head _ => head
  | .sectionMark name => name
  | .ifThen head _ => head
  | .elseIf head _ => head
  | .elseThen head => head
  | .endIf head => head
  | .startRandom head => head
  | .percentChance head _ => head
  | .endRandom head => head
  | .openBlock head => head
  | .closeBlock head => head
  | .command name _ => name
  | .comment opener _ _ _ => opener
  | .other word => word

def tail : Atom → List Word
  | .const _ name value => name :: value.toList
  | .define _ name => [name]
  | .undefine _ name => [name]
  | .ifThen _ condition => [condition]
  | .elseIf _ condition => [condition]
  | .percentChance _ chance => [chance]
  | .command _ args => args
  | .comment _ _ closer _ => closer.toList
  | _ => []

def words (a : Atom) : List Word := a.head :: a.tail

def file (a : Atom) : Int := a.head.file

def start (a : Atom) : Nat := a.head.start

def stop : Atom → Nat
  | .comment _ _ _ stop => stop
  | a => (a.tail.getLastD a.head).stop

def span (a : Atom) : Span := ⟨a.file, a.start, a.stop⟩

def describe : Atom → Text
  | .const _ name value =>
    "Const<" ++ name.text ++ ", " ++ (match value with | some v => v.text | none => "()") ++ ">"
  | .define _ name => "Define<" ++ name.text ++ ">"
  | .undefine _ name => "Undefine<" ++ name.text ++ ">"
  | .sectionMark name => "Section" ++ name.text
  | .ifThen _ condition => "If<" ++ condition.text ++ ">"
  | .elseIf _ condition => "ElseIf<" ++ condition.text ++ ">"
  | .elseThen _ => "Else"
  | .endIf _ => "EndIf"
  | .startRandom _ => "StartRandom"
  | .percentChance _ chance => "PercentChance<" ++ chance.text ++ ">"
  | .endRandom _ => "EndRandom"
  | .openBlock _ => "OpenBlock"
  | .closeBlock _ => "CloseBlock"
  | .command name args =>
    "Command<" ++ name.text ++ args.flatMap (fun arg => (", " ++ arg.text : Text)) ++ ">"
  | .comment _ content _ _ => "Comment<" ++ Text.quoted content ++ ">"
  | .other word => "Other<" ++ word.text ++ ">"

end Atom

end MapScript
