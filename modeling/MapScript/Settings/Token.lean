import MapScript.Settings.Scalar

/-! The tokens that a settings file is made of: words with or without quotes, dashes, colons, the brackets
and commas of lists and maps that are written in a line, and the starts and ends of the lists and maps that
are told by their indentation. -/

namespace MapScript.Settings

inductive Token where
  | word (t : Text)
  | quoted (codes : List Nat)
  | dash
  | key
  | colon
  | comma
  | openList
  | closeList
  | openMap
  | closeMap
  | listStart
  | mapStart
  | blockEnd
  | documentStart
  | documentEnd
deriving DecidableEq, Repr

namespace Scan

/-- A place where a key may have begun: how many tokens were before it, where it is, and whether it has to
be a key because of its column. -/
structure Mark where
  before : Nat
  index : Nat
  line : Nat
  column : Nat
  required : Bool

inductive Joint where
  | nothing
  | space
  | kept (code : Nat)

/-- What the scan is inside of, with what it has read so far, backwards. Blanks are kept apart until it is
known whether they count. Between quotes the numbers of characters are kept, because an escape may give the
number of no character. -/
inductive Inside where
  | gap
  | comment
  | skip (count : Nat)
  | plain (text blanks : Text)
  | plainBreak (text : Text) (joint : Joint) (breaks : Text)
  | quoted (double : Bool) (codes blanks : List Nat)
  | quotePair (codes : List Nat)
  | quotedBreak (double : Bool) (codes : List Nat) (joint : Joint) (breaks : List Nat)
  | escape (codes : List Nat)
  | code (codes : List Nat) (digits value : Nat)

/-- Where the scan is, the columns of the indented lists and maps that are open, whether a key may begin,
where keys may have begun (for the line and for each bracket that is open, the innermost first), and the
tokens so far, backwards. -/
structure State where
  index : Nat := 0
  line : Nat := 0
  column : Nat := 0
  indents : List Nat := []
  allowsKey : Bool := true
  marks : List (Option Mark) := [none]
  inside : Inside := .gap
  tokens : List Token := []

def isOneOf (chars : String) : Glyph → Bool
  | .char c => chars.toList.contains c
  | .stray _ => false

def isBreak (g : Glyph) : Bool := isOneOf "\n\u0085\u2028\u2029" g

def endsWord (next : Option Glyph) : Bool := next.all fun g => isOneOf " \t" g || isBreak g

def breakCode (g : Glyph) : Nat := if isOneOf "\n\u0085" g then 0x0a else g.code

def jointOf (g : Glyph) : Joint := if breakCode g = 0x0a then .space else .kept g.code

def Joint.fold (joint : Joint) (breaks : List Nat) : List Nat :=
  match joint with
  | .nothing => breaks
  | .space => if breaks.isEmpty then [0x20] else breaks
  | .kept code => breaks ++ [code]

def isMark (c : Char) (t : Text) : Bool := t.startsWith (Text.ofChars 3 c) && endsWord (t.drop 3).head?

def State.isDivider (s : State) (t : Text) : Bool := s.column = 0 && (isMark '-' t || isMark '.' t)

namespace State

def inBrackets (s : State) : Bool := 1 < s.marks.length

def add (s : State) (token : Token) : State := { s with inside := .gap, tokens := token :: s.tokens }

def dropMark? (s : State) : Option State :=
  match s.marks with
  | some mark :: rest => if mark.required then none else some { s with marks := none :: rest }
  | _ => some s

/-- A key has to end on its line and within 1024 characters. -/
def dropStale? (s : State) : Option State :=
  let isStale (mark : Mark) : Bool := mark.line ≠ s.line || mark.index + 1024 < s.index
  if s.marks.any fun m => m.any fun mark => mark.required && isStale mark then none
  else some { s with marks := s.marks.map fun m => m.filter fun mark => !isStale mark }

def setMark? (s : State) : Option State :=
  if !s.allowsKey then some s
  else s.dropMark?.map fun s =>
    let required := !s.inBrackets && s.indents.head? == some s.column
    { s with marks := some ⟨s.tokens.length, s.index, s.line, s.column, required⟩ :: s.marks.tail }

def unwind (column : Nat) (tokens : List Token) : List Nat → List Nat × List Token
  | [] => ([], tokens)
  | indent :: rest =>
    if column < indent then unwind column (.blockEnd :: tokens) rest else (indent :: rest, tokens)

def unwindTo (s : State) (column : Nat) : State :=
  if s.inBrackets then s
  else
    let (indents, tokens) := unwind column s.tokens s.indents
    { s with indents, tokens }

def unwindAll (s : State) : State :=
  if s.inBrackets then s
  else { s with indents := [], tokens := List.replicate s.indents.length .blockEnd ++ s.tokens }

def isDeeper (s : State) (column : Nat) : Bool := s.indents.head?.all (· < column)

def indent (s : State) (column : Nat) (start : Token) : State :=
  if s.isDeeper column then { s with indents := column :: s.indents, tokens := start :: s.tokens } else s

def openBracket? (s : State) (token : Token) : Option State :=
  s.setMark?.map fun s => { s.add token with allowsKey := true, marks := none :: s.marks }

def closeBracket? (s : State) (token : Token) : Option State :=
  if s.inBrackets then
    s.dropMark?.map fun s => { s.add token with allowsKey := false, marks := s.marks.tail }
  else none

def comma? (s : State) : Option State :=
  if s.inBrackets then s.dropMark?.map fun s => { s.add .comma with allowsKey := true } else none

def entry? (s : State) (start token : Token) : Option State :=
  if s.inBrackets then s.dropMark?.map fun s => { s.add token with allowsKey := false }
  else if s.allowsKey then
    (s.indent s.column start).dropMark?.map fun s => { s.add token with allowsKey := true }
  else none

/-- What began at a mark is a key; a map starts with it if it is indented deeper than all that is open. -/
def keyAt (s : State) (mark : Mark) : State :=
  let after := s.tokens.length - mark.before
  let starts := !s.inBrackets && s.isDeeper mark.column
  { s with
    indents := if starts then mark.column :: s.indents else s.indents
    allowsKey := false
    marks := none :: s.marks.tail
    tokens := s.tokens.take after ++ .key :: (if starts then [.mapStart] else []) ++ s.tokens.drop after }

def colon? (s : State) : Option State :=
  match s.marks.head?.join with
  | some mark => some ((s.keyAt mark).add .colon)
  | none =>
    if s.inBrackets then some { s.add .colon with allowsKey := false }
    else if s.allowsKey then some { (s.indent s.column .mapStart).add .colon with allowsKey := true }
    else none

def divider? (s : State) (token : Token) : Option State :=
  s.unwindAll.dropMark?.map fun s => { s.add token with allowsKey := false, inside := .skip 2 }

def startWord? (s : State) (inside : Inside) : Option State :=
  s.setMark?.map fun s => { s with allowsKey := false, inside }

/-- The first character of a token. Anchors, aliases, tags, block texts and directives are not supported. -/
def startToken? (s : State) (g : Glyph) (rest : Text) : Option State := do
  let s := (← s.dropStale?).unwindTo s.column
  let ends := endsWord rest.head?
  if s.isDivider (g :: rest) then s.divider? (if g = .char '-' then .documentStart else .documentEnd)
  else match g with
    | .char '[' => s.openBracket? .openList
    | .char ']' => s.closeBracket? .closeList
    | .char '\x7b' => s.openBracket? .openMap
    | .char '\x7d' => s.closeBracket? .closeMap
    | .char ',' => s.comma?
    | .char '-' => if ends then s.entry? .listStart .dash else s.startWord? (.plain [g] [])
    | .char '?' =>
      if ends || s.inBrackets then s.entry? .mapStart .key else s.startWord? (.plain [g] [])
    | .char ':' => if ends || s.inBrackets then s.colon? else s.startWord? (.plain [g] [])
    | .char '\'' => s.startWord? (.quoted false [] [])
    | .char '"' => s.startWord? (.quoted true [] [])
    | g => if isOneOf "\t#&*!|>%@`" g then none else s.startWord? (.plain [g] [])

def gap? (s : State) (g : Glyph) (rest : Text) : Option State :=
  if g = .char ' ' || (s.index = 0 && g = .char '\ufeff') then some { s with inside := .gap }
  else if g = .char '#' then some { s with inside := .comment }
  else if isBreak g then some { s with inside := .gap, allowsKey := s.allowsKey || !s.inBrackets }
  else s.startToken? g rest

def endsPlain (s : State) (g : Glyph) (next : Option Glyph) : Bool :=
  g == .char '\t'
    || (g == .char ':' && (endsWord next || (s.inBrackets && next.any (isOneOf ",[]\x7b\x7d"))))
    || (s.inBrackets && isOneOf ",?[]\x7b\x7d" g)

def endPlain (s : State) (text : Text) : State := s.add (.word text.reverse)

def plain? (s : State) (text blanks : Text) (g : Glyph) (rest : Text) : Option State :=
  if isBreak g then some { s with allowsKey := true, inside := .plainBreak text (jointOf g) [] }
  else if g = .char ' ' then some { s with inside := .plain text (g :: blanks) }
  else if s.endsPlain g rest.head? || (g = .char '#' && !blanks.isEmpty) then
    (s.endPlain text).gap? g rest
  else some { s with inside := .plain (g :: blanks ++ text) [] }

def ofCode (code : Nat) : Glyph := .char (Char.ofNat code)

/-- A character after a line break in a word without quotes. The word goes on if the line is indented deeper
than what the word belongs to. -/
def plainBreak? (s : State) (text : Text) (joint : Joint) (breaks : Text) (g : Glyph) (rest : Text) :
    Option State :=
  if s.isDivider (g :: rest) then (s.endPlain text).gap? g rest
  else if g = .char ' ' then some s
  else if isBreak g then some { s with inside := .plainBreak text joint (ofCode (breakCode g) :: breaks) }
  else if g = .char '#' || s.endsPlain g rest.head? || (!s.inBrackets && !s.isDeeper s.column) then
    (s.endPlain text).gap? g rest
  else
    let folded := (joint.fold (breaks.map Glyph.code)).map ofCode
    some { s with allowsKey := false, inside := .plain (g :: folded ++ text) [] }

def quoted? (s : State) (double : Bool) (codes blanks : List Nat) (g : Glyph) (next : Option Glyph) :
    Option State :=
  let codesHere := blanks ++ codes
  if isOneOf " \t" g then some { s with inside := .quoted double codes (g.code :: blanks) }
  else if isBreak g then some { s with inside := .quotedBreak double codes (jointOf g) [] }
  else if g = .char '\\' && double then some { s with inside := .escape codesHere }
  else if g = .char '\'' && !double && next = some g then some { s with inside := .quotePair codesHere }
  else if g = (if double then .char '"' else .char '\'') then
    some (s.add (.quoted codesHere.reverse))
  else some { s with inside := .quoted double (g.code :: codesHere) [] }

def quotedBreak? (s : State) (double : Bool) (codes : List Nat) (joint : Joint) (breaks : List Nat)
    (g : Glyph) (rest : Text) : Option State :=
  if s.isDivider (g :: rest) then none
  else if isOneOf " \t" g then some s
  else if isBreak g then some { s with inside := .quotedBreak double codes joint (breakCode g :: breaks) }
  else s.quoted? double (joint.fold breaks ++ codes) [] g rest.head?

def escapes : List (Glyph × Nat) :=
  [(.char '0', 0), (.char 'a', 0x07), (.char 'b', 0x08), (.char 't', 0x09), (.char '\t', 0x09),
   (.char 'n', 0x0a), (.char 'v', 0x0b), (.char 'f', 0x0c), (.char 'r', 0x0d), (.char 'e', 0x1b),
   (.char ' ', 0x20), (.char '"', 0x22), (.char '\\', 0x5c), (.char '/', 0x2f), (.char 'N', 0x85),
   (.char '_', 0xa0), (.char 'L', 0x2028), (.char 'P', 0x2029)]

def codeEscapes : List (Glyph × Nat) := [(.char 'x', 2), (.char 'u', 4), (.char 'U', 8)]

def escape? (s : State) (codes : List Nat) (g : Glyph) : Option State :=
  if isBreak g then some { s with inside := .quotedBreak true codes .nothing [] }
  else match escapes.lookup g, codeEscapes.lookup g with
    | some n, _ => some { s with inside := .quoted true (n :: codes) [] }
    | none, some digits => some { s with inside := .code codes digits 0 }
    | none, none => none

def code? (s : State) (codes : List Nat) (digits value : Nat) (g : Glyph) : Option State :=
  (Scalar.digit? 16 g).map fun d =>
    let value := 16 * value + d
    if digits ≤ 1 then { s with inside := .quoted true (value :: codes) [] }
    else { s with inside := .code codes (digits - 1) value }

def step? (s : State) (g : Glyph) (rest : Text) : Option State :=
  match s.inside with
  | .gap => s.gap? g rest
  | .comment => if isBreak g then s.gap? g rest else some s
  | .skip count => some { s with inside := if count ≤ 1 then .gap else .skip (count - 1) }
  | .plain text blanks => s.plain? text blanks g rest
  | .plainBreak text joint breaks => s.plainBreak? text joint breaks g rest
  | .quoted double codes blanks => s.quoted? double codes blanks g rest.head?
  | .quotePair codes => some { s with inside := .quoted false (g.code :: codes) [] }
  | .quotedBreak double codes joint breaks => s.quotedBreak? double codes joint breaks g rest
  | .escape codes => s.escape? codes g
  | .code codes digits value => s.code? codes digits value g

def pass (s : State) (g : Glyph) : State :=
  if isBreak g then { s with index := s.index + 1, line := s.line + 1, column := 0 }
  else
    let width := if g = .char '\ufeff' then 0 else 1
    { s with index := s.index + 1, column := s.column + width }

def finish? (s : State) : Option (List Token) :=
  let ended : Option State := match s.inside with
    | .plain text _ => some (s.endPlain text)
    | .plainBreak text _ _ => some (s.endPlain text)
    | .gap => some s
    | .comment => some s
    | .skip _ => some s
    | _ => none
  if s.inBrackets then none
  else do
    let s ← (← (← ended).dropStale?).unwindAll.dropMark?
    return s.tokens.reverse

def run? (s : State) : Text → Option (List Token)
  | [] => s.finish?
  | g :: rest =>
    match s.step? g rest with
    | some s => run? (s.pass g) rest
    | none => none

end State

end Scan

def Token.scan? (t : Text) : Option (List Token) := Scan.State.run? {} t

end MapScript.Settings
