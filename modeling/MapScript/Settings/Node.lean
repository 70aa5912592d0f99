import MapScript.Settings.Token

/-! What the tokens of a settings file make up: words, lists and maps. -/

namespace MapScript.Settings

inductive Node where
  | word (t : Text)
  | quoted (codes : List Nat)
  | list (items : List Node)
  | map (fields : List (Node × Node))
deriving Inhabited

namespace Node

def empty : Node := .word []

/-- How much of an entry of a map is there: nothing, the mark of its key, the key, or the key and a colon. -/
inductive Stage where
  | idle
  | started
  | keyed (key : Node)
  | valued (key : Node)

/-- A list or map that is still open, with what it holds so far, backwards. After a dash a list is due an
item, and in brackets a comma is due after an entry. A list in the column of the map that it belongs to is a
flat one; it has no end of its own. A pair is a map of one entry in a list in brackets. -/
inductive Frame where
  | document (root : Option Node)
  | block (flat : Bool) (items : List Node) (due : Bool)
  | blockMap (fields : List (Node × Node)) (stage : Stage)
  | bracket (items : List Node) (commaDue : Bool)
  | pair (stage : Stage)
  | bracketMap (fields : List (Node × Node)) (stage : Stage) (commaDue : Bool)

def Stage.entry : Stage → List (Node × Node)
  | .idle => []
  | .started => [(empty, empty)]
  | .keyed key => [(key, empty)]
  | .valued key => [(key, empty)]

def deliver? (n : Node) : List Frame → Option (List Frame)
  | .document none :: rest => some (.document (some n) :: rest)
  | .block flat items true :: rest => some (.block flat (n :: items) false :: rest)
  | .blockMap fields .started :: rest => some (.blockMap fields (.keyed n) :: rest)
  | .blockMap fields (.valued key) :: rest => some (.blockMap ((key, n) :: fields) .idle :: rest)
  | .bracket items false :: rest => some (.bracket (n :: items) true :: rest)
  | .pair .started :: rest => some (.pair (.keyed n) :: rest)
  | .pair (.valued key) :: rest => deliver? (.map [(key, n)]) rest
  | .bracketMap fields .idle false :: rest => some (.bracketMap ((n, empty) :: fields) .idle true :: rest)
  | .bracketMap fields .started _ :: rest => some (.bracketMap fields (.keyed n) true :: rest)
  | .bracketMap fields (.valued key) _ :: rest =>
    some (.bracketMap ((key, n) :: fields) .idle true :: rest)
  | _ => none

def endItems (items : List Node) (due : Bool) : List Node :=
  (if due then empty :: items else items).reverse

/-- Ends what a token ends without being its last token: a flat list when no item of it follows, and a pair
when no colon follows its key. -/
def settle? (token : Token) : List Frame → Option (List Frame)
  | .block true items due :: rest =>
    if token = .dash || (due && !(token = .key || token = .colon || token = .blockEnd)) then
      some (.block true items due :: rest)
    else deliver? (.list (endItems items due)) rest
  | .pair stage :: rest =>
    if token = .comma || token = .closeList then deliver? (.map stage.entry) rest
    else some (.pair stage :: rest)
  | frames => some frames

def Stage.colon? : Stage → Option Stage
  | .started => some (.valued empty)
  | .keyed key => some (.valued key)
  | _ => none

def take? (token : Token) (frames : List Frame) : Option (List Frame) :=
  match token, frames with
  | .word t, frames => deliver? (.word t) frames
  | .quoted codes, frames => deliver? (.quoted codes) frames
  | .listStart, frames => some (.block false [] false :: frames)
  | .mapStart, frames => some (.blockMap [] .idle :: frames)
  | .openList, frames => some (.bracket [] false :: frames)
  | .openMap, frames => some (.bracketMap [] .idle false :: frames)
  | .dash, .block flat items due :: rest =>
    some (.block flat (if due then empty :: items else items) true :: rest)
  | .dash, .blockMap fields .started :: rest => some (.block true [] true :: .blockMap fields .started :: rest)
  | .dash, .blockMap fields (.valued key) :: rest =>
    some (.block true [] true :: .blockMap fields (.valued key) :: rest)
  | .key, .blockMap fields stage :: rest => some (.blockMap (stage.entry ++ fields) .started :: rest)
  | .key, .bracket items false :: rest => some (.pair .started :: .bracket items false :: rest)
  | .key, .bracketMap fields .idle false :: rest => some (.bracketMap fields .started true :: rest)
  | .colon, .blockMap fields stage :: rest => stage.colon?.map fun stage => .blockMap fields stage :: rest
  | .colon, .pair stage :: rest => stage.colon?.map fun stage => .pair stage :: rest
  | .colon, .bracketMap fields stage due :: rest =>
    stage.colon?.map fun stage => .bracketMap fields stage due :: rest
  | .comma, .bracket items true :: rest => some (.bracket items false :: rest)
  | .comma, .bracketMap fields stage true :: rest =>
    some (.bracketMap (stage.entry ++ fields) .idle false :: rest)
  | .closeList, .bracket items _ :: rest => deliver? (.list items.reverse) rest
  | .closeMap, .bracketMap fields stage _ :: rest => deliver? (.map (stage.entry ++ fields).reverse) rest
  | .blockEnd, .block false items due :: rest => deliver? (.list (endItems items due)) rest
  | .blockEnd, .blockMap fields stage :: rest => deliver? (.map (stage.entry ++ fields).reverse) rest
  | _, _ => none

def step? (frames : List Frame) (token : Token) : Option (List Frame) := (settle? token frames).bind (take? token)

def ofBody? (tokens : List Token) : Option Node :=
  match tokens.foldlM step? [.document none] with
  | some [.document root] => some (root.getD empty)
  | _ => none

/-- The only document of a file. A mark may come before it, and marks of its end after it. -/
def ofTokens? (tokens : List Token) : Option Node :=
  let (marked, tokens) : Bool × List Token := match tokens with
    | .documentStart :: rest => (true, rest)
    | tokens => (false, tokens)
  let body := tokens.takeWhile (· != .documentEnd)
  let ends := tokens.drop body.length
  if ends.all (· == .documentEnd) && (marked || ends.isEmpty || !body.isEmpty) then ofBody? body else none

end Node

end MapScript.Settings
