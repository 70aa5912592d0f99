import MapScript.Atom.Reader
import MapScript.Rule.Basic

/-! Comments hold nothing that the game may take for a part of the script. Older versions go on reading
inside a comment: a command there can swallow the closing mark as its argument, and inside conditions and
random groups they may take the names of constants for tokens. -/

namespace MapScript.Rule.CommentContents

def namesAreRead (tracker : Tracker) : Bool :=
  let level := tracker.scope.level
  (tracker.nesting.any (·.opener.isBranch) && level ≤ .userPatch14)
    || (tracker.nesting.any (·.opener.isRandom) && level ≤ .userPatch15)

/-- A word of a comment that names something defined; `offset` is where the content of the comment starts. -/
def checkName (tracker : Tracker) (offset : Nat) : Atom → List Diagnostic
  | .other word =>
    if namesAreRead tracker
        && (tracker.scope.hasDefine word.text || tracker.scope.hasConst word.text) then
      let span := word.span.shift offset
      let message : Text :=
        "Using constant names in comments inside `start_random` or `if` statements "
          ++ "can be dangerous, because the game may interpret them as other tokens instead."
      [(Diagnostic.warning span message).suggest span
        "Add `backticks` around the name to make the parser ignore it"
        (.safe ("`" ++ word.text ++ "`"))]
    else []
  | _ => []

def wantsMore (item : Item) : Bool := item.flaws.any fun flaw => flaw.kind.wantsMore

def checkItems (tracker : Tracker) (offset : Nat) (items : List Item) : List Diagnostic :=
  items.flatMap fun item => if wantsMore item then [] else checkName tracker offset item.atom

/-- A last statement that lacks words may take the closing mark. -/
def checkCloser (offset : Nat) (items : List Item) (closer : Option Word) : List Diagnostic :=
  match items.getLast?, closer with
  | some last, some closer =>
    if wantsMore last then
      [(Diagnostic.warning closer.span
        ("This close comment may be ignored because a previous command is expecting more "
          ++ "arguments")).note (last.atom.span.shift offset) "Command started here"]
    else []
  | _, _ => []

def onAtom (tracker : Tracker) : Atom → List Diagnostic
  | .comment opener content closer _ =>
    let items := Item.parse opener.file content
    checkItems tracker opener.stop items ++ checkCloser opener.stop items closer
  | _ => []

end MapScript.Rule.CommentContents
