import MapScript.Diagnostic

/-! Replacements made in a text. -/

namespace MapScript.Edit

def fixable (risky : Bool) (file : Option Int) (ds : List Diagnostic) : List Suggestion :=
  ds.flatMap fun d => d.suggestions.filter fun s =>
    s.replacement.isAllowed risky && file.all (· == s.span.file)

def le (a b : Suggestion) : Bool :=
  a.span.start < b.span.start || (a.span.start == b.span.start && a.span.stop ≤ b.span.stop)

/-- Leaves out the suggestions that start before the end of one that is made. -/
def choose (last : Int) : List Suggestion → List Suggestion
  | [] => []
  | s :: rest => if s.span.start < last then choose last rest else s :: choose s.span.stop rest

def applicable (risky : Bool) (file : Option Int) (ds : List Diagnostic) : List Suggestion :=
  choose (-1) ((fixable risky file ds).mergeSort le)

/-- The part of the text between two offsets, which count from the end when they are negative. -/
def between (source : Text) (start stop : Int) : Text :=
  source.slice (source.clamp start) (source.clamp stop)

def splice (source : Text) (pos : Int) : List Suggestion → Text
  | [] => source.drop (source.clamp pos)
  | s :: rest =>
    between source pos s.span.start ++ s.replacement.text?.getD [] ++ splice source s.span.stop rest

def apply (source : Text) (ds : List Diagnostic) (risky : Bool) (file : Option Int) :
    Text × List Suggestion :=
  let chosen := applicable risky file ds
  (splice source 0 chosen, chosen)

end MapScript.Edit
