import MapScript.Diagnostic
import MapScript.Source

/-! The results of a check, and how they are shown to people. -/

namespace MapScript

structure Report where
  sources : List Source
  diagnostics : List Diagnostic

namespace Report

def hasErrors (r : Report) : Bool := r.diagnostics.any Diagnostic.isError

def errorCount (r : Report) : Nat := r.diagnostics.countP Diagnostic.isError

def source (r : Report) (span : Span) : Source :=
  (r.sources.find? (·.file == span.file)).getD ⟨span.file, [], []⟩

/-- The line and column where a range starts, counted from one. -/
def place (r : Report) (span : Span) : Text :=
  let (line, column) := (r.source span).position span.start
  Text.ofNat (line + 1) ++ ":" ++ Text.ofNat (column + 1)

def formatNote (r : Report) (n : Note) : Text :=
  "\n    note: " ++ n.message ++ " (" ++ r.place n.span ++ ")"

def formatSuggestion (s : Suggestion) : Text :=
  "\n    -> " ++ s.message ++
    match s.replacement.text? with
    | some text => " `" ++ text ++ "`"
    | none => []

def format (r : Report) (d : Diagnostic) : Text :=
  (r.source d.span).name ++ ":" ++ r.place d.span ++ ": " ++ d.describe
    ++ d.notes.flatMap r.formatNote ++ d.suggestions.flatMap formatSuggestion

end Report

end MapScript
