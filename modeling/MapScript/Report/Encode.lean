import MapScript.Atom.Reader
import MapScript.Json
import MapScript.Report.Basic

/-! Results as JSON. -/

namespace MapScript

namespace Span

def toJson (s : Span) : Json :=
  .object [("file", .int s.file), ("start", .int s.start), ("end", .int s.stop)]

end Span

namespace Extent

def toJson (e : Extent) : Json :=
  .object [("name", .text e.name), ("line", .int e.line), ("column", .int e.column),
    ("end_line", .int e.endLine), ("end_column", .int e.endColumn),
    ("byte_start", .int e.byteStart), ("byte_end", .int e.byteEnd)]

end Extent

namespace Replacement

def toJson (r : Replacement) : Json :=
  .object [("kind", .text r.kindName), ("text", .ofOption .text r.text?)]

end Replacement

namespace Suggestion

def fields (s : Suggestion) : List (Text × Json) :=
  [("location", s.span.toJson), ("message", .text s.message), ("replacement", s.replacement.toJson)]

end Suggestion

namespace Diagnostic

def fieldsWith (suggestionFields : Suggestion → List (Text × Json)) (d : Diagnostic) :
    List (Text × Json) :=
  [("severity", .text d.severity.name), ("code", .ofOption .text d.code), ("message", .text d.message),
   ("location", d.span.toJson),
   ("notes", .list (d.notes.map fun n =>
     .object [("location", n.span.toJson), ("message", .text n.message)])),
   ("suggestions", .list (d.suggestions.map fun s => .object (suggestionFields s)))]

def toJson (d : Diagnostic) : Json := .object (d.fieldsWith Suggestion.fields)

end Diagnostic

namespace Report

def extent (r : Report) (span : Span) : Text × Json :=
  ("range", ((r.source span).extent span.start span.stop).toJson)

def toJson (r : Report) (d : Diagnostic) : Json :=
  .object (d.fieldsWith (fun s => s.fields ++ [r.extent s.span]) ++ [r.extent d.span])

end Report

namespace Word

def toJson (w : Word) : Json :=
  .object [("value", .text w.text), ("start", .int w.start), ("end", .int w.stop)]

end Word

namespace Atom

def fields : Atom → List (Text × Json)
  | .const head name value =>
    [("head", head.toJson), ("name", name.toJson), ("value", .ofOption Word.toJson value)]
  | .define head name => [("head", head.toJson), ("name", name.toJson)]
  | .undefine head name => [("head", head.toJson), ("name", name.toJson)]
  | .sectionMark name => [("name", name.toJson)]
  | .ifThen head condition => [("head", head.toJson), ("condition", condition.toJson)]
  | .elseIf head condition => [("head", head.toJson), ("condition", condition.toJson)]
  | .percentChance head chance => [("head", head.toJson), ("chance", chance.toJson)]
  | .command name args => [("name", name.toJson), ("arguments", .list (args.map Word.toJson))]
  | .comment opener content closer _ =>
    [("open", opener.toJson), ("close", .ofOption Word.toJson closer), ("content", .text content)]
  | .other word => [("value", word.toJson)]
  | a => [("head", a.head.toJson)]

def toJson (a : Atom) : Json :=
  .object (("_type", .text a.kind.name) :: ("location", a.span.toJson) :: a.fields)

end Atom

namespace Flaw

def fields (f : Flaw) : List (Text × Json) :=
  [("kind", .text f.kind.name), ("location", f.span.toJson)]

end Flaw

end MapScript
