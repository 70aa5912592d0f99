import MapScript.Span
import MapScript.Text.Blank
import MapScript.Text.Quoted

/-! Words: the longest runs of a text without blanks. -/

namespace MapScript

structure Word where
  text : Text
  file : Int
  start : Nat
deriving DecidableEq, Repr, Inhabited

namespace Word

def stop (w : Word) : Nat := w.start + w.text.length

def span (w : Word) : Span := ⟨w.file, w.start, w.stop⟩

def describe (w : Word) : Text :=
  "Word(" ++ Text.quoted w.text ++ ", " ++ w.span.bounds ++ ")"

def ofRun (file : Int) (stop : Nat) (run : Text) : List Word :=
  if run.isEmpty then [] else [⟨run.reverse, file, stop - run.length⟩]

/-- The words from offset `pos` on, when `run` came right before it. -/
def scanFrom (file : Int) (run : Text) (pos : Nat) : Text → List Word
  | [] => ofRun file pos run
  | g :: rest =>
    if g.isBlank then ofRun file pos run ++ scanFrom file [] (pos + 1) rest
    else scanFrom file (g :: run) (pos + 1) rest

def scan (file : Int) (source : Text) : List Word := scanFrom file [] 0 source

end Word

end MapScript
