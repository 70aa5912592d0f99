import MapScript.Span

/-! What the checks report: problems with the places they concern and with suggested replacements. -/

namespace MapScript

inductive Severity where
  | error
  | warning
deriving DecidableEq, Repr

def Severity.name : Severity → Text
  | .error => "error"
  | .warning => "warning"

inductive Replacement where
  | absent
  | safe (text : Text)
  /-- May change what the script does. -/
  | risky (text : Text)
deriving DecidableEq, Repr

namespace Replacement

def kindName : Replacement → Text
  | .absent => "none"
  | .safe _ => "safe"
  | .risky _ => "unsafe"

def text? : Replacement → Option Text
  | .absent => none
  | .safe text => some text
  | .risky text => some text

def isSafe : Replacement → Bool
  | .safe _ => true
  | _ => false

def isPresent (r : Replacement) : Bool := r.text?.isSome

def isAllowed (risky : Bool) (r : Replacement) : Bool := if risky then r.isPresent else r.isSafe

end Replacement

structure Suggestion where
  span : Span
  message : Text
  replacement : Replacement := .absent
deriving DecidableEq, Repr

structure Note where
  span : Span
  message : Text
deriving DecidableEq, Repr

structure Diagnostic where
  severity : Severity
  span : Span
  message : Text
  code : Option Text := none
  notes : List Note := []
  suggestions : List Suggestion := []
deriving DecidableEq, Repr

namespace Diagnostic

def error (span : Span) (message : Text) : Diagnostic := { severity := .error, span, message }

def warning (span : Span) (message : Text) : Diagnostic := { severity := .warning, span, message }

def withCode (d : Diagnostic) (code : Text) : Diagnostic := { d with code := some code }

def note (d : Diagnostic) (span : Span) (message : Text) : Diagnostic :=
  { d with notes := d.notes ++ [⟨span, message⟩] }

def suggest (d : Diagnostic) (span : Span) (message : Text) (replacement : Replacement := .absent) :
    Diagnostic :=
  { d with suggestions := d.suggestions ++ [⟨span, message, replacement⟩] }

def isError (d : Diagnostic) : Bool := d.severity == .error

def describe (d : Diagnostic) : Text :=
  let code : Text :=
    match d.code with
    | some code => if code.isEmpty then [] else " [" ++ code ++ "]"
    | none => []
  d.severity.name ++ code ++ ": " ++ d.message

end Diagnostic

end MapScript
