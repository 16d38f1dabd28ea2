import StackEscape.Rule
import StackEscape.Listing.Token

/-!
# Diagnostics

A diagnostic is a finding in its final form: where it is, which rule it breaks and what to tell the
reader. The first line of the message is its summary; the rest, where there is one, explains.
-/

namespace StackEscape

/-- How grave a finding is. An escape is always an error: using the address is undefined. -/
inductive Severity where
  | error
deriving DecidableEq, Repr

def Severity.id : Severity → String
  | .error => "error"

inductive Confidence where
  | definite
  | inconclusive
deriving DecidableEq, Repr

def Confidence.id : Confidence → String
  | .definite => "definite"
  | .inconclusive => "inconclusive"

structure Diagnostic where
  location : Location
  severity : Severity
  rule : Rule
  message : String
  confidence : Confidence
deriving DecidableEq, Repr

def firstLine (s : String) : String := String.ofList (s.toList.takeWhile (· != '\n'))

namespace Diagnostic

def summary (d : Diagnostic) : String := firstLine d.message

/-- The message behind its first line, or all of it if there is only one. -/
def verbose (d : Diagnostic) : String :=
  match d.message.toList.dropWhile (· != '\n') with
  | [] => d.message
  | _ :: detail => String.ofList detail

def isInconclusive (d : Diagnostic) : Bool := d.confidence = .inconclusive

def display (d : Diagnostic) : String :=
  "[" ++ d.location.file ++ ":" ++ toString d.location.line ++ "]: (" ++ d.severity.id ++ ") "
    ++ d.summary ++ (if d.isInconclusive then " (inconclusive)" else "")

end Diagnostic

end StackEscape
