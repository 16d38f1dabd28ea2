import StackEscape.Json.Parser
import StackEscape.Json.Printer
import StackEscape.Log

/-!
# Diagnostics as JSON

How a diagnostic is written as a JSON record and read back. A log is written as the array of its
diagnostics.
-/

namespace StackEscape

/-- One more than the largest line and column that a record can hold. -/
def Location.bound : Nat := 0x100000000

def Location.fieldNames : List String := ["file", "line", "column"]

def Location.toJson (l : Location) : Json :=
  .ofFields [("file", .ofString l.file), ("line", .ofNat l.line), ("column", .ofNat l.column)]

def Location.ofJson? (v : Json) : Option Location := do
  match ← v.fields? fieldNames with
  | [file, line, column] =>
    return { file := ← file.text?, line := ← line.natural? bound, column := ← column.natural? bound }
  | _ => none

def Severity.ofId? (s : String) : Option Severity := if s = "error" then some .error else none

def Confidence.ofId? (s : String) : Option Confidence :=
  if s = "definite" then some .definite
  else if s = "inconclusive" then some .inconclusive
  else none

namespace Diagnostic

def fieldNames : List String := ["location", "severity", "rule_id", "message", "confidence"]

def toJson (d : Diagnostic) : Json :=
  .ofFields
    [("location", d.location.toJson),
     ("severity", .ofString d.severity.id),
     ("rule_id", .ofString d.rule.id),
     ("message", .ofString d.message),
     ("confidence", .ofString d.confidence.id)]

def ofJson? (v : Json) : Option Diagnostic := do
  match ← v.fields? fieldNames with
  | [location, severity, rule, message, confidence] =>
    return {
      location := ← Location.ofJson? location
      severity := ← severity.enumerator?.bind Severity.ofId?
      rule := ← rule.enumerator?.bind Rule.ofId?
      message := ← message.text?
      confidence := ← confidence.enumerator?.bind Confidence.ofId? }
  | _ => none

def ofText? (s : String) : Option Diagnostic := (Json.ofText? s).bind ofJson?

end Diagnostic

def Sink.toText (s : Sink) : String := (Json.array (s.entries.map Diagnostic.toJson)).toText

end StackEscape
