import StackEscape.Escape.Assignment
import StackEscape.Escape.Return
import StackEscape.Log
import StackEscape.Rule

/-!
# Checks

A check reads a program and reports findings. A registry is a list of checks, which run in the
order in which they were registered.
-/

namespace StackEscape

/-- An entry of the catalogue: a rule that a check may report, with its message. -/
structure RuleInfo where
  rule : Rule
  severity : Severity
  message : String
deriving DecidableEq, Repr

def RuleInfo.summary (info : RuleInfo) : String := firstLine info.message

/-- A check: what it is called, what it may report, and its findings in a program, which may be
uncertain if the flag admits that. -/
structure Check where
  name : String
  description : String
  rules : List RuleInfo
  findings : Program → Bool → List Finding

/-- Finds addresses and references of automatic storage that escape their function. The passes
report one after the other. -/
def Check.autoVariables : Check where
  name := "autoVariables"
  description := "Addresses and references of automatic storage escaping their function"
  rules :=
    [⟨.autoVariables, .error, Message.assignment⟩,
     ⟨.returnAddressOfAutoVariable, .error, Message.returnAddress⟩,
     ⟨.returnAddressOfFunctionParameter, .error, Message.returnParameterAddress "parameter"⟩,
     ⟨.autovarInvalidDeallocation, .error, Message.deallocation⟩,
     ⟨.returnLocalVariable, .error, Message.returnLocalArray⟩,
     ⟨.returnReference, .error, Message.returnReference⟩,
     ⟨.returnTempReference, .error, Message.returnTemporaryReference⟩,
     ⟨.returnTempPointer, .error, Message.returnTemporaryPointer⟩]
  findings := fun p inconclusive =>
    let temporaries := Return.stringFunctions p
    Assignment.pass p inconclusive ++ Return.arrayPass p ++ Return.referencePass p temporaries
      ++ Return.cStringPass p temporaries

structure Registry where
  checks : List Check

namespace Registry

def empty : Registry := ⟨[]⟩

/-- The checks that an analysis runs unless it is told otherwise. -/
def standard : Registry := ⟨[.autoVariables]⟩

def register (r : Registry) (c : Check) : Registry := ⟨r.checks ++ [c]⟩

def size (r : Registry) : Nat := r.checks.length

def isEmpty (r : Registry) : Bool := r.checks.isEmpty

def findings (r : Registry) (p : Program) (inconclusive : Bool) : List Finding :=
  r.checks.flatMap fun c => c.findings p inconclusive

def run (r : Registry) (p : Program) (settings : Settings) (sink : Sink) : Sink :=
  sink.reportAll ((r.findings p settings.inconclusive).map (Finding.toDiagnostic p))

def render (r : Registry) : String :=
  "[" ++ ", ".intercalate (r.checks.map fun c => "\"" ++ c.name ++ "\"") ++ "]"

end Registry

end StackEscape
