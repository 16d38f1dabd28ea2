import StackEscape.Diagnostic
import StackEscape.Program

/-!
# Findings

A finding names the token it is anchored at. The messages that go with the rules are fixed; only
that about a function parameter tells its name.
-/

namespace StackEscape

/-- What a check found at a token. -/
structure Finding where
  anchor : Nat
  rule : Rule
  message : String
  confidence : Confidence
deriving DecidableEq, Repr

namespace Finding

def definite (anchor : Nat) (rule : Rule) (message : String) : Finding :=
  ⟨anchor, rule, message, .definite⟩

def toDiagnostic (p : Program) (f : Finding) : Diagnostic :=
  { location := p.listing.location f.anchor
    severity := .error
    rule := f.rule
    message := f.message
    confidence := f.confidence }

end Finding

namespace Message

def assignment : String :=
  "Address of local auto-variable assigned to a function parameter.\n" ++
  "Dangerous assignment - the function parameter is assigned the address of a local " ++
  "auto-variable. Local auto-variables are reserved from the stack which is freed when " ++
  "the function ends. So the pointer to a local variable is invalid after the function ends."

def inconclusiveAssignment : String :=
  "Address of local auto-variable assigned to a function parameter.\n" ++
  "Function parameter is assigned the address of a local auto-variable. Local " ++
  "auto-variables are reserved from the stack which is freed when the function ends. The " ++
  "address is invalid after the function ends and it might 'leak' from the function " ++
  "through the parameter."

def returnAddress : String := "Address of an auto-variable returned."

def returnLocalArray : String := "Pointer to local array variable returned."

def returnReference : String := "Reference to auto variable returned."

def returnTemporaryReference : String := "Reference to temporary returned."

def returnTemporaryPointer : String := "Pointer to temporary returned."

def deallocation : String :=
  "Deallocation of an auto-variable results in undefined behaviour.\n" ++
  "The deallocation of an auto-variable results in undefined behaviour. You should only " ++
  "free memory that has been allocated dynamically."

def returnParameterAddress (name : String) : String :=
  "Address of function parameter '" ++ name ++ "' returned.\n" ++
  "Address of the function parameter '" ++ name ++
  "' becomes invalid after the function exits " ++
  "because function parameters are stored on the stack which is freed when the function " ++
  "exits. Thus the returned value is invalid."

end Message

end StackEscape
