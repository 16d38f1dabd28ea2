import StackEscape.Escape.Finding
import StackEscape.Pattern

/-!
# Escapes by return

Three passes over the functions that return a pointer, a reference or a C string: a local array
returned by name, a local or a temporary returned by reference, a temporary returned as a C string.
-/

namespace StackEscape.Return

def namePattern : Pattern := .ofString "return %var% ;"

def callPattern : Pattern := .ofString "return %var% ("

def initializerPattern : Pattern := .ofString "%var% [);.(]"

def stringFunctionPattern : Pattern := .ofString "std :: string %var% ("

/-- The names declared as functions that return a string by value. -/
def stringFunctions (p : Program) : List String :=
  (List.range p.listing.size).filterMap fun i =>
    ((stringFunctionPattern.matchAt? p i).bind (·.get? 3)).map p.text

/-- Whether the call of one of `temporaries` is returned at `i`. -/
def returnsTemporary (p : Program) (temporaries : List String) (i : Nat) : Bool :=
  callPattern.matchesAt p i && temporaries.contains (p.text (i + 1))

/-- Applies `look` to every token of the functions whose return category satisfies `wanted`. -/
def passOver (p : Program) (wanted : ReturnCategory → Bool) (look : Nat → Option Finding) :
    List Finding :=
  let scopes := p.symbols.functionScopes.filter fun s =>
    (p.symbols.functionOf? s).any fun f => wanted f.returns
  scopes.flatMap fun s => (List.range' s.start (s.stop - s.start)).filterMap look

/-- `return array ;` -/
def localArray (p : Program) (i : Nat) : Option Finding :=
  if namePattern.matchesAt p i && p.automaticArrayAt (i + 1) then
    some (.definite i .returnLocalVariable Message.returnLocalArray)
  else none

/-- Whether the name at `i` is a local whose storage ends with its function. If it was constructed
as `NAME ( x )`, then `x` has to be one as well; any other argument leaves open what is named. -/
def namesLocal (p : Program) (i : Nat) : Bool :=
  p.automaticAt i && (p.variableAt? i).any fun v =>
    match v.constructorArgument? p.listing with
    | none => true
    | some source => initializerPattern.matchesAt p source && p.automaticAt source

/-- `return local ;` or `return call ( ...` of a function that makes a temporary. -/
def reference (p : Program) (temporaries : List String) (i : Nat) : Option Finding :=
  if namePattern.matchesAt p i then
    if namesLocal p (i + 1) then some (.definite i .returnReference Message.returnReference)
    else none
  else if returnsTemporary p temporaries i then
    some (.definite i .returnTempReference Message.returnTemporaryReference)
  else none

/-- `return call ( ...` of a function that makes a temporary. -/
def cString (p : Program) (temporaries : List String) (i : Nat) : Option Finding :=
  if returnsTemporary p temporaries i then
    some (.definite i .returnTempPointer Message.returnTemporaryPointer)
  else none

def arrayPass (p : Program) : List Finding :=
  passOver p ReturnCategory.returnsPointer (localArray p)

def referencePass (p : Program) (temporaries : List String) : List Finding :=
  passOver p ReturnCategory.returnsReference (reference p temporaries)

def cStringPass (p : Program) (temporaries : List String) : List Finding :=
  passOver p (· = .constCharPointer) (cString p temporaries)

end StackEscape.Return
