import StackEscape.Escape.Finding
import StackEscape.Pattern

/-!
# Escapes by assignment

The first pass over a function body. At every token the rules are tried in a fixed order, and the
first that applies decides how far to go on. Three things are found: a parameter that receives the
address of a local, an address of a local or parameter that is returned, and the deallocation of a
local array.
-/

namespace StackEscape.Assignment

/-- A rule that applies: how many tokens to pass over beyond the regular step, and what was found,
if anything. -/
structure Hit where
  advance : Nat
  finding : Option Finding
deriving DecidableEq, Repr

/-- A rule looks at the token `i` of a program. The flag admits findings that are not certain; it
changes neither whether a rule applies nor where it goes on. -/
abbrev Matcher := Program → Bool → Nat → Option Hit

def findingIf (condition : Bool) (f : Finding) : Option Finding := if condition then some f else none

/-- The assigned parameter stands behind the token `i` that ends the statement before. -/
def certain (i : Nat) : Finding := .definite (i + 1) .autoVariables Message.assignment

/-- Like `certain`, where the parameter might be restored before the function returns. -/
def uncertain (i : Nat) : Finding :=
  ⟨i + 1, .autoVariables, Message.inconclusiveAssignment, .inconclusive⟩

def referencePattern : Pattern := .ofString "[;\x7b\x7d] %var% = & %var%"

/-- `; ref = & local` where `ref` is a reference argument. -/
def toReference : Matcher := fun p _ i =>
  if referencePattern.matchesAt p i && p.referenceArgumentAt (i + 1) && p.automaticAt (i + 4) then
    some ⟨4, findingIf (p.wholeAddressAt (i + 4)) (certain i)⟩
  else none

def pointerPattern : Pattern := .ofString "[;\x7b\x7d] * %var% = & %var%"

/-- `; * ptr = & local` where `ptr` is a pointer argument. -/
def throughPointer : Matcher := fun p _ i =>
  if pointerPattern.matchesAt p i && p.pointerArgumentAt (i + 2) && p.automaticAt (i + 5) then
    some ⟨5, findingIf (p.wholeAddressAt (i + 5)) (certain i)⟩
  else none

def memberAddressPattern : Pattern := .ofString "[;\x7b\x7d] %var% . %var% = & %var%"

/-- `; ptr . field = & local` -/
def toMember : Matcher := fun p inconclusive i =>
  if memberAddressPattern.matchesAt p i then
    let escapes :=
      p.pointerArgumentAt (i + 1) && p.automaticAt (i + 6) && p.wholeAddressAt (i + 6)
    some ⟨6, findingIf (inconclusive && escapes) (uncertain i)⟩
  else none

def memberNamePattern : Pattern := .ofString "[;\x7b\x7d] %var% . %var% = %var% ;"

/-- `; ptr . field = array ;`, where the array stands for its address. -/
def arrayToMember : Matcher := fun p inconclusive i =>
  if memberNamePattern.matchesAt p i then
    let escapes := p.pointerArgumentAt (i + 1) && p.automaticArrayAt (i + 5)
    some ⟨5, findingIf (inconclusive && escapes) (uncertain i)⟩
  else none

def pointedNamePattern : Pattern := .ofString "[;\x7b\x7d] * %var% = %var% ;"

def doublePointerPattern : Pattern := .ofString "%type% * *"

/-- Whether an argument is declared as `T * * name`. -/
def isDoublePointerArgument (p : Program) (v : Variable) : Bool :=
  v.isArgument && 3 ≤ v.nameToken && doublePointerPattern.matchesAt p (v.nameToken - 3)

/-- `; * pp = array ;` where `pp` is an argument declared `T * * pp`. -/
def arrayThroughPointer : Matcher := fun p _ i =>
  if pointedNamePattern.matchesAt p i then
    let escapes :=
      (p.variableAt? (i + 2)).any (isDoublePointerArgument p) && p.automaticArrayAt (i + 4)
    some ⟨4, findingIf escapes (certain i)⟩
  else none

def indexedPattern : Pattern := .ofString "[;\x7b\x7d] %var% ["

def indexedTailPattern : Pattern := .ofString "] = & %var%"

/-- `; ptr [ ... ] = & local` where `ptr` is a pointer argument. -/
def toElement : Matcher := fun p _ i =>
  if indexedPattern.matchesAt p i then
    match p.listing.closing? (i + 2) with
    | some close =>
      if indexedTailPattern.matchesAt p close && p.pointerArgumentAt (i + 1)
          && p.automaticAt (close + 3) then
        some ⟨close + 3 - i, findingIf (p.wholeAddressAt (close + 3)) (certain i)⟩
      else none
    | none => none
  else none

def returnAddressPattern : Pattern := .ofString "return & %var% ;"

def returnElementPattern : Pattern := .ofString "return & %var% ["

def bracketEndPattern : Pattern := .ofString "] ;"

/-- Whether `return & array [ ... ] ;` stands at `i`. -/
def returnsElementAddress (p : Program) (i : Nat) : Bool :=
  returnElementPattern.matchesAt p i
    && (p.listing.closing? (i + 3)).any (bracketEndPattern.matchesAt p)

/-- `return & local ;` or `return & array [ ... ] ;` -/
def returnOfLocal : Matcher := fun p _ i =>
  if (returnAddressPattern.matchesAt p i && p.automaticAt (i + 2))
      || (returnsElementAddress p i && p.automaticArrayAt (i + 2)) then
    some ⟨0, some (.definite i .returnAddressOfAutoVariable Message.returnAddress)⟩
  else none

/-- Whether a variable is an argument that the token before its name does not make a reference. -/
def isValueArgument (p : Program) (v : Variable) : Bool :=
  v.isArgument && p.text v.typeEnd != "&"

/-- `return & argument ;` where the argument is passed by value. -/
def returnOfArgument : Matcher := fun p _ i =>
  if returnAddressPattern.matchesAt p i && (p.variableIdAt? (i + 2)).isSome then
    some ⟨0, findingIf ((p.variableAt? (i + 2)).any (isValueArgument p))
      (.definite i .returnAddressOfFunctionParameter
        (Message.returnParameterAddress (p.text (i + 2))))⟩
  else none

def freePattern : Pattern := .ofString "free ( %var% ) ;"

def deletePattern : Pattern := .ofString "delete [| ]| (| %var% !!["

def nextName? (p : Program) (i : Nat) : Option Nat :=
  (List.range' i (p.listing.size - i)).find? p.listing.isName

/-- `free ( array ) ;` or `delete [] array`, the latter also in parentheses. -/
def deallocation : Matcher := fun p _ i =>
  if freePattern.matchesAt p i || deletePattern.matchesAt p i then
    (nextName? p (i + 1)).map fun name =>
      ⟨name - i, findingIf (p.automaticArrayAt name)
        (.definite name .autovarInvalidDeallocation Message.deallocation)⟩
  else none

def matchers : List Matcher :=
  [toReference, throughPointer, toMember, arrayToMember, arrayThroughPointer, toElement,
   returnOfLocal, returnOfArgument, deallocation]

/-- What the first rule that applies at `i` makes of it. -/
def hit? (p : Program) (inconclusive : Bool) (i : Nat) : Option Hit :=
  matchers.findSome? fun m => m p inconclusive i

def findings (p : Program) (inconclusive : Bool) (stop i : Nat) : List Finding :=
  if i < stop then
    match hit? p inconclusive i with
    | some hit => hit.finding.toList ++ findings p inconclusive stop (i + hit.advance + 1)
    | none => findings p inconclusive stop (i + 1)
  else []
termination_by stop - i

def pass (p : Program) (inconclusive : Bool) : List Finding :=
  p.symbols.functionScopes.flatMap fun s => findings p inconclusive s.stop s.start

end StackEscape.Assignment
