/-!
# Rules and settings

The fixed set of rules that findings are reported under. Their ids are what configuration files and
exported findings call them; their order is that of `Rule.all`. The settings tell an analysis which
of them to leave out, and whether to report findings that are not certain.
-/

namespace StackEscape

inductive Rule where
  | autoVariables
  | returnAddressOfAutoVariable
  | returnAddressOfFunctionParameter
  | autovarInvalidDeallocation
  | returnLocalVariable
  | returnReference
  | returnTempReference
  | returnTempPointer
deriving DecidableEq, Repr

namespace Rule

def all : List Rule :=
  [.autoVariables, .returnAddressOfAutoVariable, .returnAddressOfFunctionParameter,
   .autovarInvalidDeallocation, .returnLocalVariable, .returnReference, .returnTempReference,
   .returnTempPointer]

theorem mem_all (r : Rule) : r ∈ all := by cases r <;> decide

/-- The name of a rule outside the program. -/
def id : Rule → String
  | .autoVariables => "autoVariables"
  | .returnAddressOfAutoVariable => "returnAddressOfAutoVariable"
  | .returnAddressOfFunctionParameter => "returnAddressOfFunctionParameter"
  | .autovarInvalidDeallocation => "autovarInvalidDeallocation"
  | .returnLocalVariable => "returnLocalVariable"
  | .returnReference => "returnReference"
  | .returnTempReference => "returnTempReference"
  | .returnTempPointer => "returnTempPointer"

def ofId? (s : String) : Option Rule := all.find? (·.id = s)

def index (r : Rule) : Nat := all.idxOf r

def unknownMessage (s : String) : String := "unknown rule id '" ++ s ++ "'"

def sorted (rules : List Rule) : List Rule := all.filter rules.contains

def ofIds : List String → Except String (List Rule)
  | [] => .ok []
  | s :: rest =>
    match ofId? s with
    | none => .error s
    | some r => (ofIds rest).map (r :: ·)

end Rule

structure Settings where
  inconclusive : Bool
  /-- The rules whose findings are dropped, in the order of the rules. -/
  suppressed : List Rule
deriving DecidableEq, Repr

/-- Settings that drop the findings of some rules, given in any order. -/
def Settings.suppressing (inconclusive : Bool) (rules : List Rule) : Settings :=
  ⟨inconclusive, Rule.sorted rules⟩

end StackEscape
