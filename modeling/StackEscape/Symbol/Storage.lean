import StackEscape.Symbol.Table

/-!
# Storage

What is known about the storage of the variable that a token is bound to. A token without a binding
has none of these properties.
-/

namespace StackEscape

namespace SymbolTable

/-- Whether the variable of an optional place exists and satisfies `p`. -/
def holds (t : SymbolTable) (p : Variable → Bool) (id : Option VariableId) : Bool :=
  (id.bind t.getVariable?).any p

/-- A local that is neither static nor a reference: its storage ends with the function. -/
def isAutomatic (t : SymbolTable) : Option VariableId → Bool :=
  t.holds fun v => v.isLocal && !v.isStatic && !v.isReference

def isAutomaticArray (t : SymbolTable) : Option VariableId → Bool :=
  t.holds fun v => v.isLocal && !v.isStatic && v.isArray

def isReferenceArgument (t : SymbolTable) : Option VariableId → Bool :=
  t.holds fun v => v.isArgument && v.isReference

def isPointerArgument (t : SymbolTable) : Option VariableId → Bool :=
  t.holds fun v => v.isArgument && v.isPointer

end SymbolTable

namespace Variable

/-- First constructor argument of a variable declared as `NAME ( ... )`. -/
def constructorArgument? (v : Variable) (l : Listing) : Option Nat :=
  if l.text (v.nameToken + 1) = "(" then some (v.nameToken + 2) else none

/-- Whether `& v`, followed by the token at `next`, takes the address of the whole object rather
than of a member reached through it. A `.` may follow only where it cannot leave the object: `v` is
no pointer, and its type is builtin or a class declared in this source. -/
def addressIsWhole (v : Variable) (l : Listing) (next : Nat) : Bool :=
  (l.text next != "." || (!v.isPointer && (!v.isClassObject || v.typeScope.isSome)))
    && l.text (next + 2) != "."

end Variable

end StackEscape
