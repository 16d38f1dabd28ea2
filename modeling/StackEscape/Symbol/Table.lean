import StackEscape.Outline.Heading

/-!
# Symbol tables

The scopes, functions and variables of a source, and the variables that its names are bound to.
Scopes, functions and variables are known by their place in the table.
-/

namespace StackEscape

abbrev ScopeId := Nat

abbrev FunctionId := Nat

abbrev VariableId := Nat

inductive Role where
  | local
  | argument
  /-- Declared outside functions. -/
  | member
deriving DecidableEq, Repr

structure Variable where
  id : VariableId
  name : String
  nameToken : Nat
  /-- First token of the declared type, specifiers included. -/
  typeStart : Nat
  /-- The named scope that the declaration belongs to. -/
  scope : ScopeId
  /-- Last name of the type, such as `string` in `std::string`. -/
  typeName : String
  role : Role
  isStatic : Bool
  isReference : Bool
  isPointer : Bool
  isArray : Bool
  /-- The class body in this source that declares the type, if any. -/
  typeScope : Option ScopeId
deriving DecidableEq, Repr

namespace Variable

/-- Last token before the name, such as the `&` in `int & r`. -/
def typeEnd (v : Variable) : Nat := v.nameToken - 1

def isLocal (v : Variable) : Bool := v.role = .local

def isArgument (v : Variable) : Bool := v.role = .argument

/-- Whether the variable is an object of class type, as opposed to a builtin one, a pointer or a
reference. -/
def isClassObject (v : Variable) : Bool :=
  !Word.isBuiltinType v.typeName && !v.isPointer && !v.isReference

end Variable

inductive ScopeKind where
  | global
  | namespaceBlock
  | classBody
  | function
deriving DecidableEq, Repr

/-- A named region, from its opening brace to its closing one; the global one spans all tokens. -/
structure Scope where
  id : ScopeId
  kind : ScopeKind
  name : String
  start : Nat
  stop : Nat
  parent : Option ScopeId
  function : Option FunctionId
deriving DecidableEq, Repr

def Scope.isFunction (s : Scope) : Bool := s.kind = .function

structure Function where
  id : FunctionId
  name : String
  nameToken : Nat
  returns : ReturnCategory
  scope : ScopeId
  arguments : List VariableId
deriving DecidableEq, Repr

/-- The variables that the tokens of a listing are bound to, by token index. -/
structure Bindings where
  slots : Array (Option VariableId)
deriving DecidableEq, Repr

namespace Bindings

def unbound (size : Nat) : Bindings := ⟨Array.replicate size none⟩

def get? (b : Bindings) (i : Nat) : Option VariableId := (b.slots[i]?).join

/-- Binds the token at `i`, if there is one. -/
def bind (b : Bindings) (i : Nat) (v : VariableId) : Bindings := ⟨b.slots.setIfInBounds i (some v)⟩

end Bindings

structure SymbolTable where
  scopes : Array Scope
  functions : Array Function
  vars : Array Variable
  bindings : Bindings
deriving DecidableEq, Repr

namespace SymbolTable

def empty (size : Nat) : SymbolTable := ⟨#[], #[], #[], .unbound size⟩

def getScope? (t : SymbolTable) (id : ScopeId) : Option Scope := t.scopes[id]?

def getFunction? (t : SymbolTable) (id : FunctionId) : Option Function := t.functions[id]?

def getVariable? (t : SymbolTable) (id : VariableId) : Option Variable := t.vars[id]?

/-- The function whose body a scope is. -/
def functionOf? (t : SymbolTable) (s : Scope) : Option Function := s.function.bind t.getFunction?

def functionScopes (t : SymbolTable) : List Scope := t.scopes.toList.filter Scope.isFunction

def findFunction? (t : SymbolTable) (name : String) : Option Function :=
  t.functions.toList.find? (·.name = name)

def classScope? (t : SymbolTable) (name : String) : Option ScopeId :=
  (t.scopes.toList.find? fun s => s.kind = .classBody && s.name = name).map Scope.id

end SymbolTable

end StackEscape
