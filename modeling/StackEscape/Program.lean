import StackEscape.Listing.Scan
import StackEscape.Symbol.Resolve
import StackEscape.Symbol.Storage

/-!
# Programs

A parsed source: its listing and the symbols resolved over it.
-/

namespace StackEscape

structure Program where
  listing : Listing
  symbols : SymbolTable
deriving DecidableEq, Repr

namespace Program

def unresolved (l : Listing) : Program := ⟨l, .empty l.size⟩

def resolve (l : Listing) : Program := ⟨l, .ofListing l⟩

def ofSource (file source : String) : Except SourceFault Program :=
  (Listing.ofSource file source).map resolve

def variableIdAt? (p : Program) (i : Nat) : Option VariableId := p.symbols.bindings.get? i

def variableAt? (p : Program) (i : Nat) : Option Variable :=
  (p.variableIdAt? i).bind p.symbols.getVariable?

def text (p : Program) (i : Nat) : String := p.listing.text i

/-- Whether the name at `i` is a local whose storage ends with its function. -/
def automaticAt (p : Program) (i : Nat) : Bool := p.symbols.isAutomatic (p.variableIdAt? i)

/-- Whether the name at `i` is an array whose storage ends with its function. -/
def automaticArrayAt (p : Program) (i : Nat) : Bool := p.symbols.isAutomaticArray (p.variableIdAt? i)

def referenceArgumentAt (p : Program) (i : Nat) : Bool :=
  p.symbols.isReferenceArgument (p.variableIdAt? i)

def pointerArgumentAt (p : Program) (i : Nat) : Bool :=
  p.symbols.isPointerArgument (p.variableIdAt? i)

/-- Whether the `&` before the name at `i` takes the address of the whole variable. -/
def wholeAddressAt (p : Program) (i : Nat) : Bool :=
  (p.variableAt? i).any (·.addressIsWhole p.listing (i + 1))

end Program

end StackEscape
