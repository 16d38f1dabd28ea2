/-!
# Tokens and listings

A listing is the token sequence of one source file together with the partner of every bracket.
It is built once and never changes: what names refer to is recorded apart from it, as bindings.
-/

namespace StackEscape

/-- A place in a text, counted from one in lines and characters. The counts have no bound; those of
32 bits agree with them in any text of fewer than `2 ^ 32 - 1` characters, where no line or column
reaches `2 ^ 32`, and make no promise beyond. -/
structure Position where
  line : Nat
  column : Nat
deriving DecidableEq, Repr

namespace Position

def start : Position := ⟨1, 1⟩

/-- The place after the character `c`: only a line feed begins a new line. -/
def next (p : Position) (c : Char) : Position :=
  if c = '\n' then ⟨p.line + 1, 1⟩ else ⟨p.line, p.column + 1⟩

def advance (p : Position) (cs : List Char) : Position := cs.foldl next p

@[simp] theorem advance_nil (p : Position) : p.advance [] = p := rfl

@[simp] theorem advance_cons (p : Position) (c : Char) (cs : List Char) :
    p.advance (c :: cs) = (p.next c).advance cs := rfl

theorem advance_append (p : Position) (cs ds : List Char) :
    p.advance (cs ++ ds) = (p.advance cs).advance ds := List.foldl_append ..

end Position

structure Location where
  file : String
  line : Nat
  column : Nat
deriving DecidableEq, Repr

inductive Kind where
  | name
  | number
  | string
  | character
  | operator
deriving DecidableEq, Repr

structure Token where
  text : String
  kind : Kind
  position : Position
deriving DecidableEq, Repr

/-- The tokens of a file. `links` holds, for every token, the index of the bracket it pairs with. -/
structure Listing where
  file : String
  tokens : Array Token
  links : Array (Option Nat)
deriving DecidableEq, Repr

namespace Listing

def size (l : Listing) : Nat := l.tokens.size

def isEmpty (l : Listing) : Bool := l.tokens.isEmpty

def get? (l : Listing) (i : Nat) : Option Token := l.tokens[i]?

/-- Text of the token at `i`, empty past the end. -/
def text (l : Listing) (i : Nat) : String :=
  match l.get? i with
  | some t => t.text
  | none => ""

/-- Text of the token `offset` places away from `i`, empty past either end. -/
def textAt (l : Listing) (i : Nat) (offset : Int) : String :=
  match (i : Int) + offset with
  | .ofNat j => l.text j
  | .negSucc _ => ""

/-- Text of the token before `i`, empty at the front. -/
def textBefore (l : Listing) : Nat → String
  | 0 => ""
  | i + 1 => l.text i

def hasKind (l : Listing) (k : Kind) (i : Nat) : Bool :=
  match l.get? i with
  | some t => t.kind = k
  | none => false

def isName (l : Listing) (i : Nat) : Bool := l.hasKind .name i

def isString (l : Listing) (i : Nat) : Bool := l.hasKind .string i

/-- Index of the bracket that pairs with the one at `i`. -/
def link? (l : Listing) (i : Nat) : Option Nat := (l.links[i]?).join

/-- Index of the bracket that closes the one at `i`. -/
def closing? (l : Listing) (i : Nat) : Option Nat := (l.link? i).filter (i < ·)

/-- Index of the bracket that opens the pair closed at `i`. -/
def opening? (l : Listing) (i : Nat) : Option Nat := (l.link? i).filter (· < i)

theorem lt_of_closing? {l : Listing} {i c : Nat} (h : l.closing? i = some c) : i < c := by
  have := (Option.filter_eq_some_iff.mp h).2
  simpa using this

/-- Where the token at `i` stands; line and column are zero past the end. -/
def location (l : Listing) (i : Nat) : Location :=
  match l.get? i with
  | some t => ⟨l.file, t.position.line, t.position.column⟩
  | none => ⟨l.file, 0, 0⟩

/-- The token texts, separated by single spaces. -/
def stringify (l : Listing) : String :=
  " ".intercalate (l.tokens.toList.map Token.text)

end Listing

end StackEscape
