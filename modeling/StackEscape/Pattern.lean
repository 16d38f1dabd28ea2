import StackEscape.Program

/-!
# Token patterns

A pattern is a sequence of words, separated by blanks, that is laid along the tokens of a program.

| word      | stands for                                             |
|-----------|--------------------------------------------------------|
| `text`    | a token with that text                                 |
| `%var%`   | a name                                                 |
| `%type%`  | a name that is bound to no variable, except `delete`   |
| `%any%`   | any token                                              |
| `%num%`   | a number                                               |
| `%str%`   | a string literal                                       |
| `[;{}]`   | a token that is one of the characters in the brackets  |
| `a|b`     | what either alternative stands for                     |
| `a|`      | `a`, or nothing                                        |
| `!!a`     | a token other than `a`, or the end of the tokens       |

Matching never goes back: a word that may stand for nothing takes a token whenever it can.
-/

namespace StackEscape

inductive Atom where
  | text (text : String)
  | name
  | typeName
  | any
  | number
  | string
  | oneOf (characters : List Char)
deriving DecidableEq, Repr

namespace Atom

/-- What a word without alternatives stands for. -/
def ofWord (w : List Char) : Atom :=
  if w = "%var%".toList then .name
  else if w = "%type%".toList then .typeName
  else if w = "%any%".toList then .any
  else if w = "%num%".toList then .number
  else if w = "%str%".toList then .string
  else if 2 < w.length ∧ w.head? = some '[' ∧ w.getLast? = some ']' then
    .oneOf w.tail.dropLast
  else .text (String.ofList w)

/-- Whether an atom stands for a token, `bound` saying that the token is bound to a variable. -/
def accepts (t : Token) (bound : Bool) : Atom → Bool
  | .text w => t.text = w
  | .name => t.kind = .name
  | .typeName => t.kind = .name && !bound && t.text != "delete"
  | .any => true
  | .number => t.kind = .number
  | .string => t.kind = .string
  | .oneOf characters =>
    match t.text.toList with
    | [c] => characters.contains c
    | _ => false

end Atom

inductive Element where
  | choice (atoms : List Atom) (optional : Bool)
  /-- Any token with another text, or no token at the end. -/
  | otherThan (text : String)
deriving DecidableEq, Repr

namespace Element

/-- `|` and `||` are operators and no alternatives. -/
def ofWord : List Char → Element
  | '!' :: '!' :: w => .otherThan (String.ofList w)
  | w =>
    if w = ['|'] ∨ w = ['|', '|'] ∨ '|' ∉ w then .choice [Atom.ofWord w] false
    else
      let alternatives := Text.pieces '|' w
      .choice ((alternatives.filter (· ≠ [])).map Atom.ofWord) (alternatives.contains [])

/-- Where an element finds its token, the next one being at `i`: `some none` if it takes none. -/
def place? (p : Program) (i : Nat) : Element → Option (Option Nat)
  | .otherThan w =>
    match p.listing.get? i with
    | none => some none
    | some t => if t.text = w then none else some (some i)
  | .choice atoms optional =>
    let hit := (p.listing.get? i).any fun t => atoms.any (·.accepts t (p.variableIdAt? i).isSome)
    if hit then some (some i) else if optional then some none else none

end Element

/-- A pattern: its text and the elements that its words are. -/
structure Pattern where
  source : String
  elements : List Element
deriving DecidableEq, Repr

/-- Where a pattern matched: a token for every element that took one, where the match starts, and
the index behind its last token. -/
structure Captures where
  positions : List (Option Nat)
  start : Nat
  stop : Nat
deriving DecidableEq, Repr

namespace Captures

def get? (c : Captures) (n : Nat) : Option Nat := (c.positions[n]?).join

def length (c : Captures) : Nat := c.stop - c.start

def isEmpty (c : Captures) : Bool := c.stop = c.start

end Captures

namespace Pattern

def ofString (source : String) : Pattern :=
  ⟨source, (Text.words source.toList).map Element.ofWord⟩

/-- Lays elements along the tokens from `i` on. -/
def place? (p : Program) (i : Nat) : List Element → Option (List (Option Nat) × Nat)
  | [] => some ([], i)
  | e :: es =>
    match e.place? p i with
    | none => none
    | some position =>
      let next := if position.isSome then i + 1 else i
      (place? p next es).map fun (positions, stop) => (position :: positions, stop)

def matchAt? (pattern : Pattern) (p : Program) (start : Nat) : Option Captures :=
  (place? p start pattern.elements).map fun (positions, stop) => ⟨positions, start, stop⟩

def matchesAt (pattern : Pattern) (p : Program) (start : Nat) : Bool :=
  (pattern.matchAt? p start).isSome

end Pattern

end StackEscape
