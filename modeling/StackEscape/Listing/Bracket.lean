import StackEscape.Listing.Token

/-!
# Brackets

`Bracket.link` pairs every bracket of a token sequence with its partner, in one pass with a stack
of the brackets that are still open.
-/

namespace StackEscape.Bracket

def closerOf? (text : String) : Option String :=
  if text = "(" then some ")"
  else if text = "[" then some "]"
  else if text = "\x7b" then some "\x7d"
  else none

def isOpener (text : String) : Bool := (closerOf? text).isSome

def isCloser (text : String) : Bool := text = ")" || text = "]" || text = "\x7d"

/-- Why brackets do not pair: an opening one that nothing closes, or a closing one that closes
nothing. -/
inductive Fault where
  | unclosed (bracket : Token)
  | unexpected (bracket : Token)
deriving DecidableEq, Repr

def join (links : Array (Option Nat)) (opener closer : Nat) : Array (Option Nat) :=
  (links.setIfInBounds opener (some closer)).setIfInBounds closer (some opener)

/-- Pairs the brackets of the tokens from index `i` on. `opened` holds the brackets before `i` that
are still open, the innermost first. -/
def linkFrom (i : Nat) (opened : List (Nat × Token)) (links : Array (Option Nat)) :
    List Token → Except Fault (Array (Option Nat))
  | [] =>
    match opened with
    | [] => .ok links
    | (_, bracket) :: _ => .error (.unclosed bracket)
  | t :: ts =>
    if isOpener t.text then linkFrom (i + 1) ((i, t) :: opened) links ts
    else if isCloser t.text then
      match opened with
      | (o, bracket) :: outer =>
        if closerOf? bracket.text = some t.text then linkFrom (i + 1) outer (join links o i) ts
        else .error (.unexpected t)
      | [] => .error (.unexpected t)
    else linkFrom (i + 1) opened links ts

/-- The partner of every token, where it has one. -/
def link (tokens : Array Token) : Except Fault (Array (Option Nat)) :=
  linkFrom 0 [] (Array.replicate tokens.size none) tokens.toList

end StackEscape.Bracket
