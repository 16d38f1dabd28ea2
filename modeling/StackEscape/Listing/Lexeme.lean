import StackEscape.Listing.Token
import StackEscape.Text

/-!
# Lexemes

A source is cut into lexemes, one after the other: gaps (blanks, comments, directives) and tokens.
`Lexeme.measure` looks at the front of what is left and says what stands there and how far it
reaches. It only measures, so a lexeme and what is left of the text join up to the text again.
-/

namespace StackEscape

inductive Quote where
  | string
  | character
deriving DecidableEq, Repr

namespace Quote

def char : Quote → Char
  | .string => '"'
  | .character => '\''

def kind : Quote → Kind
  | .string => .string
  | .character => .character

def ofChar? (c : Char) : Option Quote :=
  if c = '"' then some .string else if c = '\'' then some .character else none

def word : Quote → String
  | .string => "string"
  | .character => "character"

end Quote

/-- Why a text cannot be cut: a literal or a comment in it has no end. -/
inductive LexemeFault where
  | literal (quote : Quote)
  | comment
deriving DecidableEq, Repr

/-- The front of a text: a token of some sort, or a gap if `kind` is absent, that reaches `extra`
characters beyond its first. -/
structure Lexeme where
  kind : Option Kind
  extra : Nat
deriving DecidableEq, Repr

namespace Lexeme

def isLetter (c : Char) : Bool := ('a' ≤ c && c ≤ 'z') || ('A' ≤ c && c ≤ 'Z')

def isDigit (c : Char) : Bool := '0' ≤ c && c ≤ '9'

/-- Letters and digits are those of ASCII only. -/
def startsName (c : Char) : Bool := isLetter c || c == '_'

def continuesName (c : Char) : Bool := isLetter c || isDigit c || c == '_'

/-- Length of the longest front whose characters satisfy `p`. -/
def runLength (p : Char → Bool) (cs : List Char) : Nat := (cs.takeWhile p).length

/-- Length of the front up to the end of the line. -/
def lineLength (cs : List Char) : Nat := runLength (· != '\n') cs

/-- Length of the front up to and including the end of a block comment. -/
def commentLength? : List Char → Option Nat
  | '*' :: '/' :: _ => some 2
  | _ :: cs => (commentLength? cs).map (· + 1)
  | [] => none

/-- Length of what belongs to a directive: the line, and the next one after a backslash that
stands last on it. -/
def directiveLength : List Char → Nat
  | '\\' :: '\n' :: cs => directiveLength cs + 2
  | '\n' :: _ => 0
  | _ :: cs => directiveLength cs + 1
  | [] => 0

/-- Whether a number goes on with `c`, `last` being the character before it. A sign belongs to
a number only right after the letter of an exponent, which a hexadecimal number has none of. -/
def continuesNumber (hexadecimal : Bool) (last c : Char) : Bool :=
  isLetter c || isDigit c || c == '_' || c == '.' || c == '\''
    || ((c == '+' || c == '-') && !hexadecimal
      && (last == 'e' || last == 'E' || last == 'p' || last == 'P'))

def numberLength (hexadecimal : Bool) (last : Char) : List Char → Nat
  | [] => 0
  | c :: cs => if continuesNumber hexadecimal last c then numberLength hexadecimal c cs + 1 else 0

/-- Whether a number that begins with `c` is written with a hexadecimal prefix. -/
def isHexadecimal (c : Char) (cs : List Char) : Bool :=
  c == '0' && (cs.head? == some 'x' || cs.head? == some 'X')

/-- Length of a literal from behind its opening quote through its closing one. A backslash takes
the character after it along, whatever that is; a line feed of its own ends the search. -/
def quotedLength? (quote : Char) : List Char → Option Nat
  | [] => none
  | '\\' :: _ :: cs => (quotedLength? quote cs).map (· + 2)
  | c :: cs =>
    if c = quote then some 1
    else if c = '\n' then none
    else (quotedLength? quote cs).map (· + 1)

/-- The words that belong to a quoted literal when they stand right before it. -/
def encodingMarks : List (List Char) := [['L'], ['u'], ['U'], ['u', '8']]

/-- The operators of more than one character, the longer ones first. -/
def longOperators : List (List Char) :=
  ["<<=", ">>=", "...", "->*",
   "::", "->", "++", "--", "<<", ">>", "<=", ">=", "==", "!=", "&&", "||", "+=", "-=", "*=",
   "/=", "%=", "&=", "|=", "^=", ".*", "##"].map String.toList

/-- How far the operator at the front reaches beyond its first character. -/
def operatorLength (cs : List Char) : Nat :=
  match longOperators.find? (·.isPrefixOf cs) with
  | some op => op.length - 1
  | none => 0

/-- A quoted literal that has `mark` characters before the first one behind its opening quote. -/
def quoted (q : Quote) (mark : Nat) (body : List Char) : Except LexemeFault Lexeme :=
  match quotedLength? q.char body with
  | some n => .ok ⟨some q.kind, mark + n⟩
  | none => .error (.literal q)

def named (c : Char) (cs : List Char) : Except LexemeFault Lexeme :=
  let n := runLength continuesName cs
  match cs.drop n with
  | q :: body =>
    match if encodingMarks.contains (c :: cs.take n) then Quote.ofChar? q else none with
    | some quote => quoted quote (n + 1) body
    | none => .ok ⟨some .name, n⟩
  | [] => .ok ⟨some .name, n⟩

def token (c : Char) (cs : List Char) : Except LexemeFault Lexeme :=
  if startsName c then named c cs
  else if isDigit c || (c == '.' && cs.head?.any isDigit) then
    .ok ⟨some .number, numberLength (isHexadecimal c cs) c cs⟩
  else match Quote.ofChar? c with
    | some q => quoted q 0 cs
    | none => .ok ⟨some .operator, operatorLength (c :: cs)⟩

/-- The lexeme at the front of `c :: cs`. A `#` begins a directive only at the start of a line. -/
def measure (lineStart : Bool) (c : Char) (cs : List Char) : Except LexemeFault Lexeme :=
  if Text.isBlank c then .ok ⟨none, runLength Text.isBlank cs⟩
  else if c = '/' ∧ cs.head? = some '/' then .ok ⟨none, lineLength cs⟩
  else if c = '/' ∧ cs.head? = some '*' then
    match commentLength? cs.tail with
    | some n => .ok ⟨none, n + 1⟩
    | none => .error .comment
  else if c = '#' ∧ lineStart then .ok ⟨none, directiveLength cs⟩
  else token c cs

/-- The text of a token: its characters, except that `->` is written like the member access it
abbreviates. -/
def spelling (cs : List Char) : String :=
  if cs = ['-', '>'] then "." else String.ofList cs

end Lexeme

end StackEscape
