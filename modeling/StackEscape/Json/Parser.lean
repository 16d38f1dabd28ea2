import StackEscape.Json.Basic
import StackEscape.Text

/-!
# Reading JSON

`Json.ofText?` reads a text that is one JSON value, with blanks around it.
-/

namespace StackEscape.Json

open Text (Reader Round)

def isSpace (c : Char) : Bool := c = ' ' || c = '\n' || c = '\t' || c = '\r'

def skipSpace (cs : List Char) : List Char := cs.dropWhile isSpace

/-- The code point or half of one that the escape behind a backslash stands for, and the number of
characters that it takes. -/
def escaped? : List Char → Option (Nat × Nat)
  | '"' :: _ => some (0x22, 1)
  | '\\' :: _ => some (0x5C, 1)
  | '/' :: _ => some (0x2F, 1)
  | 'b' :: _ => some (0x08, 1)
  | 'f' :: _ => some (0x0C, 1)
  | 'n' :: _ => some (0x0A, 1)
  | 'r' :: _ => some (0x0D, 1)
  | 't' :: _ => some (0x09, 1)
  | 'u' :: cs => (Text.hexNumber 4 cs).map fun (n, _) => (n, 5)
  | _ => none

/-- What a string holds, from behind its opening quote through its closing one, the halves of
surrogate pairs still apart. -/
def units : Reader (List Nat)
  | [] => none
  | c :: cs =>
    if c = '"' then some ([], cs)
    else if c = '\\' then
      match escaped? cs with
      | none => none
      | some (n, taken) => (units (cs.drop taken)).map fun (ns, rest) => (n :: ns, rest)
    else if c.toNat < 0x20 then none
    else (units cs).map fun (ns, rest) => (c.toNat :: ns, rest)
termination_by cs => cs.length

def isHighSurrogate (n : Nat) : Bool := 0xD800 ≤ n && n ≤ 0xDBFF

def isLowSurrogate (n : Nat) : Bool := 0xDC00 ≤ n && n ≤ 0xDFFF

/-- Joins the halves of surrogate pairs. -/
def joinSurrogates : List Nat → List Nat
  | high :: low :: rest =>
    if isHighSurrogate high && isLowSurrogate low then
      (0x10000 + (high - 0xD800) * 0x400 + (low - 0xDC00)) :: joinSurrogates rest
    else high :: joinSurrogates (low :: rest)
  | ns => ns

def stringBody : Reader (List Nat) := fun cs =>
  (units cs).map fun (ns, rest) => (joinSurrogates ns, rest)

def digits : Reader (List Char) := fun cs =>
  match cs.takeWhile Char.isDigit with
  | [] => none
  | ds => some (ds, cs.drop ds.length)

/-- The digits before the point: a zero stands there only by itself. -/
def wholePart : Reader (List Char)
  | '0' :: cs => some (['0'], cs)
  | cs => digits cs

def fractionPart : Reader (List Char)
  | '.' :: cs => (digits cs).map fun (ds, rest) => ('.' :: ds, rest)
  | cs => some ([], cs)

def exponentPart : Reader (List Char)
  | c :: cs =>
    if c = 'e' ∨ c = 'E' then
      let (sign, cs) := match cs with
        | '+' :: cs => (['+'], cs)
        | '-' :: cs => (['-'], cs)
        | cs => ([], cs)
      (digits cs).map fun (ds, rest) => (c :: sign ++ ds, rest)
    else some ([], c :: cs)
  | [] => some ([], [])

def numberLiteral : Reader (List Char) := fun cs => do
  let (sign, cs) := match cs with
    | '-' :: cs => (['-'], cs)
    | cs => ([], cs)
  let (whole, cs) ← wholePart cs
  let (fraction, cs) ← fractionPart cs
  let (exponent, cs) ← exponentPart cs
  return (sign ++ whole ++ fraction ++ exponent, cs)

/-- The elements of an array up to its closing bracket; there is at least one. -/
def elements (value : Reader Json) : Reader (List Json) :=
  Text.iterate (fun (read : List Json) cs => do
    let (e, cs) ← value (skipSpace cs)
    match skipSpace cs with
    | ',' :: cs => some (.more (e :: read), cs)
    | ']' :: cs => some (.done (e :: read).reverse, cs)
    | _ => none) []

def member (value : Reader Json) : Reader (List Nat × Json) := fun cs =>
  match skipSpace cs with
  | '"' :: cs => do
    let (name, cs) ← stringBody cs
    match skipSpace cs with
    | ':' :: cs => (value (skipSpace cs)).map fun (v, rest) => ((name, v), rest)
    | _ => none
  | _ => none

def members (value : Reader Json) : Reader (List (List Nat × Json)) :=
  Text.iterate (fun (read : List (List Nat × Json)) cs => do
    let (m, cs) ← member value cs
    match skipSpace cs with
    | ',' :: cs => some (.more (m :: read), cs)
    | '\x7d' :: cs => some (.done (m :: read).reverse, cs)
    | _ => none) []

def arrayBody (value : Reader Json) : Reader Json := fun cs =>
  match skipSpace cs with
  | ']' :: cs => some (.array [], cs)
  | cs => (elements value cs).map fun (es, rest) => (.array es, rest)

def objectBody (value : Reader Json) : Reader Json := fun cs =>
  match skipSpace cs with
  | '\x7d' :: cs => some (.object [], cs)
  | cs => (members value cs).map fun (ms, rest) => (.object ms, rest)

/-- A value in which arrays and objects lie less than `depth` deep. -/
def value : Nat → Reader Json
  | 0 => fun _ => none
  | depth + 1 => fun cs =>
    match cs with
    | '"' :: cs => (stringBody cs).map fun (s, rest) => (.string s, rest)
    | '[' :: cs => arrayBody (value depth) cs
    | '\x7b' :: cs => objectBody (value depth) cs
    | 'n' :: cs => (Text.literal "ull".toList cs).map fun (_, rest) => (.null, rest)
    | 't' :: cs => (Text.literal "rue".toList cs).map fun (_, rest) => (.bool true, rest)
    | 'f' :: cs => (Text.literal "alse".toList cs).map fun (_, rest) => (.bool false, rest)
    | cs => (numberLiteral cs).map fun (n, rest) => (.number n, rest)

/-- The value that a text is. A value never lies deeper than its text is long. -/
def ofText? (s : String) : Option Json :=
  let cs := s.toList
  match value (cs.length + 1) (skipSpace cs) with
  | some (v, rest) => if skipSpace rest = [] then some v else none
  | none => none

end StackEscape.Json
