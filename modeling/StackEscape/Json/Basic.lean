/-!
# JSON values

The values of JSON as their text gives them. A string is a sequence of code points in which, by way
of escapes, a surrogate may stand alone; only those without one are texts.
-/

namespace StackEscape

/-- A JSON value. A number is kept as it is written; an object keeps all of its members in order. -/
inductive Json where
  | null
  | bool (value : Bool)
  | number (literal : List Char)
  | string (codePoints : List Nat)
  | array (elements : List Json)
  | object (members : List (List Nat × Json))

namespace Json

def codePoints (s : String) : List Nat := s.toList.map Char.toNat

/-- The character of a code point, unless it is a surrogate. -/
def scalar? (n : Nat) : Option Char := if n.isValidChar then some (Char.ofNat n) else none

/-- The text that code points spell, unless one of them is a lone surrogate. -/
def decode? (points : List Nat) : Option String := (points.mapM scalar?).map String.ofList

theorem scalar?_toNat (c : Char) : scalar? c.toNat = some c := by
  have hv : c.toNat.isValidChar := c.valid
  simp [scalar?, hv]

theorem decode?_codePoints (s : String) : decode? (codePoints s) = some s := by
  have hc : ∀ cs : List Char, (cs.map Char.toNat).mapM scalar? = some cs := by
    intro cs
    induction cs with
    | nil => rfl
    | cons c cs ih => simp [List.mapM_cons, ih, scalar?_toNat]
  simp only [decode?, codePoints, hc, Option.map_some, String.ofList_toList]

def ofString (s : String) : Json := .string (codePoints s)

def ofNat (n : Nat) : Json := .number (Nat.toDigits 10 n)

def ofFields (fields : List (String × Json)) : Json :=
  .object (fields.map fun (name, value) => (codePoints name, value))

def text? : Json → Option String
  | .string points => decode? points
  | _ => none

/-- The number below `bound` that a value is, written without sign, fraction and exponent. -/
def natural? (bound : Nat) : Json → Option Nat
  | .number literal =>
    let n := Nat.ofDigitChars 10 literal 0
    if literal.all Char.isDigit ∧ n < bound then some n else none
  | _ => none

/-- The enumerator that a value names: a text, or an object with that text as its only name, for
nothing. -/
def enumerator? : Json → Option String
  | .string points => decode? points
  | .object [(points, .null)] => decode? points
  | _ => none

/-- The fields of a record. An object may have other members too, but has each field once; an array
has the fields in order and nothing else. -/
def fields? (names : List String) : Json → Option (List Json)
  | .object members => do
    let members ← members.mapM fun (points, value) => (decode? points).map (·, value)
    names.mapM fun name =>
      match members.filter (·.1 = name) with
      | [(_, value)] => some value
      | _ => none
  | .array elements => if elements.length = names.length then some elements else none
  | _ => none

end Json

end StackEscape
