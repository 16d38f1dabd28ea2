import StackEscape.Toml.Scalar

/-!
# Reading TOML

`Toml.ofText?` reads a text that is a TOML document and gives its top-level entries.
-/

namespace StackEscape.Toml

open Text (Reader Round)

/-- How deep arrays and inline tables may lie, and how many parts a key may have. -/
def nestingLimit : Nat := 79

/-! ## Between the parts -/

theorem length_dropWhile_le (p : Char → Bool) (cs : List Char) :
    (cs.dropWhile p).length ≤ cs.length := (List.dropWhile_sublist p).length_le

def skipGaps : List Char → List Char
  | ' ' :: cs => skipGaps cs
  | '\t' :: cs => skipGaps cs
  | '\n' :: cs => skipGaps cs
  | '\r' :: '\n' :: cs => skipGaps cs
  | '#' :: cs => skipGaps (cs.dropWhile isPlain)
  | cs => cs
termination_by cs => cs.length
decreasing_by
  all_goals simp only [List.length_cons]
  · omega
  · omega
  · omega
  · omega
  · have := length_dropWhile_le isPlain cs; omega

def skipComment : List Char → List Char
  | '#' :: cs => cs.dropWhile isPlain
  | cs => cs

/-- What is left behind the line, which may hold blanks and a comment but nothing else. -/
def afterLine? (cs : List Char) : Option (List Char) :=
  match skipComment (cs.dropWhile isSpace) with
  | [] => some []
  | cs => afterLineEnd? cs

/-! ## Keys -/

def isBare (c : Char) : Bool := c.isAlphanum || c = '_' || c = '-'

def keyPart : Reader String := fun cs =>
  match cs.takeWhile isBare with
  | [] => shortString cs
  | part => some (String.ofList part, cs.drop part.length)

/-- A key of one or more parts, with points between them and blanks around each: the last part, and
those before it. -/
def key : Reader (List String × String) := fun cs => do
  let (parts, rest) ← Text.iterate (fun (read : List String) cs => do
    let (part, cs) ← keyPart (cs.dropWhile isSpace)
    match cs.dropWhile isSpace with
    | '.' :: cs => some (.more (read ++ [part]), cs)
    | cs => some (.done (read, part), cs)) [] cs
  if parts.1.length < nestingLimit then some (parts, rest) else none

def pair (value : Reader Value) : Reader ((List String × String) × Value) := fun cs => do
  let (k, cs) ← key cs
  let (_, cs) ← Text.literal ['='] cs
  let (v, cs) ← value (cs.dropWhile isSpace)
  return ((k, v), cs)

/-! ## Values -/

/-- An array from behind its opening bracket. A comma may stand behind the last element. -/
def arrayBody (value : Reader Value) : Reader Value :=
  Text.iterate (fun (read : List Value) cs =>
    match skipGaps cs with
    | ']' :: cs => some (.done (.array read), cs)
    | cs => do
      let (v, cs) ← value cs
      match skipGaps cs with
      | ',' :: cs => some (.more (read ++ [v]), cs)
      | ']' :: cs => some (.done (.array (read ++ [v])), cs)
      | _ => none) []

def inlinePairs (value : Reader Value) : Reader Value :=
  Text.iterate (fun (entries : Entries) cs => do
    let (((path, k), v), cs) ← pair value cs
    let (_, entries) ← addValue path k v .inline entries
    match cs.dropWhile isSpace with
    | ',' :: cs => some (.more entries, cs)
    | '\x7d' :: cs => some (.done (.table .inline entries), cs)
    | _ => none) []

def inlineBody (value : Reader Value) : Reader Value := fun cs =>
  match cs.dropWhile isSpace with
  | '\x7d' :: cs => some (.table .inline [], cs)
  | cs => inlinePairs value cs

/-- A value that begins with a sign or a digit. -/
def numeral : Reader Value := fun cs =>
  (time cs).or ((decimalFloat cs).or ((specialFloat cs).or (integer cs)))

def word : Reader Value := fun cs =>
  if "true".toList.isPrefixOf cs then some (.boolean true, cs.drop 4)
  else if "false".toList.isPrefixOf cs then some (.boolean false, cs.drop 5)
  else specialFloat cs

/-- A value that is neither an array nor an inline table. -/
def scalar : Reader Value
  | c :: cs =>
    if c = '"' ∨ c = '\'' then (anyString (c :: cs)).map fun (s, rest) => (.string s, rest)
    else if c = '+' ∨ c = '-' ∨ c.isDigit then numeral (c :: cs)
    else word (c :: cs)
  | [] => none

/-- A value in which arrays and inline tables lie at most `depth` deep. -/
def value : Nat → Reader Value
  | 0 => scalar
  | depth + 1 => fun cs =>
    match cs with
    | '[' :: cs => arrayBody (value depth) cs
    | '\x7b' :: cs => inlineBody (value depth) cs
    | cs => scalar cs

/-! ## Lines -/

/-- The path in a header of one table, from behind its opening bracket. -/
def tableLine (d : Document) : Reader Document := fun cs => do
  let ((path, k), cs) ← key cs
  let (_, cs) ← Text.literal [']'] cs
  let rest ← afterLine? cs
  return (← d.openTable path k, rest)

def arrayLine (d : Document) : Reader Document := fun cs => do
  let ((path, k), cs) ← key cs
  let (_, cs) ← Text.literal [']', ']'] cs
  let rest ← afterLine? cs
  return (← d.addTable path k, rest)

def pairLine (d : Document) : Reader Document := fun cs => do
  let (((path, k), v), cs) ← pair (value nestingLimit) cs
  let rest ← afterLine? cs
  return (← d.addValue path k v, rest)

def line (d : Document) : Reader Document
  | '[' :: '[' :: cs => arrayLine d cs
  | '[' :: cs => tableLine d cs
  | cs => pairLine d cs

def lines : Reader Document :=
  Text.iterate (fun (d : Document) cs =>
    match skipGaps cs with
    | [] => some (.done d, [])
    | cs => (line d cs).map fun (d, rest) => (.more d, rest)) .empty

/-- The document without a byte order mark in front. -/
def skipMark : List Char → List Char
  | '\ufeff' :: cs => cs
  | cs => cs

/-- The top-level entries of the document that a text is. -/
def ofText? (s : String) : Option Entries := (lines (skipMark s.toList)).map (·.1.root)

end StackEscape.Toml
