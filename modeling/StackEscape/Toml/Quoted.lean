import StackEscape.Text

/-!
# TOML strings

The four written forms of a string. Each reader starts behind the opening quotes and goes through
the closing ones. Between single quotes a text stands for itself, between double quotes a backslash
begins an escape; in the forms with three quotes a text may have several lines, and each line end
counts as one line feed.
-/

namespace StackEscape.Toml

open Text (Reader)

/-- Whether a character may stand in a text as it is: no control character but the tab. -/
def isPlain (c : Char) : Bool := c = '\t' || (0x20 ≤ c.toNat && c.toNat != 0x7F)

def isSpace (c : Char) : Bool := c = ' ' || c = '\t'

def afterLineEnd? : List Char → Option (List Char)
  | '\n' :: cs => some cs
  | '\r' :: '\n' :: cs => some cs
  | _ => none

theorem length_afterLineEnd? {cs rest : List Char} (h : afterLineEnd? cs = some rest) :
    rest.length < cs.length := by
  unfold afterLineEnd? at h
  split at h
  · obtain rfl := Option.some.inj h
    exact Nat.lt_succ_self _
  · obtain rfl := Option.some.inj h
    exact Nat.lt_add_of_pos_right (k := 2) (by decide)
  · exact absurd h (by simp)

/-- The character that the escape behind a backslash stands for, and the number of characters that
it takes. -/
def escaped? : List Char → Option (Char × Nat)
  | 'b' :: _ => some ('\x08', 1)
  | 't' :: _ => some ('\t', 1)
  | 'n' :: _ => some ('\n', 1)
  | 'f' :: _ => some ('\x0c', 1)
  | 'r' :: _ => some ('\r', 1)
  | '"' :: _ => some ('"', 1)
  | '\\' :: _ => some ('\\', 1)
  | 'u' :: cs => scalar 4 cs
  | 'U' :: cs => scalar 8 cs
  | _ => none
where
  /-- The character whose code point `count` hexadecimal digits give. -/
  scalar (count : Nat) (cs : List Char) : Option (Char × Nat) :=
    match Text.hexNumber count cs with
    | some (n, _) => if n.isValidChar then some (Char.ofNat n, count + 1) else none
    | none => none

def literalBody : Reader (List Char)
  | [] => none
  | c :: cs =>
    if c = '\'' then some ([], cs)
    else if isPlain c then (literalBody cs).map fun (text, rest) => (c :: text, rest)
    else none

def basicBody : Reader (List Char)
  | [] => none
  | c :: cs =>
    if c = '"' then some ([], cs)
    else if c = '\\' then
      match escaped? cs with
      | none => none
      | some (e, taken) => (basicBody (cs.drop taken)).map fun (text, rest) => (e :: text, rest)
    else if isPlain c then (basicBody cs).map fun (text, rest) => (c :: text, rest)
    else none
termination_by cs => cs.length

def quoteCount (quote : Char) (cs : List Char) : Nat := (cs.takeWhile (· = quote)).length

def skipLines : List Char → List Char
  | ' ' :: cs => skipLines cs
  | '\t' :: cs => skipLines cs
  | '\n' :: cs => skipLines cs
  | '\r' :: '\n' :: cs => skipLines cs
  | cs => cs

theorem length_skipLines (cs : List Char) : (skipLines cs).length ≤ cs.length := by
  fun_induction skipLines cs <;> grind

/-- What is left where a line goes on behind a backslash: blanks, a line end, and all blanks and
line ends after it are passed over. -/
def afterContinuation? (cs : List Char) : Option (List Char) :=
  (afterLineEnd? (cs.dropWhile isSpace)).map skipLines

theorem length_afterContinuation? {cs rest : List Char} (h : afterContinuation? cs = some rest) :
    rest.length < cs.length := by
  obtain ⟨r, hr, rfl⟩ := Option.map_eq_some_iff.mp h
  have h1 := length_afterLineEnd? hr
  have h2 := length_skipLines r
  have h3 : (cs.dropWhile isSpace).length ≤ cs.length :=
    (List.dropWhile_sublist isSpace).length_le
  omega

/-- A text between three single quotes. Up to two more may stand right before the closing ones. -/
def longLiteralBody : Reader (List Char)
  | [] => none
  | c :: cs =>
    if c = '\'' then
      let n := quoteCount '\'' (c :: cs)
      if 3 ≤ n then some (List.replicate (min n 5 - 3) '\'', (c :: cs).drop (min n 5))
      else (longLiteralBody cs).map fun (text, rest) => (c :: text, rest)
    else
      match _h : afterLineEnd? (c :: cs) with
      | some next => (longLiteralBody next).map fun (text, rest) => ('\n' :: text, rest)
      | none =>
        if isPlain c then (longLiteralBody cs).map fun (text, rest) => (c :: text, rest) else none
termination_by cs => cs.length
decreasing_by
  · exact Nat.lt_succ_self _
  · exact length_afterLineEnd? ‹_›
  · exact Nat.lt_succ_self _

def longBasicBody : Reader (List Char)
  | [] => none
  | c :: cs =>
    if c = '"' then
      let n := quoteCount '"' (c :: cs)
      if 3 ≤ n then some (List.replicate (min n 5 - 3) '"', (c :: cs).drop (min n 5))
      else (longBasicBody cs).map fun (text, rest) => (c :: text, rest)
    else if c = '\\' then
      match _h : afterContinuation? cs with
      | some next => longBasicBody next
      | none =>
        match escaped? cs with
        | none => none
        | some (e, taken) =>
          (longBasicBody (cs.drop taken)).map fun (text, rest) => (e :: text, rest)
    else
      match _h : afterLineEnd? (c :: cs) with
      | some next => (longBasicBody next).map fun (text, rest) => ('\n' :: text, rest)
      | none =>
        if isPlain c then (longBasicBody cs).map fun (text, rest) => (c :: text, rest) else none
termination_by cs => cs.length
decreasing_by
  · exact Nat.lt_succ_self _
  · have := length_afterContinuation? ‹_›; simp only [List.length_cons]; omega
  · simp only [List.length_drop, List.length_cons]; omega
  · exact length_afterLineEnd? ‹_›
  · exact Nat.lt_succ_self _

/-- Passes over a line end right behind opening quotes. -/
def skipFirstLineEnd (cs : List Char) : List Char := (afterLineEnd? cs).getD cs

/-- A string on one line, as it is allowed in keys too. -/
def shortString : Reader String
  | '"' :: cs => (basicBody cs).map fun (text, rest) => (String.ofList text, rest)
  | '\'' :: cs => (literalBody cs).map fun (text, rest) => (String.ofList text, rest)
  | _ => none

def anyString : Reader String
  | '"' :: '"' :: '"' :: cs =>
    (longBasicBody (skipFirstLineEnd cs)).map fun (text, rest) => (String.ofList text, rest)
  | '\'' :: '\'' :: '\'' :: cs =>
    (longLiteralBody (skipFirstLineEnd cs)).map fun (text, rest) => (String.ofList text, rest)
  | cs => shortString cs

end StackEscape.Toml
