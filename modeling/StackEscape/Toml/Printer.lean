import StackEscape.Text

/-!
# Writing TOML strings

`Toml.quote` writes a text in the plainest of the four forms that can hold it. A text of letters
and digits is written between double quotes as it is.
-/

namespace StackEscape.Toml

/-- What decides on the form of a text. -/
structure Features where
  /-- It has control characters that only an escape can write. -/
  controls : Bool
  backslash : Bool
  lineEnd : Bool
  singles : Nat
  doubles : Nat
deriving DecidableEq, Repr

/-- The longest run of `q`, a run of length `current` standing before the text. -/
def longestRun (q : Char) (current : Nat) : List Char → Nat
  | [] => current
  | c :: cs => if c = q then longestRun q (current + 1) cs else max current (longestRun q 0 cs)

def isControl (c : Char) : Bool := c.toNat < 0x20 || c.toNat = 0x7F

def features (cs : List Char) : Features where
  controls := cs.any fun c => isControl c && c != '\t' && c != '\n'
  backslash := cs.contains '\\'
  lineEnd := cs.contains '\n'
  singles := longestRun '\'' 0 cs
  doubles := longestRun '"' 0 cs

/-- How a character is written between double quotes, quotes and line feeds apart. -/
def escape (c : Char) : List Char :=
  if c = '\\' then ['\\', '\\']
  else if c = '\x08' then ['\\', 'b']
  else if c = '\t' then ['\\', 't']
  else if c = '\x0c' then ['\\', 'f']
  else if c = '\r' then ['\\', 'r']
  else if isControl c then '\\' :: 'u' :: (Text.hexDigits 4 c.toNat).map Char.toUpper
  else [c]

def basicText : List Char → List Char
  | [] => []
  | c :: cs =>
    if c = '"' then '\\' :: '"' :: basicText cs
    else if c = '\n' then '\\' :: 'n' :: basicText cs
    else escape c ++ basicText cs

/-- What stands between three double quotes: `run` quotes stand right before it, and no three may
stand together. -/
def longBasicText (run : Nat) : List Char → List Char
  | [] => []
  | c :: cs =>
    if c = '"' then
      if run < 2 then '"' :: longBasicText (run + 1) cs else '\\' :: '"' :: longBasicText 0 cs
    else if c = '\n' then '\n' :: longBasicText 0 cs
    else escape c ++ longBasicText 0 cs

/-- A text inside its quotes; one of several lines begins on a line of its own. -/
def enclose (quotes : List Char) (lineEnd : Bool) (body : List Char) : List Char :=
  quotes ++ (if lineEnd then ['\n'] else []) ++ body ++ quotes

/-- A text in the first form that can hold it: with double quotes or single ones, on one line or
several; with escapes only if nothing else will do. -/
def quoted (cs : List Char) : List Char :=
  let f := features cs
  let double := ['"']
  let single := ['\'']
  let longDouble := ['"', '"', '"']
  let longSingle := ['\'', '\'', '\'']
  if !f.controls && !f.backslash && f.doubles = 0 && !f.lineEnd then
    enclose double false (basicText cs)
  else if !f.controls && f.singles = 0 && !f.lineEnd then enclose single false cs
  else if !f.controls && !f.backslash && f.doubles ≤ 2 then
    enclose longDouble f.lineEnd (longBasicText 0 cs)
  else if !f.controls && f.singles ≤ 2 then enclose longSingle f.lineEnd cs
  else if f.lineEnd then enclose longDouble true (longBasicText 0 cs)
  else enclose double false (basicText cs)

def quote (s : String) : String := String.ofList (quoted s.toList)

end StackEscape.Toml
