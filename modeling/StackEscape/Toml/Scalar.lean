import StackEscape.Toml.Document
import StackEscape.Toml.Quoted

/-!
# TOML numbers and times

Integers in four bases, floats, and times with or without date and offset.
-/

namespace StackEscape.Toml

open Text (Reader)

/-! ## Integers -/

def moreDigits (p : Char → Bool) : Reader (List Char)
  | '_' :: c :: cs => if p c then (moreDigits p cs).map fun (ds, rest) => (c :: ds, rest) else none
  | ['_'] => none
  | c :: cs =>
    if p c then (moreDigits p cs).map fun (ds, rest) => (c :: ds, rest) else some ([], c :: cs)
  | [] => some ([], [])

/-- One or more digits with underscores between them. -/
def digits (p : Char → Bool) : Reader (List Char)
  | c :: cs => if p c then (moreDigits p cs).map fun (ds, rest) => (c :: ds, rest) else none
  | [] => none

/-- The digits of a decimal number: a zero stands in front only by itself. -/
def wholePart : Reader (List Char)
  | '0' :: cs => some (['0'], cs)
  | cs => digits Char.isDigit cs

/-- A sign, if there is one; it tells whether it is a minus. -/
def sign : List Char → Bool × List Char
  | '+' :: cs => (false, cs)
  | '-' :: cs => (true, cs)
  | cs => (false, cs)

def valueOf (base : Nat) (ds : List Char) : Nat :=
  ds.foldl (fun n c => base * n + (Text.hexDigit? c).getD 0) 0

def bounded (n : Int) : Option Value :=
  if -0x8000000000000000 ≤ n ∧ n < 0x8000000000000000 then some (.integer n) else none

/-- The digits of a base behind its mark. -/
def based (base : Nat) (p : Char → Bool) : Reader Value := fun cs => do
  let (ds, rest) ← digits p cs
  return (← bounded (valueOf base ds), rest)

/-- An integer. A sign goes with decimal digits only. -/
def integer : Reader Value
  | '0' :: 'x' :: cs => based 16 (fun c => (Text.hexDigit? c).isSome) cs
  | '0' :: 'o' :: cs => based 8 (fun c => '0' ≤ c && c ≤ '7') cs
  | '0' :: 'b' :: cs => based 2 (fun c => c = '0' || c = '1') cs
  | cs => do
    let (negative, cs) := sign cs
    let (ds, rest) ← wholePart cs
    let n : Int := valueOf 10 ds
    return (← bounded (if negative then -n else n), rest)

/-! ## Floats -/

def fraction : Reader (List Char)
  | '.' :: cs => digits Char.isDigit cs
  | _ => none

def exponent : Reader Int
  | c :: cs =>
    if c = 'e' ∨ c = 'E' then
      let (negative, cs) := sign cs
      (digits Char.isDigit cs).map fun (ds, rest) =>
        (if negative then -(valueOf 10 ds : Int) else valueOf 10 ds, rest)
    else none
  | [] => none

/-- The least number that is nearer to two to the power 1024 than to any double: a tie goes to the
even neighbour, which that power is. -/
def doubleBound : Nat := Nat.pow 2 1024 - Nat.pow 2 970

/-- Whether `m` times ten to the power `e` lies beyond the range of doubles. Comparing the number of
digits first keeps the powers small. -/
def exceedsDouble (m : Nat) (e : Int) : Bool :=
  let magnitude := (Nat.toDigits 10 m).length + e
  if m = 0 || magnitude < 300 then false
  else if 320 < magnitude then true
  else if 0 ≤ e then doubleBound ≤ m * Nat.pow 10 e.toNat
  else doubleBound * Nat.pow 10 (-e).toNat ≤ m

/-- A float of finite digits, with a fraction, an exponent or both. A positive one has to lie in the
range of doubles. -/
def decimalFloat : Reader Value := fun start => do
  let (negative, cs) := sign start
  let (whole, cs) ← wholePart cs
  let fractional := fraction cs
  let (places, cs) := fractional.getD ([], cs)
  let scaled := exponent cs
  let (e, rest) := scaled.getD (0, cs)
  if fractional.isNone && scaled.isNone then none
  else if !negative && exceedsDouble (valueOf 10 (whole ++ places)) (e - places.length) then none
  else some (.float (String.ofList (start.take (start.length - rest.length))), rest)

def specialFloat : Reader Value := fun start =>
  let (_, cs) := sign start
  let name := cs.take 3
  if name = "inf".toList ∨ name = "nan".toList then
    some (.float (String.ofList (start.take (start.length - cs.length + 3))), cs.drop 3)
  else none

/-! ## Times -/

def fixedDigits (count : Nat) : Reader Nat := fun cs =>
  let ds := cs.take count
  if ds.length = count ∧ ds.all Char.isDigit then some (valueOf 10 ds, cs.drop count) else none

/-- A number of exactly two digits in a range. -/
def field (low high : Nat) : Reader Nat := fun cs =>
  match fixedDigits 2 cs with
  | some (n, rest) => if low ≤ n ∧ n ≤ high then some (n, rest) else none
  | none => none

def isLeapYear (year : Nat) : Bool := year % 4 = 0 && (year % 100 != 0 || year % 400 = 0)

def daysIn (year month : Nat) : Nat :=
  if month = 2 then if isLeapYear year then 29 else 28
  else if [4, 6, 9, 11].contains month then 30
  else 31

def date : Reader Unit := fun cs => do
  let (year, cs) ← fixedDigits 4 cs
  let (_, cs) ← Text.literal ['-'] cs
  let (month, cs) ← field 1 12 cs
  let (_, cs) ← Text.literal ['-'] cs
  let (_, cs) ← field 1 (daysIn year month) cs
  return ((), cs)

def skipPlaces : List Char → List Char
  | '.' :: c :: cs => if c.isDigit then cs.dropWhile Char.isDigit else '.' :: c :: cs
  | cs => cs

/-- A time of day. The sixtieth second is a leap second. -/
def timeOfDay : Reader Unit := fun cs => do
  let (_, cs) ← field 0 23 cs
  let (_, cs) ← Text.literal [':'] cs
  let (_, cs) ← field 0 59 cs
  let (_, cs) ← Text.literal [':'] cs
  let (_, cs) ← field 0 60 cs
  return ((), skipPlaces cs)

def offset : Reader Unit
  | c :: cs =>
    if c = 'Z' ∨ c = 'z' then some ((), cs)
    else if c = '+' ∨ c = '-' then do
      let (_, cs) ← field 0 23 cs
      let (_, cs) ← Text.literal [':'] cs
      let (_, cs) ← field 0 59 cs
      return ((), cs)
    else none
  | [] => none

/-- A time of day behind a date, with or without an offset. -/
def timeBehindDate : Reader Unit
  | c :: cs =>
    if c = 'T' ∨ c = 't' ∨ c = ' ' then
      (timeOfDay cs).map fun (_, rest) => (offset rest).getD ((), rest)
    else none
  | [] => none

def time : Reader Value := fun start =>
  let rest := match date start with
    | some (_, rest) => some ((timeBehindDate rest).getD ((), rest)).2
    | none => (timeOfDay start).map Prod.snd
  rest.map fun rest => (.time (String.ofList (start.take (start.length - rest.length))), rest)

end StackEscape.Toml
