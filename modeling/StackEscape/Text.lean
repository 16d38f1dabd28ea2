/-!
# Texts

`isBlank` is the Unicode property `White_Space`. A word is a maximal run of characters that are
not blank; `words` lists those of a text, and `trim` drops the blanks at its ends.

A reader takes something off the front of a text and hands on what is left, or refuses.
`iterate` is the one loop over a reader. A round that leaves the text as long as it was is refused,
so that the loop ends; readers whose rounds take at least one character never notice.
-/

namespace StackEscape.Text

/-! ## Blanks and words -/

/-- The characters with the Unicode property `White_Space`. -/
def isBlank (c : Char) : Bool :=
  let n := c.toNat
  (9 ≤ n && n ≤ 13) || n == 0x20 || n == 0x85 || n == 0xA0 || n == 0x1680
    || (0x2000 ≤ n && n ≤ 0x200A) || n == 0x2028 || n == 0x2029 || n == 0x202F
    || n == 0x205F || n == 0x3000

/-- The maximal runs of characters that are not blank, in order. -/
def words : List Char → List (List Char)
  | [] => []
  | c :: cs =>
    if isBlank c then words cs
    else match cs, words cs with
      | d :: _, w :: ws => if isBlank d then [c] :: w :: ws else (c :: w) :: ws
      | _, ws => [c] :: ws

def trim (cs : List Char) : List Char :=
  ((cs.dropWhile isBlank).reverse.dropWhile isBlank).reverse

/-- The pieces between the places where `sep` stands; there is always at least one. -/
def pieces (sep : Char) : List Char → List (List Char)
  | [] => [[]]
  | c :: cs =>
    if c = sep then [] :: pieces sep cs
    else match pieces sep cs with
      | [] => [[c]]
      | w :: ws => (c :: w) :: ws

/-! ## Readers -/

/-- Takes something off the front of a text, or refuses. -/
abbrev Reader (α : Type) := List Char → Option (α × List Char)

/-- What a round of a loop decides: to go on with a new state, or to stop with a result. -/
inductive Round (σ α : Type) where
  | more (state : σ)
  | done (result : α)

/-- Repeats `round` until it is done. -/
def iterate {σ α : Type} (round : σ → Reader (Round σ α)) (state : σ) : Reader α := fun cs =>
  match round state cs with
  | none => none
  | some (.done result, rest) => some (result, rest)
  | some (.more next, rest) =>
    if rest.length < cs.length then iterate round next rest else none
termination_by cs => cs.length

def literal (lit : List Char) : Reader Unit := fun cs =>
  if lit.isPrefixOf cs then some ((), cs.drop lit.length) else none

/-! ## Hexadecimal numbers -/

def hexDigit? (c : Char) : Option Nat :=
  if '0' ≤ c ∧ c ≤ '9' then some (c.toNat - '0'.toNat)
  else if 'a' ≤ c ∧ c ≤ 'f' then some (c.toNat - 'a'.toNat + 10)
  else if 'A' ≤ c ∧ c ≤ 'F' then some (c.toNat - 'A'.toNat + 10)
  else none

/-- The number that exactly `count` hexadecimal digits spell. -/
def hexNumber (count : Nat) : Reader Nat := fun cs =>
  let digits := cs.take count
  if digits.length = count then
    (digits.foldlM (fun n c => (hexDigit? c).map (16 * n + ·)) 0).map (·, cs.drop count)
  else none

/-- The lower-case hexadecimal digits of a number, at least `width` of them. -/
def hexDigits (width n : Nat) : List Char :=
  let digits := Nat.toDigits 16 n
  List.replicate (width - digits.length) '0' ++ digits

end StackEscape.Text
