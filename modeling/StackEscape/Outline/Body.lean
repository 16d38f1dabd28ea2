import StackEscape.Outline.Declarator

/-!
# Function bodies

A function body is read as a sequence of steps: blocks open and close, names are declared, names
are mentioned. The steps depend on the tokens alone; what the names refer to is settled later, when
the steps are followed in order.
-/

namespace StackEscape.Body

inductive Step where
  | enterBlock
  | leaveBlock
  | declare (declaration : Declaration)
  /-- A name that may refer to a variable. -/
  | mention (token : Nat)
deriving DecidableEq, Repr

/-- The outcome of looking at one place: what happens there, where to look next, and whether a
statement may begin there. -/
structure Move where
  step : Option Step
  next : Nat
  fresh : Bool
deriving DecidableEq, Repr

def typeWords : List String := ["class", "struct", "union", "enum"]

/-- Index behind the definition of a local type that starts at `i`. -/
def localTypeEnd? (l : Listing) (stop i : Nat) : Option Nat :=
  let j := l.seek ["\x7b", ";", "=", "("] stop (i + 1)
  if l.text j = "\x7b" then (l.closing? j).map (· + 1) else none

theorem lt_localTypeEnd? {l : Listing} {stop i j : Nat} (h : localTypeEnd? l stop i = some j) :
    i < j := by
  simp only [localTypeEnd?] at h
  split at h
  · obtain ⟨c, hc, rfl⟩ := Option.map_eq_some_iff.mp h
    have := Listing.lt_of_closing? hc
    have := l.le_seek ["\x7b", ";", "=", "("] stop (i + 1)
    omega
  · simp at h

/-- Whether the parenthesis that closes at `i` ends the head of a statement, so that another
statement follows. -/
def endsHead (l : Listing) (i : Nat) : Bool :=
  match l.opening? i with
  | some opener => ["if", "while", "switch", "for"].contains (l.textBefore opener)
  | none => false

/-- Whether a statement begins behind the token at `i`. -/
def opensStatement (l : Listing) (i : Nat) : Bool :=
  let w := l.text i
  if w = "else" || w = "do" then true else if w = ")" then endsHead l i else false

/-- Whether the token at `i` is a name that is not reached through `.` or `::`. -/
def isMention (l : Listing) (i : Nat) : Bool :=
  l.isName i && !(l.textBefore i = "." || l.textBefore i = "::")

/-- Passes over the token at `i`, which starts no declaration. -/
def pass (l : Listing) (i : Nat) : Move :=
  ⟨if isMention l i then some (.mention i) else none, i + 1, opensStatement l i⟩

/-- Where a statement may begin, a local type definition is skipped and a declaration is made. -/
def atStatement (l : Listing) (stop i : Nat) : Move :=
  match if typeWords.contains (l.text i) then localTypeEnd? l stop i else none with
  | some next => ⟨none, next, false⟩
  | none =>
    match Declaration.ofTokens? l Declaration.localTerminators i stop with
    | some d => ⟨some (.declare d), d.first.nameToken + 1, false⟩
    | none => pass l i

/-- What to do at `i`, `fresh` saying whether a statement may begin there. -/
def move (l : Listing) (stop i : Nat) (fresh : Bool) : Move :=
  let w := l.text i
  if w = "\x7b" then ⟨some .enterBlock, i + 1, true⟩
  else if w = "\x7d" then ⟨some .leaveBlock, i + 1, true⟩
  else if w = ";" then ⟨none, i + 1, true⟩
  else if w = "for" && l.text (i + 1) = "(" then ⟨none, i + 2, true⟩
  else if fresh then atStatement l stop i
  else pass l i

theorem lt_next_move (l : Listing) (stop i : Nat) (fresh : Bool) :
    i < (move l stop i fresh).next := by
  have hp : i < (pass l i).next := Nat.lt_succ_self i
  simp only [move]
  repeat' split
  all_goals try exact Nat.lt_succ_self i
  · exact Nat.lt_add_of_pos_right (by decide)
  · unfold atStatement
    split
    · next h =>
      split at h
      · exact lt_localTypeEnd? h
      · simp at h
    · split
      · next hd =>
        unfold Declaration.ofTokens? at hd
        split at hd
        · simp at hd
        · next hs =>
          have := Declarator.start_lt_nameToken hs
          split at hd
          · obtain rfl := Option.some.inj hd
            exact Nat.lt_succ_of_lt this
          · simp at hd
      · exact hp

def steps (l : Listing) (stop i : Nat) (fresh : Bool) : List Step :=
  if i < stop then
    let m := move l stop i fresh
    m.step.toList ++ steps l stop m.next m.fresh
  else []
termination_by stop - i
decreasing_by
  have := lt_next_move l stop i fresh
  omega

end StackEscape.Body
