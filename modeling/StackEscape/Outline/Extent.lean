import StackEscape.Listing.Token

/-!
# Extents

How far a construct reaches in a listing: the end of a template argument list, of an initializer,
of a statement. Each function looks at the tokens of a region, which ends before the index `stop`,
and passes over bracketed parts as a whole.
-/

namespace StackEscape.Listing

/-- The first index from `i` on, before `stop`, where one of the `targets` stands. -/
def seek (l : Listing) (targets : List String) (stop i : Nat) : Nat :=
  if i < stop then
    if targets.contains (l.text i) then i else l.seek targets stop (i + 1)
  else i
termination_by stop - i

theorem le_seek (l : Listing) (targets : List String) (stop i : Nat) :
    i ≤ l.seek targets stop i := by
  fun_induction l.seek targets stop i <;> omega

/-- The first index from `i` on, before `stop`, that holds neither a name nor one of `others`. -/
def passNames (l : Listing) (others : List String) (stop i : Nat) : Nat :=
  if i < stop then
    if l.isName i || others.contains (l.text i) then l.passNames others stop (i + 1) else i
  else i
termination_by stop - i

theorem le_passNames (l : Listing) (others : List String) (stop i : Nat) :
    i ≤ l.passNames others stop i := by
  fun_induction l.passNames others stop i <;> omega

/-- The first index from `i` on, before `stop`, that holds none of `words`. -/
def passWords (l : Listing) (words : List String) (stop i : Nat) : Nat :=
  if i < stop then
    if words.contains (l.text i) then l.passWords words stop (i + 1) else i
  else i
termination_by stop - i

theorem le_passWords (l : Listing) (words : List String) (stop i : Nat) :
    i ≤ l.passWords words stop i := by
  fun_induction l.passWords words stop i <;> omega

/-- By how much a token deepens the nesting of angle brackets. -/
def angleDepth (w : String) : Int :=
  if w = "<" then 1 else if w = ">" then -1 else if w = ">>" then -2 else 0

/-- Index behind the `>` that brings the angle brackets, nested `depth` deep at `i`, to their
end. -/
def templateEndFrom? (l : Listing) (stop i : Nat) (depth : Int) : Option Nat :=
  if i < stop then
    let w := l.text i
    if w = "(" || w = "[" then
      match h : l.closing? i with
      | some close => l.templateEndFrom? stop (close + 1) depth
      | none => none
    else if [";", "\x7b", "\x7d", ")", "]"].contains w then none
    else if depth + angleDepth w ≤ 0 then some (i + 1)
    else l.templateEndFrom? stop (i + 1) (depth + angleDepth w)
  else none
termination_by stop - i
decreasing_by
  · have := lt_of_closing? h; omega
  · omega

theorem lt_templateEndFrom? {l : Listing} {stop i : Nat} {depth : Int} {j : Nat}
    (h : l.templateEndFrom? stop i depth = some j) : i < j := by
  fun_induction l.templateEndFrom? stop i depth with
  | case1 i depth _ w _ close hc ih => have := lt_of_closing? hc; have := ih h; omega
  | case2 => simp at h
  | case3 => simp at h
  | case4 => simp at h; omega
  | case5 i depth _ w _ _ _ ih => have := ih h; omega
  | case6 => simp at h

/-- Index behind the template argument list that opens at `i`, if it is one. -/
def templateEnd? (l : Listing) (stop i : Nat) : Option Nat := l.templateEndFrom? stop i 0

theorem lt_templateEnd? {l : Listing} {stop i j : Nat} (h : l.templateEnd? stop i = some j) :
    i < j := lt_templateEndFrom? h

def passBracket (l : Listing) (i : Nat) : Nat :=
  match l.closing? i with
  | some close => close + 1
  | none => i + 1

theorem lt_passBracket (l : Listing) (i : Nat) : i < l.passBracket i := by
  unfold passBracket
  split
  · next h => have := lt_of_closing? h; omega
  · omega

/-- Where the initializer around `i` ends: at the next `,` or `;` outside brackets, at a bracket
that closes something before it, or at `stop`. -/
def initializerEnd (l : Listing) (stop i : Nat) : Nat :=
  if i < stop then
    let w := l.text i
    if [",", ";", ")", "]", "\x7d"].contains w then i
    else if ["(", "[", "\x7b"].contains w then l.initializerEnd stop (l.passBracket i)
    else l.initializerEnd stop (i + 1)
  else stop
termination_by stop - i
decreasing_by
  · have := l.lt_passBracket i; omega
  · omega

theorem le_initializerEnd {l : Listing} {stop i : Nat}
    (h : l.initializerEnd stop i < stop) : i ≤ l.initializerEnd stop i := by
  fun_induction l.initializerEnd stop i with
  | case1 => omega
  | case2 i _ _ _ _ ih => have := ih h; have := l.lt_passBracket i; omega
  | case3 i _ _ _ _ ih => have := ih h; omega
  | case4 => omega

/-- Index behind the statement around `j`: behind its `;`, its block (with a `;` that follows), or
a `}` that closes something before it; otherwise `stop`, and always behind `i`. -/
def statementEndFrom (l : Listing) (stop i j : Nat) : Nat :=
  if j < stop then
    let w := l.text j
    if w = ";" || w = "\x7d" then j + 1
    else if w = "\x7b" then
      match l.closing? j with
      | some close => if l.text (close + 1) = ";" then close + 2 else close + 1
      | none => j + 1
    else if w = "(" || w = "[" then l.statementEndFrom stop i (l.passBracket j)
    else l.statementEndFrom stop i (j + 1)
  else max stop (i + 1)
termination_by stop - j
decreasing_by
  · have := l.lt_passBracket j; omega
  · omega

def statementEnd (l : Listing) (stop i : Nat) : Nat := l.statementEndFrom stop i i

theorem lt_statementEndFrom (l : Listing) {stop i j : Nat} (h : i ≤ j) :
    i < l.statementEndFrom stop i j := by
  fun_induction l.statementEndFrom stop i j with
  | case1 => omega
  | case2 _ _ _ _ _ _ hc => have := lt_of_closing? hc; omega
  | case3 _ _ _ _ _ _ hc => have := lt_of_closing? hc; omega
  | case4 => omega
  | case5 j _ _ _ _ _ ih => exact ih (by have := l.lt_passBracket j; omega)
  | case6 _ _ _ _ _ _ ih => exact ih (by omega)
  | case7 => omega

theorem lt_statementEnd (l : Listing) (stop i : Nat) : i < l.statementEnd stop i :=
  l.lt_statementEndFrom (Nat.le_refl i)

end StackEscape.Listing
