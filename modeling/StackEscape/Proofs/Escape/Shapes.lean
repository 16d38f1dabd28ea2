import StackEscape.Escape.Assignment
import StackEscape.Escape.Return
import StackEscape.Proofs.Pattern.Reading

/-!
# What the patterns of the passes stand for

One lemma for each pattern that the passes over function bodies try, in terms of the tokens behind
the place where it is tried.
-/

namespace StackEscape

open Pattern

namespace Assignment

variable {p : Program} {i : Nat}

theorem reference_matches : referencePattern.matchesAt p i = true ↔
    IsBoundary (p.listing.text i) ∧ p.listing.isName (i + 1) = true ∧
      p.listing.text (i + 2) = "=" ∧ p.listing.text (i + 3) = "&" ∧
      p.listing.isName (i + 4) = true := by
  rw [matchesAt_iff]
  change Lies p i [.boundary, .anyName, .word "=", .word "&", .anyName] ↔ _
  simp [lies_nil, lies_boundary, lies_anyName, lies_word]

theorem pointer_matches : pointerPattern.matchesAt p i = true ↔
    IsBoundary (p.listing.text i) ∧ p.listing.text (i + 1) = "*" ∧
      p.listing.isName (i + 2) = true ∧ p.listing.text (i + 3) = "=" ∧
      p.listing.text (i + 4) = "&" ∧ p.listing.isName (i + 5) = true := by
  rw [matchesAt_iff]
  change Lies p i [.boundary, .word "*", .anyName, .word "=", .word "&", .anyName] ↔ _
  simp [lies_nil, lies_boundary, lies_anyName, lies_word]

theorem memberAddress_matches : memberAddressPattern.matchesAt p i = true ↔
    IsBoundary (p.listing.text i) ∧ p.listing.isName (i + 1) = true ∧
      p.listing.text (i + 2) = "." ∧ p.listing.isName (i + 3) = true ∧
      p.listing.text (i + 4) = "=" ∧ p.listing.text (i + 5) = "&" ∧
      p.listing.isName (i + 6) = true := by
  rw [matchesAt_iff]
  change Lies p i [.boundary, .anyName, .word ".", .anyName, .word "=", .word "&", .anyName] ↔ _
  simp [lies_nil, lies_boundary, lies_anyName, lies_word]

theorem memberName_matches : memberNamePattern.matchesAt p i = true ↔
    IsBoundary (p.listing.text i) ∧ p.listing.isName (i + 1) = true ∧
      p.listing.text (i + 2) = "." ∧ p.listing.isName (i + 3) = true ∧
      p.listing.text (i + 4) = "=" ∧ p.listing.isName (i + 5) = true ∧
      p.listing.text (i + 6) = ";" := by
  rw [matchesAt_iff]
  change Lies p i [.boundary, .anyName, .word ".", .anyName, .word "=", .anyName, .word ";"] ↔ _
  simp [lies_nil, lies_boundary, lies_anyName, lies_word]

theorem pointedName_matches : pointedNamePattern.matchesAt p i = true ↔
    IsBoundary (p.listing.text i) ∧ p.listing.text (i + 1) = "*" ∧
      p.listing.isName (i + 2) = true ∧ p.listing.text (i + 3) = "=" ∧
      p.listing.isName (i + 4) = true ∧ p.listing.text (i + 5) = ";" := by
  rw [matchesAt_iff]
  change Lies p i [.boundary, .word "*", .anyName, .word "=", .anyName, .word ";"] ↔ _
  simp [lies_nil, lies_boundary, lies_anyName, lies_word]

theorem indexed_matches : indexedPattern.matchesAt p i = true ↔
    IsBoundary (p.listing.text i) ∧ p.listing.isName (i + 1) = true ∧
      p.listing.text (i + 2) = "[" := by
  rw [matchesAt_iff]
  change Lies p i [.boundary, .anyName, .word "["] ↔ _
  simp [lies_nil, lies_boundary, lies_anyName, lies_word]

theorem indexedTail_matches : indexedTailPattern.matchesAt p i = true ↔
    p.listing.text i = "]" ∧ p.listing.text (i + 1) = "=" ∧ p.listing.text (i + 2) = "&" ∧
      p.listing.isName (i + 3) = true := by
  rw [matchesAt_iff]
  change Lies p i [.word "]", .word "=", .word "&", .anyName] ↔ _
  simp [lies_nil, lies_anyName, lies_word]

theorem returnAddress_matches : returnAddressPattern.matchesAt p i = true ↔
    p.listing.text i = "return" ∧ p.listing.text (i + 1) = "&" ∧
      p.listing.isName (i + 2) = true ∧ p.listing.text (i + 3) = ";" := by
  rw [matchesAt_iff]
  change Lies p i [.word "return", .word "&", .anyName, .word ";"] ↔ _
  simp [lies_nil, lies_anyName, lies_word]

theorem returnElement_matches : returnElementPattern.matchesAt p i = true ↔
    p.listing.text i = "return" ∧ p.listing.text (i + 1) = "&" ∧
      p.listing.isName (i + 2) = true ∧ p.listing.text (i + 3) = "[" := by
  rw [matchesAt_iff]
  change Lies p i [.word "return", .word "&", .anyName, .word "["] ↔ _
  simp [lies_nil, lies_anyName, lies_word]

theorem bracketEnd_matches : bracketEndPattern.matchesAt p i = true ↔
    p.listing.text i = "]" ∧ p.listing.text (i + 1) = ";" := by
  rw [matchesAt_iff]
  change Lies p i [.word "]", .word ";"] ↔ _
  simp [lies_nil, lies_word]

theorem free_matches : freePattern.matchesAt p i = true ↔
    p.listing.text i = "free" ∧ p.listing.text (i + 1) = "(" ∧
      p.listing.isName (i + 2) = true ∧ p.listing.text (i + 3) = ")" ∧
      p.listing.text (i + 4) = ";" := by
  rw [matchesAt_iff]
  change Lies p i [.word "free", .word "(", .anyName, .word ")", .word ";"] ↔ _
  simp [lies_nil, lies_anyName, lies_word]

/-- Where the operand of the `delete` at `i` is looked for: behind brackets and a parenthesis. -/
def deleteOperand (l : Listing) (i : Nat) : Nat :=
  l.passIf "(" (l.passIf "]" (l.passIf "[" (i + 1)))

theorem delete_matches : deletePattern.matchesAt p i = true ↔
    p.listing.text i = "delete" ∧ p.listing.isName (deleteOperand p.listing i) = true ∧
      p.listing.text (deleteOperand p.listing i + 1) ≠ "[" := by
  rw [matchesAt_iff]
  change Lies p i [.word "delete", .choice [.text "["] true, .choice [.text "]"] true, .choice
    [.text "("] true, .anyName, .otherThan "["] ↔ _
  simp [lies_anyName, lies_word, lies_optional, lies_otherThan_last, deleteOperand]

end Assignment

namespace Return

variable {p : Program} {i : Nat}

theorem name_matches : namePattern.matchesAt p i = true ↔
    p.listing.text i = "return" ∧ p.listing.isName (i + 1) = true ∧
      p.listing.text (i + 2) = ";" := by
  rw [matchesAt_iff]
  change Lies p i [.word "return", .anyName, .word ";"] ↔ _
  simp [lies_nil, lies_anyName, lies_word]

theorem call_matches : callPattern.matchesAt p i = true ↔
    p.listing.text i = "return" ∧ p.listing.isName (i + 1) = true ∧
      p.listing.text (i + 2) = "(" := by
  rw [matchesAt_iff]
  change Lies p i [.word "return", .anyName, .word "("] ↔ _
  simp [lies_nil, lies_anyName, lies_word]

/-- What may stand behind the argument of a constructor for the argument to be simple. -/
def argumentEnds : List String := [")", ";", "(", "."]

theorem initializer_matches : initializerPattern.matchesAt p i = true ↔
    p.listing.isName i = true ∧ p.listing.text (i + 1) ∈ argumentEnds := by
  rw [matchesAt_iff]
  change Lies p i [.anyName, .choice [.oneOf [')', ';', '.', '(']] false] ↔ _
  simp only [lies_anyName, lies_choice, lies_nil, Atom.standsAt_oneOf, and_true, argumentEnds,
    List.mem_cons, List.not_mem_nil, or_false, exists_eq_or_imp, exists_eq_left]
  refine and_congr_right fun _ => or_congr_right (or_congr_right ?_)
  exact or_comm

end Return

end StackEscape
