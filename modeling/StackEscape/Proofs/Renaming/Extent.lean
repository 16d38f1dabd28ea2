import StackEscape.Outline.Heading
import StackEscape.Outline.Body
import StackEscape.Proofs.Renaming.Listing

/-!
# Extents under renaming

What searches a listing for words of the language ends at the same place in a renamed one.
-/

namespace StackEscape

namespace Listing.Renamed

variable {ρ : String → String} {l l' : Listing}

theorem seek_eq (h : l.Renamed ρ l') {targets : List String}
    (hws : targets.all Word.isFixed = true) (stop i : Nat) :
    l'.seek targets stop i = l.seek targets stop i := by
  fun_induction l.seek targets stop i
  all_goals
    rw [seek, h.contains_text hws]
    grind

theorem passNames_eq (h : l.Renamed ρ l') {others : List String}
    (hws : others.all Word.isFixed = true) (stop i : Nat) :
    l'.passNames others stop i = l.passNames others stop i := by
  fun_induction l.passNames others stop i
  all_goals
    rw [passNames, h.isName_eq, h.contains_text hws]
    grind

theorem passWords_eq (h : l.Renamed ρ l') {words : List String}
    (hws : words.all Word.isFixed = true) (stop i : Nat) :
    l'.passWords words stop i = l.passWords words stop i := by
  fun_induction l.passWords words stop i
  all_goals
    rw [passWords, h.contains_text hws]
    grind

theorem angleDepth_eq (h : l.Renamed ρ l') (i : Nat) :
    angleDepth (l'.text i) = angleDepth (l.text i) := by
  unfold angleDepth
  simp (disch := decide) only [h.text_eq]

theorem templateEndFrom?_eq (h : l.Renamed ρ l') (stop i : Nat) (depth : Int) :
    l'.templateEndFrom? stop i depth = l.templateEndFrom? stop i depth := by
  fun_induction l.templateEndFrom? stop i depth
  all_goals
    rw [templateEndFrom?, h.closing?_eq]
    simp (disch := decide) only [h.text_eq, h.contains_text, h.angleDepth_eq]
    grind

theorem templateEnd?_eq (h : l.Renamed ρ l') (stop i : Nat) :
    l'.templateEnd? stop i = l.templateEnd? stop i := h.templateEndFrom?_eq stop i 0

theorem passBracket_eq (h : l.Renamed ρ l') (i : Nat) : l'.passBracket i = l.passBracket i := by
  unfold passBracket
  rw [h.closing?_eq]

theorem initializerEnd_eq (h : l.Renamed ρ l') (stop i : Nat) :
    l'.initializerEnd stop i = l.initializerEnd stop i := by
  fun_induction l.initializerEnd stop i
  all_goals
    rw [initializerEnd]
    simp (disch := decide) only [h.contains_text, h.passBracket_eq]
    grind

theorem statementEndFrom_eq (h : l.Renamed ρ l') (stop i j : Nat) :
    l'.statementEndFrom stop i j = l.statementEndFrom stop i j := by
  fun_induction l.statementEndFrom stop i j
  all_goals
    rw [statementEndFrom]
    simp (disch := decide) only [h.text_eq, h.passBracket_eq, h.closing?_eq]
    grind

theorem statementEnd_eq (h : l.Renamed ρ l') (stop i : Nat) :
    l'.statementEnd stop i = l.statementEnd stop i := h.statementEndFrom_eq stop i i

/-! ## Words -/

theorem isStatementWord_eq (h : l.Renamed ρ l') (i : Nat) :
    Word.isStatementWord (l'.text i) = Word.isStatementWord (l.text i) :=
  h.contains_text (by decide) i

theorem isSpecifier_eq (h : l.Renamed ρ l') (i : Nat) :
    Word.isSpecifier (l'.text i) = Word.isSpecifier (l.text i) := h.contains_text (by decide) i

theorem isReservedInNames_eq (h : l.Renamed ρ l') (i : Nat) :
    Word.isReservedInNames (l'.text i) = Word.isReservedInNames (l.text i) := by
  unfold Word.isReservedInNames
  rw [h.isSpecifier_eq]
  congr 1
  exact h.contains_text (by decide) i

/-- The text before a token is a fixed word where it was. -/
theorem textBefore_eq (h : l.Renamed ρ l') {w : String} (hw : Word.isFixed w = true) (i : Nat) :
    (l'.textBefore i = w) = (l.textBefore i = w) := by
  cases i with
  | zero => rfl
  | succ i => exact h.text_eq hw i

end Listing.Renamed

/-! ## Declarators -/

namespace Declarator

variable {ρ : String → String} {l l' : Listing}

theorem end?_eq (h : l.Renamed ρ l') (stop k : Nat) : end? l' stop k = end? l stop k := by
  fun_induction end? l stop k
  all_goals
    rw [end?]
    simp (disch := decide) only [h.text_eq, h.contains_text, h.isName_eq, h.isStatementWord_eq]
    grind [h.templateEnd?_eq]

theorem typeTokens?_eq (h : l.Renamed ρ l') (name i : Nat) :
    typeTokens? l' name i = typeTokens? l name i := by
  fun_induction typeTokens? l name i
  all_goals
    rw [typeTokens?]
    simp (disch := decide) only [h.text_eq]
    grind [h.templateEnd?_eq]

theorem namesType_eq (h : l.Renamed ρ l') (i : Nat) : namesType l' i = namesType l i := by
  unfold namesType
  rw [h.isName_eq, h.isSpecifier_eq]

end Declarator

end StackEscape
