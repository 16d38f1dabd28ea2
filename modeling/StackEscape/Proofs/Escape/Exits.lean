import StackEscape.Proofs.Escape.Places

/-!
# Returns and deallocations

What the assignment pass makes of a statement that returns the address of a local, and of one that
deallocates a local array. No rule that applies in front jumps over the word such a statement begins
with: a jump ends with an operand, never where a statement begins. So the scan arrives at the word,
and the rule that is meant is the first one that applies to it.
-/

namespace StackEscape

variable {p : Program} {t : Nat}

namespace Program

def statementFronts : List String := [";", "\x7b", "\x7d", ")", ":", "else", "do"]

def BeginsStatement (p : Program) (t : Nat) : Prop :=
  p.listing.textBefore t ∈ statementFronts

instance (p : Program) (t : Nat) : Decidable (p.BeginsStatement t) :=
  inferInstanceAs (Decidable (_ ∈ _))

/-- What stands at `t` returns the address of a local: `return & v ;` or `return & a [ ... ] ;`. -/
inductive ReturnsAddress (p : Program) (t : Nat) : Prop
  | object (returns : p.listing.text t = "return") (takes : p.listing.text (t + 1) = "&")
      (value : p.automaticAt (t + 2) = true) (ends : p.listing.text (t + 3) = ";")
  | element {close : Nat} (returns : p.listing.text t = "return")
      (takes : p.listing.text (t + 1) = "&") (value : p.automaticArrayAt (t + 2) = true)
      (opens : p.listing.text (t + 3) = "[") (closes : p.listing.closing? (t + 3) = some close)
      (ends : p.listing.text (close + 1) = ";")

/-- What stands at `t` deallocates the local array that is named by the token `name`:
`free ( a ) ;`, or `delete a` or `delete [ ] a`, where `( a` may stand for `a`. -/
inductive Deallocates (p : Program) (t : Nat) : (name : Nat) → Prop
  | free (frees : p.listing.text t = "free") (opens : p.listing.text (t + 1) = "(")
      (value : p.automaticArrayAt (t + 2) = true) (closes : p.listing.text (t + 3) = ")")
      (ends : p.listing.text (t + 4) = ";") : Deallocates p t (t + 2)
  | delete {operand name : Nat} (deletes : p.listing.text t = "delete")
      (brackets : operand = t + 1 ∨
        p.listing.text (t + 1) = "[" ∧ p.listing.text (t + 2) = "]" ∧ operand = t + 3)
      (parenthesis : name = operand ∨ p.listing.text operand = "(" ∧ name = operand + 1)
      (value : p.automaticArrayAt name = true) (whole : p.listing.text (name + 1) ≠ "[") :
      Deallocates p t name

end Program

namespace Assignment

variable {b : Bool} {i j k : Nat}

/-! ## What is not jumped over -/

/-- A word that begins a statement, and no assignment: it is followed neither by `=` nor by a
member access, and it is no element that is assigned to. -/
structure Opens (p : Program) (t : Nat) : Prop where
  begins : p.BeginsStatement t
  word : Lexeme.isWord (p.listing.text t) = true
  assigns : p.listing.text (t + 1) ≠ "="
  member : p.listing.text (t + 1) ≠ "."
  element : p.listing.text (t + 1) = "[" → p.pointerArgumentAt t = false

namespace Opens

theorem ne_of_text (ho : Opens p t) {w : String} (hk : p.listing.text k = w)
    (hw : Lexeme.isWord w = false) : t ≠ k := by
  rintro rfl
  have hword := ho.word
  rw [hk, hw] at hword
  cases hword

/-- Behind an operator stands an operand. -/
theorem ne_behind (ho : Opens p t) {w : String} (hk : p.listing.text k = w)
    (hw : w ∉ Program.statementFronts) : t ≠ k + 1 := by
  rintro rfl
  have hbegins := ho.begins
  rw [Program.BeginsStatement, Listing.textBefore, hk] at hbegins
  exact hw hbegins

theorem ne_assigned (ho : Opens p t) (hk : p.listing.text (k + 1) = "=") : t ≠ k := by
  rintro rfl
  exact ho.assigns hk

theorem ne_object (ho : Opens p t) (hk : p.listing.text (k + 1) = ".") : t ≠ k := by
  rintro rfl
  exact ho.member hk

/-- A statement that returns an address begins so. -/
theorem of_return (returns : p.listing.text t = "return") (takes : p.listing.text (t + 1) = "&")
    (hb : p.BeginsStatement t) : Opens p t := by
  refine ⟨hb, ?_, ?_, ?_, fun helement => ?_⟩
  · rw [returns]
    decide
  · rw [takes]
    decide
  · rw [takes]
    decide
  · rw [takes] at helement
    exact absurd helement (by decide)

end Opens

variable {h : Hit}

/-! One lemma for each rule that jumps. -/

theorem lt_of_toReference (ho : Opens p t) (hh : toReference p b i = some h)
    (hit : i < t) : i + h.advance < t := by
  unfold toReference at hh
  split at hh
  · next hc =>
    obtain rfl := Option.some.inj hh
    simp only [Bool.and_eq_true, reference_matches] at hc
    obtain ⟨⟨⟨_, _, heq, hand, _⟩, _⟩, _⟩ := hc
    have htarget := ho.ne_assigned heq
    have hassign := ho.ne_of_text heq (by decide)
    have htake := ho.ne_of_text hand (by decide)
    have hvalue := ho.ne_behind hand (by decide)
    dsimp only
    omega
  · cases hh

theorem lt_of_throughPointer (ho : Opens p t)
    (hh : throughPointer p b i = some h) (hit : i < t) : i + h.advance < t := by
  unfold throughPointer at hh
  split at hh
  · next hc =>
    obtain rfl := Option.some.inj hh
    simp only [Bool.and_eq_true, pointer_matches] at hc
    obtain ⟨⟨⟨_, hstar, _, heq, hand, _⟩, _⟩, _⟩ := hc
    have hpointer := ho.ne_of_text hstar (by decide)
    have htarget := ho.ne_assigned heq
    have hassign := ho.ne_of_text heq (by decide)
    have htake := ho.ne_of_text hand (by decide)
    have hvalue := ho.ne_behind hand (by decide)
    dsimp only
    omega
  · cases hh

theorem lt_of_toMember (ho : Opens p t) (hh : toMember p b i = some h)
    (hit : i < t) : i + h.advance < t := by
  unfold toMember at hh
  split at hh
  · next hc =>
    obtain rfl := Option.some.inj hh
    obtain ⟨_, _, hdot, _, heq, hand, _⟩ := memberAddress_matches.mp hc
    have hobject := ho.ne_object hdot
    have hpoint := ho.ne_of_text hdot (by decide)
    have htarget := ho.ne_assigned heq
    have hassign := ho.ne_of_text heq (by decide)
    have htake := ho.ne_of_text hand (by decide)
    have hvalue := ho.ne_behind hand (by decide)
    dsimp only
    omega
  · cases hh

theorem lt_of_arrayToMember (ho : Opens p t)
    (hh : arrayToMember p b i = some h) (hit : i < t) : i + h.advance < t := by
  unfold arrayToMember at hh
  split at hh
  · next hc =>
    obtain rfl := Option.some.inj hh
    obtain ⟨_, _, hdot, _, heq, _, _⟩ := memberName_matches.mp hc
    have hobject := ho.ne_object hdot
    have hpoint := ho.ne_of_text hdot (by decide)
    have htarget := ho.ne_assigned heq
    have hassign := ho.ne_of_text heq (by decide)
    have hvalue := ho.ne_behind heq (by decide)
    dsimp only
    omega
  · cases hh

theorem lt_of_arrayThroughPointer (ho : Opens p t)
    (hh : arrayThroughPointer p b i = some h) (hit : i < t) : i + h.advance < t := by
  unfold arrayThroughPointer at hh
  split at hh
  · next hc =>
    obtain rfl := Option.some.inj hh
    obtain ⟨_, hstar, _, heq, _, _⟩ := pointedName_matches.mp hc
    have hpointer := ho.ne_of_text hstar (by decide)
    have htarget := ho.ne_assigned heq
    have hassign := ho.ne_of_text heq (by decide)
    have hvalue := ho.ne_behind heq (by decide)
    dsimp only
    omega
  · cases hh

theorem lt_of_toElement (ho : Opens p t) (hsquare : ¬ p.InSquare t)
    (hh : toElement p b i = some h) (hit : i < t) : i + h.advance < t := by
  unfold toElement at hh
  split at hh
  · next hc =>
    obtain ⟨_, _, hopen⟩ := indexed_matches.mp hc
    cases hclose : p.listing.closing? (i + 2) with
    | none => rw [hclose] at hh; cases hh
    | some close =>
      rw [hclose] at hh
      dsimp only at hh
      split at hh
      · next hc' =>
        obtain rfl := Option.some.inj hh
        simp only [Bool.and_eq_true, indexedTail_matches] at hc'
        obtain ⟨⟨⟨hbracket, heq, hand, _⟩, harg⟩, _⟩ := hc'
        have htarget : t ≠ i + 1 := by
          rintro rfl
          rw [ho.element hopen] at harg
          cases harg
        have hopener := ho.ne_of_text hopen (by decide)
        -- the index may hold whole statements, but it stands in square brackets
        have hindex : ¬ (i + 2 < t ∧ t < close) := fun ⟨hlt, hgt⟩ =>
          hsquare ⟨i + 2, hlt, hopen, close, hclose, hgt⟩
        have hcloser := ho.ne_of_text hbracket (by decide)
        have hassign := ho.ne_of_text heq (by decide)
        have htake := ho.ne_of_text hand (by decide)
        have hvalue := ho.ne_behind hand (by decide)
        dsimp only
        omega
      · cases hh
  · cases hh

theorem lt_of_returnOfLocal (hh : returnOfLocal p b i = some h) (hit : i < t) :
    i + h.advance < t := by
  unfold returnOfLocal at hh
  split at hh
  · obtain rfl := Option.some.inj hh
    exact hit
  · cases hh

theorem lt_of_returnOfArgument (hh : returnOfArgument p b i = some h) (hit : i < t) :
    i + h.advance < t := by
  unfold returnOfArgument at hh
  split at hh
  · obtain rfl := Option.some.inj hh
    exact hit
  · cases hh

theorem lt_of_deallocation (hp : p.WellFormed) (ho : Opens p t) (hh : deallocation p b i = some h)
    (hit : i < t) : i + h.advance < t := by
  unfold deallocation at hh
  split at hh
  · next hc =>
    obtain ⟨name, hop⟩ := exists_operand hc
    rw [hop.nextName? hp] at hh
    obtain rfl := Option.some.inj hh
    have hlt := hop.lt
    have hbetween : ¬ (i < t ∧ t < name) := by
      rintro ⟨hit, htn⟩
      rcases hop.between t hit htn with ht | ht | ht
      all_goals exact ho.ne_of_text ht (by decide) rfl
    have hoperand : t ≠ name - 1 + 1 := by
      rcases Nat.eq_or_lt_of_le (Nat.le_sub_one_of_lt hlt) with he | hlt'
      · rw [← he]
        rcases Bool.or_eq_true_iff.mp hc with hc | hc
        · exact ho.ne_behind (free_matches.mp hc).1 (by decide)
        · exact ho.ne_behind (delete_matches.mp hc).1 (by decide)
      · rcases hop.between (name - 1) hlt' (by omega) with ht | ht | ht
        all_goals exact ho.ne_behind ht (by decide)
    dsimp only
    omega
  · cases hh

/-- **No statement is jumped over** that begins with such a word outside of square brackets. -/
theorem lt_of_hit? (hp : p.WellFormed) (ho : Opens p t) (hsquare : ¬ p.InSquare t)
    (hh : hit? p b i = some h) (hit : i < t) : i + h.advance < t := by
  obtain ⟨m, hm, hh⟩ := List.exists_of_findSome?_eq_some hh
  simp only [matchers, List.mem_cons, List.not_mem_nil, or_false] at hm
  rcases hm with rfl | rfl | rfl | rfl | rfl | rfl | rfl | rfl | rfl
  · exact lt_of_toReference ho hh hit
  · exact lt_of_throughPointer ho hh hit
  · exact lt_of_toMember ho hh hit
  · exact lt_of_arrayToMember ho hh hit
  · exact lt_of_arrayThroughPointer ho hh hit
  · exact lt_of_toElement ho hsquare hh hit
  · exact lt_of_returnOfLocal hh hit
  · exact lt_of_returnOfArgument hh hit
  · exact lt_of_deallocation hp ho hh hit

/-! ## The operand of a deallocation -/

theorem operand_of_free (hp : p.WellFormed) (opens : p.listing.text (t + 1) = "(")
    (value : p.automaticArrayAt (t + 2) = true) : Operand p t (t + 2) := by
  refine ⟨by omega, hp.isName_of_holds value, fun k htk hk => ?_⟩
  obtain rfl : k = t + 1 := by omega
  exact .inr (.inr opens)

/-- Behind `delete`, or `delete [ ]`, and perhaps a parenthesis stands what is deallocated. -/
theorem deleteOperand_eq {l : Listing} (hl : l.WellFormed) {operand name : Nat}
    (brackets : operand = t + 1 ∨ l.text (t + 1) = "[" ∧ l.text (t + 2) = "]" ∧ operand = t + 3)
    (parenthesis : name = operand ∨ l.text operand = "(" ∧ name = operand + 1)
    (hname : l.isName name = true) : deleteOperand l t = name := by
  have hne : ∀ {w : String}, Lexeme.isWord w = false → l.text name ≠ w :=
    fun hw => hl.text_ne_of_isName hname hw
  have hoperand : l.text operand ≠ "[" ∧ l.text operand ≠ "]" := by
    rcases parenthesis with rfl | ⟨hopen, -⟩
    · exact ⟨hne (by decide), hne (by decide)⟩
    · rw [hopen]
      decide
  have hbrackets : l.passIf "]" (l.passIf "[" (t + 1)) = operand := by
    rcases brackets with rfl | ⟨hopen, hclose, rfl⟩
    · simp [Listing.passIf, hoperand]
    · simp [Listing.passIf, hopen, hclose]
  rw [deleteOperand, hbrackets]
  rcases parenthesis with rfl | ⟨hopen, rfl⟩
  · exact if_neg (hne (by decide))
  · exact if_pos hopen

theorem operand_of_delete {name : Nat} (hname : p.listing.isName name = true)
    (ho : deleteOperand p.listing t = name) : Operand p t name := by
  subst ho
  exact ⟨lt_deleteOperand _ _, hname, fun k htk hk => text_before_deleteOperand _ htk hk⟩

end Assignment

namespace Program

open Assignment

namespace ReturnsAddress

theorem text_eq (h : p.ReturnsAddress t) : p.listing.text t = "return" := by cases h <;> assumption

theorem text_behind (h : p.ReturnsAddress t) : p.listing.text (t + 1) = "&" := by
  cases h <;> assumption

theorem opens (h : p.ReturnsAddress t) (hb : p.BeginsStatement t) : Opens p t :=
  .of_return h.text_eq h.text_behind hb

end ReturnsAddress

namespace Deallocates

variable {name : Nat}

theorem value_automatic (h : p.Deallocates t name) : p.automaticArrayAt name = true := by
  cases h <;> assumption

theorem text_eq (h : p.Deallocates t name) :
    p.listing.text t = "free" ∧ p.listing.text (t + 1) = "(" ∨ p.listing.text t = "delete" := by
  cases h with
  | free frees opens => exact .inl ⟨frees, opens⟩
  | delete deletes => exact .inr deletes

theorem operand (hp : p.WellFormed) (h : p.Deallocates t name) : Operand p t name := by
  cases h with
  | free _ opens value => exact operand_of_free hp opens value
  | delete _ brackets parenthesis value =>
    have hname := hp.isName_of_holds value
    exact operand_of_delete hname (deleteOperand_eq hp.listing brackets parenthesis hname)

theorem applies (hp : p.WellFormed) (h : p.Deallocates t name) :
    (freePattern.matchesAt p t || deletePattern.matchesAt p t) = true := by
  have hname := hp.isName_of_holds h.value_automatic
  rw [Bool.or_eq_true_iff]
  cases h with
  | free frees opens _ closes ends =>
    exact .inl (free_matches.mpr ⟨frees, opens, hname, closes, ends⟩)
  | delete deletes brackets parenthesis _ whole =>
    rw [delete_matches, deleteOperand_eq hp.listing brackets parenthesis hname]
    exact .inr ⟨deletes, hname, whole⟩

theorem opens (hp : p.WellFormed) (h : p.Deallocates t name) (hb : p.BeginsStatement t) :
    Opens p t := by
  have hoperand := h.operand hp
  have hbehind : ∀ {w : String}, Lexeme.isWord w = false → w ∉ ["[", "]", "("] →
      p.listing.text (t + 1) ≠ w := by
    intro w hword hw
    rcases Nat.eq_or_lt_of_le hoperand.lt with he | hlt
    · rw [← he] at hoperand
      exact hp.listing.text_ne_of_isName hoperand.isName hword
    · intro ht
      -- a bracket or a parenthesis stands between `delete` and its operand
      rcases hoperand.between (t + 1) (by omega) hlt with hb | hb | hb <;> rw [← ht, hb] at hw
      all_goals exact hw (by decide)
  refine ⟨hb, ?_, hbehind (by decide) (by decide), hbehind (by decide) (by decide), ?_⟩
  · rcases h.text_eq with ⟨hw, -⟩ | hw <;> rw [hw] <;> decide
  · intro helement
    rcases h.text_eq with ⟨-, hopen⟩ | hdelete
    · rw [hopen] at helement
      exact absurd helement (by decide)
    · exact Bool.eq_false_iff.mpr fun hbound => hp.text_ne_of_bound hbound (by decide) hdelete

end Deallocates

end Program

namespace Assignment

/-! ## The rules that are meant -/

/-- The rules about assigned parameters apply at the end of a statement only. -/
theorem unmatched_of_not_boundary (b : Bool) (ht : ¬ IsBoundary (p.listing.text t)) :
    toReference p b t = none ∧ throughPointer p b t = none ∧ toMember p b t = none ∧
      arrayToMember p b t = none ∧ arrayThroughPointer p b t = none ∧ toElement p b t = none := by
  refine ⟨if_neg ?_, if_neg ?_, if_neg ?_, if_neg ?_, if_neg ?_, if_neg ?_⟩ <;> intro h
  · simp only [Bool.and_eq_true, reference_matches] at h
    exact ht h.1.1.1
  · simp only [Bool.and_eq_true, pointer_matches] at h
    exact ht h.1.1.1
  · exact ht (memberAddress_matches.mp h).1
  · exact ht (memberName_matches.mp h).1
  · exact ht (pointedName_matches.mp h).1
  · exact ht (indexed_matches.mp h).1

theorem returnOfLocal_of_returnsAddress (hp : p.WellFormed) (hr : p.ReturnsAddress t) (b : Bool) :
    returnOfLocal p b t =
      some ⟨0, some (.definite t .returnAddressOfAutoVariable Message.returnAddress)⟩ := by
  refine if_pos (Bool.or_eq_true_iff.mpr ?_)
  cases hr with
  | object returns takes value ends =>
    refine .inl (Bool.and_eq_true_iff.mpr ⟨returnAddress_matches.mpr ?_, value⟩)
    exact ⟨returns, takes, hp.isName_of_holds value, ends⟩
  | @element close returns takes value opens closes ends =>
    have hbracket : p.listing.text close = "]" := by
      have h := hp.listing.text_of_closing? closes
      rw [opens] at h
      exact (Option.some.inj h).symm
    refine .inr (Bool.and_eq_true_iff.mpr ⟨Bool.and_eq_true_iff.mpr ⟨?_, ?_⟩, value⟩)
    · exact returnElement_matches.mpr ⟨returns, takes, hp.isName_of_holds value, opens⟩
    · rw [closes]
      exact bracketEnd_matches.mpr ⟨hbracket, ends⟩

/-- A returned address is found by the rule that is meant for it. -/
theorem hit?_of_returnsAddress (hp : p.WellFormed) (hr : p.ReturnsAddress t) (b : Bool) :
    hit? p b t =
      some ⟨0, some (.definite t .returnAddressOfAutoVariable Message.returnAddress)⟩ := by
  obtain ⟨h₁, h₂, h₃, h₄, h₅, h₆⟩ :=
    unmatched_of_not_boundary b (show ¬ IsBoundary (p.listing.text t) by rw [hr.text_eq]; decide)
  have h₇ := returnOfLocal_of_returnsAddress hp hr b
  simp only [hit?, matchers, List.findSome?_cons, h₁, h₂, h₃, h₄, h₅, h₆, h₇]

/-- The rules about returned addresses apply at a `return` only. -/
theorem unmatched_of_not_return (b : Bool) (ht : p.listing.text t ≠ "return") :
    returnOfLocal p b t = none ∧ returnOfArgument p b t = none := by
  refine ⟨if_neg fun h => ht ?_, if_neg fun h => ht ?_⟩
  · rcases Bool.or_eq_true_iff.mp h with h | h
    · exact (returnAddress_matches.mp (Bool.and_eq_true_iff.mp h).1).1
    · exact (text_of_returnsElementAddress (Bool.and_eq_true_iff.mp h).1).1
  · exact (returnAddress_matches.mp (Bool.and_eq_true_iff.mp h).1).1

/-- A deallocation is found by the rule that is meant for it. -/
theorem hit?_of_deallocates (hp : p.WellFormed) {name : Nat} (hd : p.Deallocates t name)
    (b : Bool) : hit? p b t = some ⟨name - t,
      some (.definite name .autovarInvalidDeallocation Message.deallocation)⟩ := by
  have hword : ¬ IsBoundary (p.listing.text t) ∧ p.listing.text t ≠ "return" := by
    rcases hd.text_eq with ⟨hw, -⟩ | hw <;> rw [hw] <;> decide
  obtain ⟨h₁, h₂, h₃, h₄, h₅, h₆⟩ := unmatched_of_not_boundary b hword.1
  obtain ⟨h₇, h₈⟩ := unmatched_of_not_return b hword.2
  have h₉ : deallocation p b t = some ⟨name - t,
      some (.definite name .autovarInvalidDeallocation Message.deallocation)⟩ := by
    unfold deallocation
    rw [if_pos (hd.applies hp), (hd.operand hp).nextName? hp, Option.map_some, hd.value_automatic]
    rfl
  simp only [hit?, matchers, List.findSome?_cons, h₁, h₂, h₃, h₄, h₅, h₆, h₇, h₈, h₉]

end Assignment

end StackEscape
