import StackEscape.Proofs.Listing.Blocks
import StackEscape.Proofs.Outline.Names

/-!
# Declarations and blocks

A declaration is read without entering a block or leaving one: whatever stands between its first
token and a name that it declares is balanced. So all names of a declaration stand in the block in
which it begins.
-/

namespace StackEscape

namespace Listing

variable {l : Listing}

theorem balanced_templateEndFrom? (hl : l.WellFormed) {stop i j : Nat} {depth : Int}
    (h : l.templateEndFrom? stop i depth = some j) : l.Balanced i j := by
  fun_induction l.templateEndFrom? stop i depth with
  | case1 i depth _ w _ close hc ih =>
    have := lt_of_closing? hc
    exact (Balanced.pair hl hc).append (ih h) (by omega)
      (Nat.le_of_lt (lt_templateEndFrom? h))
  | case2 => cases h
  | case3 => cases h
  | case4 i depth _ w _ hword _ =>
    obtain rfl := Option.some.inj h
    refine .token hl ?_ ?_ <;> intro ht <;> exact hword (by simp [w, ht])
  | case5 i depth _ w _ hword _ ih =>
    refine (Balanced.token hl ?_ ?_).append (ih h) (Nat.le_succ i)
      (Nat.le_of_lt (lt_templateEndFrom? h)) <;> intro ht <;> exact hword (by simp [w, ht])
  | case6 => cases h

theorem balanced_templateEnd? (hl : l.WellFormed) {stop i j : Nat}
    (h : l.templateEnd? stop i = some j) : l.Balanced i j := balanced_templateEndFrom? hl h

theorem balanced_passBracket (hl : l.WellFormed) {i : Nat} (hi : l.text i ≠ "\x7d") :
    l.Balanced i (l.passBracket i) := by
  unfold passBracket
  split
  · next hc => exact .pair hl hc
  · next hnone =>
    intro o c ho hc
    constructor
    · intro h
      obtain rfl : i = o := by omega
      rw [hnone] at hc
      cases hc
    · intro h
      obtain rfl : i = c := by omega
      exact absurd (hl.text_close_brace hc ho) hi

theorem balanced_initializerEnd (hl : l.WellFormed) {stop i : Nat}
    (h : l.initializerEnd stop i < stop) : l.Balanced i (l.initializerEnd stop i) := by
  fun_induction l.initializerEnd stop i with
  | case1 i => exact .nil l i
  | case2 i _ w hend hopen ih =>
    have hlt := l.lt_passBracket i
    refine (balanced_passBracket hl fun ht => hend (by simp [w, ht])).append (ih h)
      (Nat.le_of_lt hlt) (le_initializerEnd h)
  | case3 i _ w hend hopen ih =>
    refine (Balanced.token hl ?_ ?_).append (ih h) (Nat.le_succ i) (le_initializerEnd h)
    · intro ht
      exact hopen (by simp [w, ht])
    · intro ht
      exact hend (by simp [w, ht])
  | case4 => exact absurd h (Nat.lt_irrefl _)

theorem balanced_passWords (hl : l.WellFormed) {words : List String}
    (hopen : "\x7b" ∉ words) (hclose : "\x7d" ∉ words) (stop i : Nat) :
    l.Balanced i (l.passWords words stop i) := by
  fun_induction l.passWords words stop i with
  | case1 i _ hw ih =>
    have hmem : l.text i ∈ words := List.contains_iff_mem.mp hw
    refine (Balanced.token hl ?_ ?_).append ih (Nat.le_succ i) (l.le_passWords words stop (i + 1))
    · intro ht
      exact hopen (ht ▸ hmem)
    · intro ht
      exact hclose (ht ▸ hmem)
  | case2 i => exact .nil l i
  | case3 i => exact .nil l i

end Listing

namespace Declarator

variable {l : Listing}

theorem balanced_end? (hl : l.WellFormed) {stop k j : Nat} (h : end? l stop k = some j) :
    l.Balanced k j := by
  fun_induction end? l stop k with
  | case1 => cases h
  | case2 k _ hname _ ih =>
    exact ((Listing.Balanced.nil l k).name hl (Nat.le_refl k) hname).append (ih h) (Nat.le_succ k)
      (le_end? h)
  | case3 k _ _ hword ih =>
    have hmem : l.text k ∈ ["::", "*", "&", "&&"] := List.contains_iff_mem.mp hword
    refine (Listing.Balanced.token hl ?_ ?_).append (ih h) (Nat.le_succ k) (le_end? h) <;>
      intro ht <;> rw [ht] at hmem <;> revert hmem <;> decide
  | case4 k _ _ _ _ m hm ih =>
    exact (Listing.balanced_templateEnd? hl hm).append (ih h)
      (Nat.le_of_lt (Listing.lt_templateEnd? hm)) (le_end? h)
  | case5 => cases h
  | case6 k =>
    obtain rfl := Option.some.inj h
    exact .nil l k
  | case7 k =>
    obtain rfl := Option.some.inj h
    exact .nil l k

/-- What is known of a declarator that is read from `start` on. -/
structure ReadFrom (l : Listing) (start : Nat) (d : Declarator) : Prop where
  typeStart : d.typeStart = start
  behind : start < d.nameToken
  balanced : l.Balanced start d.nameToken

theorem readFrom_ofTokens? (hl : l.WellFormed) {start stop : Nat} {d : Declarator}
    (h : ofTokens? l start stop = some d) : d.ReadFrom l start := by
  obtain ⟨types, hread⟩ := reads_of_ofTokens? h
  have hname := hread.isName
  exact ⟨hread.typeStart, hread.behind, (balanced_end? hl hread.ends).pop hl
    (hl.text_ne_of_isName hname rfl) (hl.text_ne_of_isName hname rfl)⟩

theorem readFrom_siblings (hl : l.WellFormed) {stop : Nat} {first : Declarator} {j : Nat}
    {start : Nat} (hstart : first.typeStart = start) (hj : start < j) (hb : l.Balanced start j) :
    ∀ d ∈ siblings l stop first j, d.ReadFrom l start ∧ j ≤ d.nameToken := by
  fun_induction siblings l stop first j with
  | case1 => simp
  | case2 j comma hcomma name hname marks ih =>
    simp only [Bool.or_eq_true, not_or, Bool.not_eq_true', Bool.not_eq_false] at hname
    have hjc : j ≤ comma := Listing.le_initializerEnd hcomma.1
    have hcn : comma + 1 ≤ name := l.le_passWords modifiers stop (comma + 1)
    have hcommab : l.Balanced start (comma + 1) := by
      refine (hb.append (Listing.balanced_initializerEnd hl hcomma.1) (Nat.le_of_lt hj) hjc).push
        hl (by omega) ?_ ?_ <;> rw [hcomma.2] <;> decide
    have hnameb : l.Balanced start name :=
      hcommab.append (Listing.balanced_passWords hl (by decide) (by decide) stop (comma + 1))
        (by omega) hcn
    intro d hd
    rcases List.mem_cons.mp hd with rfl | hd
    · refine ⟨⟨hstart, ?_, hnameb⟩, ?_⟩
      · change start < name
        omega
      · change j ≤ name
        omega
    · obtain ⟨hread, hle⟩ := ih (by omega) (hnameb.name hl (by omega) hname.1.1) d hd
      exact ⟨hread, by omega⟩
  | case3 => simp

end Declarator

theorem Declaration.readFrom_ofTokens? {l : Listing} (hl : l.WellFormed)
    {terminators : List String} {start stop : Nat} {d : Declaration}
    (h : ofTokens? l terminators start stop = some d) :
    ∀ x ∈ d.declarators, x.ReadFrom l start ∧ d.first.nameToken ≤ x.nameToken := by
  obtain ⟨hfirst, hothers⟩ := first_of_ofTokens? h
  have hread := Declarator.readFrom_ofTokens? hl hfirst
  have hname := (Declarator.named_ofTokens? hl hfirst).isName
  have hbehind := hread.behind
  intro x hx
  rcases List.mem_cons.mp hx with rfl | hx
  · exact ⟨hread, Nat.le_refl _⟩
  · rw [hothers] at hx
    obtain ⟨hx, hle⟩ := Declarator.readFrom_siblings hl hread.typeStart (by omega)
      (hread.balanced.name hl (Nat.le_of_lt hbehind) hname) x hx
    exact ⟨hx, Nat.le_of_succ_le hle⟩

namespace Heading

variable {l : Listing}

/-- The parts of a parameter list stand between the place from which they are looked for and the
parenthesis that closes the list. -/
theorem within_of_mem_segments {close start segment j : Nat} (hsj : segment ≤ j)
    (hstart : start ≤ segment) {part : Nat × Nat} (h : part ∈ segments l close segment j) :
    start ≤ part.1 ∧ part.2 ≤ close := by
  fun_induction segments l close segment j with
  | case1 segment j hj _ later _ ih =>
    rcases List.mem_cons.mp h with rfl | h
    · exact ⟨hstart, hj⟩
    · exact ih (Nat.le_refl _) (by omega) h
  | case2 segment j _ _ later _ ih => exact ih (Nat.le_refl _) (by omega) h
  | case3 segment j _ _ _ ih => exact ih (by have := l.lt_passBracket j; omega) hstart h
  | case4 segment j _ _ _ _ k hk ih =>
    exact ih (by have := Listing.lt_templateEnd? hk; omega) hstart h
  | case5 segment j _ _ _ _ _ ih => exact ih (by omega) hstart h
  | case6 segment j _ _ _ _ ih => exact ih (by omega) hstart h
  | case7 => cases h

/-- Parameters stand between the parentheses of their list. -/
theorem within_of_mem_parametersOf {opener close : Nat} {d : Declarator}
    (hd : d ∈ parametersOf l opener close) : opener < d.nameToken ∧ d.nameToken < close := by
  obtain ⟨⟨start, stop⟩, hpart, h⟩ := List.mem_filterMap.mp hd
  obtain ⟨first, hfirst, _, hname, _⟩ := exists_declarator_of_parameter? h
  obtain ⟨hstart, hstop⟩ := within_of_mem_segments (Nat.le_refl _) (Nat.le_refl _) hpart
  obtain ⟨types, hread⟩ := Declarator.reads_of_ofTokens? hfirst
  have := hread.behind
  have := hread.inside
  dsimp only at hstart hstop
  omega

end Heading

end StackEscape
