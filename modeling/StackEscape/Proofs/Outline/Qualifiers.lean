import StackEscape.Proofs.Outline.Fronts

/-!
# Qualified names

What a function returns is read off the tokens in front of its whole name, and the qualifiers of the
name are passed over from right to left. That walk knows plain names only: in front of a template
argument list it stops, and what is taken for the token before the name is the `::` behind the list.
-/

namespace StackEscape

/-- What a function returns that has these three words in front of its name. -/
def ReturnCategory.ofFront (third second last : String) : ReturnCategory :=
  if third = "const" ∧ second = "char" ∧ last = "*" then .constCharPointer
  else if last = "*" then .pointer
  else if last = "&" then .reference
  else .byValue

namespace Listing

/-- The token `name` is written with qualifiers from the token `first` on: names and names with
template arguments, each followed by `::`. The flag tells whether there are template arguments. -/
inductive Qualified (l : Listing) (name : Nat) : (first : Nat) → (templated : Bool) → Prop
  | name : Qualified l name name false
  | plain {q : Nat} {templated : Bool} (isName : l.isName q = true)
      (joins : l.text (q + 1) = "::") :
      Qualified l name (q + 2) templated → Qualified l name q templated
  | template {q j : Nat} {templated : Bool} (isName : l.isName q = true)
      (opens : l.text (q + 1) = "<") (ends : l.templateEnd? l.size (q + 1) = some j)
      (joins : l.text j = "::") : Qualified l name (j + 1) templated → Qualified l name q true

/-- No further name in front of the token `first` qualifies it. -/
def Unqualified (l : Listing) (first : Nat) : Prop :=
  ∀ q, first = q + 2 → ¬ (l.isName q = true ∧ l.text (q + 1) = "::")

/-- Where a name begins that is written from the token `first` on: a `~` belongs to it. -/
def nameFront (l : Listing) (first : Nat) : Nat :=
  if l.textBefore first = "~" then first - 1 else first

/-- What the tokens right before the token `n` say about what a function returns. -/
def categoryBefore (l : Listing) (n : Nat) : ReturnCategory :=
  .ofFront (l.textAt n (-3)) (l.textAt n (-2)) (l.textAt n (-1))

theorem textAt_add (l : Listing) (m k : Nat) : l.textAt (m + k) (-(k : Int)) = l.text m := by
  have hplace : ((m + k : Nat) : Int) + -(k : Int) = Int.ofNat m := by
    simp only [Int.ofNat_eq_natCast]
    omega
  rw [textAt, hplace]

theorem textAt_of_lt {l : Listing} {n k : Nat} (h : n < k) : l.textAt n (-(k : Int)) = "" := by
  have hplace : (n : Int) + -(k : Int) = Int.negSucc (k - n - 1) := by
    rw [Int.negSucc_eq]
    omega
  rw [textAt, hplace]

theorem textAt_neg_one (l : Listing) (n : Nat) : l.textAt n (-1) = l.textBefore n := by
  cases n with
  | zero => rfl
  | succ m => exact textAt_add l m 1

variable {l : Listing} {name first : Nat} {templated : Bool}

namespace Qualified

/-- Plain qualifiers are names, each with a `::` behind it. -/
theorem tokens (h : l.Qualified name first templated) (hplain : templated = false) :
    first ≤ name ∧ ∀ k, first ≤ k → k < name → l.isName k = true ∨ l.text k = "::" := by
  induction h with
  | name => exact ⟨Nat.le_refl _, fun k hk hlt => absurd hk (Nat.not_le_of_lt hlt)⟩
  | @plain q _ hname hjoins _ ih =>
    obtain ⟨hle, htokens⟩ := ih hplain
    refine ⟨by omega, fun k hk hlt => ?_⟩
    rcases Nat.lt_or_ge k (q + 2) with hk' | hk'
    · obtain rfl | rfl : k = q ∨ k = q + 1 := by omega
      · exact .inl hname
      · exact .inr hjoins
    · exact htokens k hk' hlt
  | template => cases hplain

/-- Behind the last template arguments the qualifiers are plain. -/
theorem exists_plain (h : l.Qualified name first templated) (htemplated : templated = true) :
    ∃ s, l.Qualified name (s + 2) false ∧ l.text (s + 1) = "::" ∧
      (l.text s = ">" ∨ l.text s = ">>") := by
  induction h with
  | name => cases htemplated
  | plain _ _ _ ih => exact ih htemplated
  | @template q j templated _ hopens hends hjoins hrest ih =>
    cases templated with
    | true => exact ih rfl
    | false =>
      have hlt := lt_templateEnd? hends
      obtain ⟨s, rfl⟩ : ∃ s, j = s + 1 := ⟨j - 1, by omega⟩
      exact ⟨s, hrest, hjoins, text_of_templateEnd? hends hopens⟩

end Qualified

/-! ## Fronts -/

theorem WellFormed.notMem_fronts (hl : l.WellFormed) {k : Nat}
    (hk : l.isName k = true ∨ l.text k = "::") : l.text k ∉ declarationFronts := by
  have hwords : ∀ w ∈ declarationFronts, Lexeme.isWord w = false := by decide
  rcases hk with hname | hjoins
  · exact fun hmem => hl.text_ne_of_isName hname (hwords _ hmem) rfl
  · rw [hjoins]
    decide

/-- A declaration does not begin in the middle of a name. -/
theorem BeginsDeclaration.le_first (hl : l.WellFormed) {start : Nat}
    (hs : l.BeginsDeclaration start) (hle : start ≤ name) (h : l.Qualified name first false) :
    start ≤ first := by
  refine Nat.le_of_not_lt fun hlt => ?_
  obtain ⟨k, rfl⟩ : ∃ k, start = k + 1 := ⟨start - 1, by omega⟩
  exact hl.notMem_fronts ((h.tokens rfl).2 k (by omega) (by omega)) hs

theorem BeginsDeclaration.ne (hs : l.BeginsDeclaration first) {w : String}
    (hw : w ∉ declarationFronts) : l.textBefore first ≠ w := by
  rintro rfl
  exact hw hs

/-- Less than three tokens into a declaration, one of the last three stands in front of it. -/
theorem BeginsDeclaration.mem_near {start n : Nat} (hs : l.BeginsDeclaration start)
    (hle : start ≤ n) (hnear : n < start + 3) :
    l.textAt n (-3) ∈ declarationFronts ∨ l.textAt n (-2) ∈ declarationFronts ∨
      l.textAt n (-1) ∈ declarationFronts := by
  rcases Nat.lt_or_ge n 3 with hlt | hge
  · have hnone : l.textAt n (-3) = "" := textAt_of_lt hlt
    rw [hnone]
    exact .inl (by decide)
  · obtain ⟨m, rfl⟩ : ∃ m, n = m + 3 := ⟨n - 3, by omega⟩
    obtain rfl | rfl | rfl : start = m + 1 ∨ start = m + 2 ∨ start = m + 3 := by omega
    · exact .inl ((textAt_add l m 3).symm ▸ hs)
    · exact .inr (.inl ((textAt_add l (m + 1) 2).symm ▸ hs))
    · exact .inr (.inr ((textAt_add l (m + 2) 1).symm ▸ hs))

theorem le_nameFront (hs : l.BeginsDeclaration first) {n : Nat} (hle : first ≤ n) :
    first ≤ l.nameFront n := by
  unfold nameFront
  split
  · next htilde =>
    have hne : first ≠ n := by
      rintro rfl
      exact hs.ne (by decide) htilde
    omega
  · exact hle

end Listing

namespace Heading

open Listing

variable {l : Listing} {start stop name first : Nat} {templated : Bool}

/-! ## The walk over the qualifiers -/

theorem qualifiedStart_qualified (h : l.Qualified name first templated)
    (hplain : templated = false) (hs : start ≤ first) :
    qualifiedStart l start name = qualifiedStart l start first := by
  induction h with
  | name => rfl
  | @plain q _ hname hjoins _ ih =>
    rw [ih hplain (by omega), qualifiedStart, if_pos (by simp [hs, hname, hjoins])]
  | template => cases hplain

theorem qualifiedStart_unqualified (h : l.Unqualified first) :
    qualifiedStart l start first = first := by
  match first with
  | 0 => rfl
  | 1 => rfl
  | q + 2 =>
    rw [qualifiedStart, if_neg]
    intro hc
    simp only [Bool.and_eq_true, decide_eq_true_eq] at hc
    exact h q rfl ⟨hc.2, hc.1.2⟩

/-- No token in front of the definition has a say in what it returns. -/
theorem returnCategory_eq_before (hs : l.BeginsDeclaration start) {n : Nat} (hle : start ≤ n) :
    returnCategory l start n = l.categoryBefore n := by
  have hlast : l.textAt n (-1) = l.textBefore n := textAt_neg_one l n
  unfold returnCategory categoryBefore ReturnCategory.ofFront
  rcases Nat.lt_or_ge n (start + 3) with hnear | hfar
  · have hno :
        ¬ (l.textAt n (-3) = "const" ∧ l.textAt n (-2) = "char" ∧ l.textAt n (-1) = "*") := by
      rintro ⟨hconst, hchar, hstar⟩
      have hfront := hs.mem_near hle hnear
      rw [hconst, hchar, hstar] at hfront
      exact absurd hfront (by decide)
    rw [if_neg hno, if_neg (by simp; omega), hlast]
    rcases Nat.eq_or_lt_of_le hle with rfl | hlt
    · rw [if_pos (Nat.le_refl start), if_neg (hs.ne (by decide)), if_neg (hs.ne (by decide))]
    · obtain ⟨m, rfl⟩ : ∃ m, n = m + 1 := ⟨n - 1, by omega⟩
      rw [if_neg (Nat.not_le_of_lt hlt)]
      rfl
  · obtain ⟨m, rfl⟩ : ∃ m, n = m + 3 := ⟨n - 3, by omega⟩
    have hthird : l.textAt (m + 3) (-3) = l.text m := textAt_add l m 3
    have hsecond : l.textAt (m + 3) (-2) = l.text (m + 1) := textAt_add l (m + 1) 2
    have hlt : ¬ m + 3 ≤ start := by omega
    simp [hthird, hsecond, hlast, hfar, hlt, textBefore, and_assoc]

/-- The word `operator` belongs to the definition. -/
theorem le_operator {p opener : Nat} {operator : Option Nat}
    (h : parameterList? l stop p = some (opener, operator)) : ∀ name ∈ operator, p ≤ name := by
  intro name hname
  fun_induction parameterList? l stop p with
  | case1 =>
    obtain ⟨_, rfl⟩ := Prod.mk.inj (Option.some.inj h)
    cases hname
  | case2 =>
    obtain ⟨_, rfl⟩ := Prod.mk.inj (Option.some.inj h)
    exact Nat.le_of_eq (Option.some.inj hname)
  | case3 => cases h
  | case4 => cases h
  | case5 _ _ _ _ _ _ _ _ ht ih =>
    have := Listing.lt_templateEnd? ht
    have := ih h
    omega
  | case6 _ _ _ _ _ _ _ _ ih => exact Nat.le_of_succ_le (ih h)
  | case7 _ _ _ _ _ _ _ ih => exact Nat.le_of_succ_le (ih h)
  | case8 => cases h

/-- The name of a function stands in the tokens that its parameter list is looked for in. -/
theorem le_nameToken? {opener name : Nat} {operator : Option Nat}
    (hlist : parameterList? l stop start = some (opener, operator)) (hlt : start < opener)
    (h : nameToken? l opener operator = some name) : start ≤ name := by
  cases operator with
  | some o =>
    obtain rfl := Option.some.inj h
    exact le_operator hlist _ rfl
  | none =>
    obtain ⟨_, hname⟩ := Option.ite_none_right_eq_some.mp h
    obtain rfl := Option.some.inj hname
    exact Nat.le_sub_one_of_lt hlt

/-- What a heading returns is read off where its name begins, as the walk over the qualifiers has
it. -/
theorem returns_of_ofTokens? {heading : Heading} (h : ofTokens? l start stop = some heading) :
    start ≤ heading.nameToken ∧
      ∃ unqualified, unqualified = qualifiedStart l start heading.nameToken ∧
        heading.returns = returnCategory l start
          (if start < unqualified && l.text (unqualified - 1) = "~" then unqualified - 1
            else unqualified) := by
  obtain ⟨opener, operator, close, hr⟩ := reads_of_ofTokens? h
  exact ⟨le_nameToken? hr.list hr.starts hr.named, hr.returns⟩

/-- A `~` in front of a name lies behind the front of the definition. -/
theorem nameFront_eq (hs : l.BeginsDeclaration start) {n : Nat} (hle : start ≤ n) :
    (if start < n && l.text (n - 1) = "~" then n - 1 else n) = l.nameFront n := by
  unfold nameFront
  rcases Nat.eq_or_lt_of_le hle with rfl | hlt
  · rw [if_neg (hs.ne (by decide)), if_neg (by simp)]
  · obtain ⟨m, rfl⟩ : ∃ m, n = m + 1 := ⟨n - 1, by omega⟩
    simp only [hlt, decide_true, Bool.true_and, decide_eq_true_eq, Nat.add_sub_cancel, textBefore]

/-- Plain qualifiers are passed over as far as there are any. -/
theorem returns_eq_of_plain (hl : l.WellFormed) {heading : Heading}
    (h : ofTokens? l start stop = some heading) (hs : l.BeginsDeclaration start)
    (hq : l.Qualified heading.nameToken first false) (hfirst : l.Unqualified first) :
    heading.returns = l.categoryBefore (l.nameFront first) := by
  obtain ⟨hle, u, hu, hreturns⟩ := returns_of_ofTokens? h
  have hstart := hs.le_first hl hle hq
  rw [qualifiedStart_qualified hq rfl hstart, qualifiedStart_unqualified hfirst] at hu
  rw [hreturns, hu, nameFront_eq hs hstart, returnCategory_eq_before hs (le_nameFront hs hstart)]

/-- **What a function returns is read off the tokens in front of its whole name**, unless the name
has template arguments: then nothing in front of it counts. -/
theorem returns_eq (hl : l.WellFormed) {heading : Heading}
    (h : ofTokens? l start stop = some heading) (hs : l.BeginsDeclaration start)
    (hq : l.Qualified heading.nameToken first templated) (hfirst : l.Unqualified first) :
    heading.returns = if templated then .byValue else l.categoryBefore (l.nameFront first) := by
  cases templated with
  | false => exact returns_eq_of_plain hl h hs hq hfirst
  | true =>
    obtain ⟨s, hplain, hjoins, hangle⟩ := hq.exists_plain rfl
    have hno : l.Unqualified (s + 2) := by
      rintro q hq ⟨hname, -⟩
      obtain rfl : s = q := by omega
      rcases hangle with ht | ht
      · exact hl.text_ne_of_isName hname (by decide) ht
      · exact hl.text_ne_of_isName hname (by decide) ht
    rw [returns_eq_of_plain hl h hs hplain hno]
    simp [nameFront, categoryBefore, ReturnCategory.ofFront, textAt_neg_one, textBefore, hjoins]

end Heading

end StackEscape
