import StackEscape.Proofs.Outline.Headings

/-!
# Declared and mentioned names

Whatever an outline declares is declared under a name that is no statement word, and whatever a
function body mentions is a name. The one way past the check of words, a template argument list
right before the declared name, ends with a `>` and so with no name.
-/

namespace StackEscape

namespace Listing

/-- Angle brackets that are open at `i` are closed by `>` or `>>`. -/
theorem text_of_templateEndFrom? {l : Listing} {stop i j : Nat} {depth : Int}
    (h : l.templateEndFrom? stop i depth = some j) (hd : 0 < depth) :
    l.text (j - 1) = ">" ∨ l.text (j - 1) = ">>" := by
  fun_induction l.templateEndFrom? stop i depth with
  | case1 i depth _ w _ close hc ih => exact ih h hd
  | case2 => cases h
  | case3 => cases h
  | case4 i depth _ w _ _ hle =>
    obtain rfl := Option.some.inj h
    simp only [Nat.add_sub_cancel]
    change depth + angleDepth (l.text i) ≤ 0 at hle
    unfold angleDepth at hle
    repeat' split at hle
    · omega
    · next hw => exact .inl hw
    · next hw => exact .inr hw
    · omega
  | case5 i depth _ w _ _ hlt ih => exact ih h (by omega)
  | case6 => cases h

theorem text_of_templateEnd? {l : Listing} {stop i j : Nat} (h : l.templateEnd? stop i = some j)
    (hi : l.text i = "<") : l.text (j - 1) = ">" ∨ l.text (j - 1) = ">>" := by
  unfold templateEnd? at h
  rw [templateEndFrom?] at h
  split at h
  · simp only [hi] at h
    have hopen : (0 : Int) < 0 + angleDepth "<" := by decide
    exact text_of_templateEndFrom? h hopen
  · cases h

end Listing

namespace Declarator

/-- What the tokens say where a declarator is read from `start` on: it ends with the declared name,
and `types` are the tokens in front that its flags are taken from. -/
structure Reads (l : Listing) (start stop : Nat) (d : Declarator) (types : List Nat) : Prop where
  typeStart : d.typeStart = start
  ends : end? l stop start = some (d.nameToken + 1)
  behind : start < d.nameToken
  inside : d.nameToken < stop
  isName : l.isName d.nameToken = true
  typeTokens : typeTokens? l d.nameToken start = some types
  isStatic : d.isStatic = (types.map l.text).any isStaticWord
  isReference : d.isReference = (types.map l.text).any isReferenceMark

theorem reads_of_ofTokens? {l : Listing} {start stop : Nat} {d : Declarator}
    (h : ofTokens? l start stop = some d) : ∃ types, d.Reads l start stop types := by
  simp only [ofTokens?] at h
  split at h
  · cases h
  · split at h
    · cases h
    · next k hend =>
      split at h
      · cases h
      · next hk =>
        split at h
        · cases h
        · next types htypes =>
          split at h
          · cases h
          · obtain rfl := Option.some.inj h
            simp only [Bool.or_eq_true, decide_eq_true_eq, not_or, Bool.not_eq_true',
              Bool.not_eq_false] at hk
            obtain ⟨⟨⟨⟨hlong, hinside⟩, hname⟩, _⟩, _⟩ := hk
            have hpred : k - 1 + 1 = k := by omega
            exact ⟨types, rfl, hpred.symm ▸ hend, by dsimp only; omega, by dsimp only; omega,
              hname, htypes, rfl, rfl⟩

/-- That a declarator declares a name that statements cannot begin with. -/
structure Named (l : Listing) (d : Declarator) : Prop where
  isName : l.isName d.nameToken = true
  free : Word.isStatementWord (l.text d.nameToken) = false

/-- The last of the tokens that a declarator passes over is no statement word. -/
theorem free_of_end? {l : Listing} (hl : l.WellFormed) {stop k j : Nat} (h : end? l stop k = some j)
    (hk : k < j) (hn : l.isName (j - 1) = true) :
    Word.isStatementWord (l.text (j - 1)) = false := by
  fun_induction end? l stop k with
  | case1 => cases h
  | case2 k _ _ hfree ih =>
    rcases Nat.eq_or_lt_of_le (le_end? h) with rfl | hlt
    · simpa using hfree
    · exact ih h hlt
  | case3 k _ hname _ ih =>
    rcases Nat.eq_or_lt_of_le (le_end? h) with rfl | hlt
    · rw [Nat.add_sub_cancel] at hn
      exact absurd hn hname
    · exact ih h hlt
  | case4 k _ _ _ hangle m hm ih =>
    rcases Nat.eq_or_lt_of_le (le_end? h) with rfl | hlt
    · rcases Listing.text_of_templateEnd? hm hangle with ht | ht
      · exact absurd ht (hl.text_ne_of_isName hn rfl)
      · exact absurd ht (hl.text_ne_of_isName hn rfl)
    · exact ih h hlt
  | case5 => cases h
  | case6 =>
    obtain rfl := Option.some.inj h
    exact absurd hk (Nat.lt_irrefl _)
  | case7 =>
    obtain rfl := Option.some.inj h
    exact absurd hk (Nat.lt_irrefl _)

theorem named_ofTokens? {l : Listing} (hl : l.WellFormed) {start stop : Nat} {d : Declarator}
    (h : ofTokens? l start stop = some d) : d.Named l := by
  obtain ⟨types, hread⟩ := reads_of_ofTokens? h
  exact ⟨hread.isName, free_of_end? hl hread.ends (Nat.lt_succ_of_lt hread.behind) hread.isName⟩

theorem named_siblings (l : Listing) (stop : Nat) (first : Declarator) (j : Nat) :
    ∀ d ∈ siblings l stop first j, d.Named l := by
  fun_induction siblings l stop first j with
  | case1 => simp
  | case2 j comma _ name hname marks ih =>
    simp only [Bool.or_eq_true, not_or, Bool.not_eq_true', Bool.not_eq_false,
      Bool.not_eq_true] at hname
    obtain ⟨⟨hname, hfree⟩, _⟩ := hname
    intro d hd
    rcases List.mem_cons.mp hd with rfl | hd
    · exact ⟨hname, hfree⟩
    · exact ih d hd
  | case3 => simp

end Declarator

/-- A declaration is its first declarator and the siblings that follow. -/
theorem Declaration.first_of_ofTokens? {l : Listing} {terminators : List String} {start stop : Nat}
    {d : Declaration} (h : ofTokens? l terminators start stop = some d) :
    Declarator.ofTokens? l start stop = some d.first ∧
      d.others = Declarator.siblings l stop d.first (d.first.nameToken + 1) := by
  unfold ofTokens? at h
  split at h
  · cases h
  · next first hfirst =>
    obtain ⟨_, he⟩ := Option.ite_none_right_eq_some.mp h
    obtain rfl := Option.some.inj he
    exact ⟨hfirst, rfl⟩

theorem Declaration.named_ofTokens? {l : Listing} (hl : l.WellFormed) {terminators : List String}
    {start stop : Nat} {d : Declaration} (h : ofTokens? l terminators start stop = some d) :
    ∀ x ∈ d.declarators, x.Named l := by
  obtain ⟨hfirst, hothers⟩ := first_of_ofTokens? h
  intro x hx
  rcases List.mem_cons.mp hx with rfl | hx
  · exact Declarator.named_ofTokens? hl hfirst
  · rw [hothers] at hx
    exact Declarator.named_siblings l stop d.first _ x hx

/-- A parameter is the declarator that its part of the list begins with, up to whether it is an
array. -/
theorem Heading.exists_declarator_of_parameter? {l : Listing} {start stop : Nat} {d : Declarator}
    (h : parameter? l start stop = some d) :
    ∃ first, Declarator.ofTokens? l start stop = some first ∧ d.typeStart = first.typeStart ∧
      d.nameToken = first.nameToken ∧ d.isReference = first.isReference := by
  simp only [parameter?] at h
  split at h
  · cases h
  · next first hfirst =>
    repeat' split at h
    · obtain rfl := Option.some.inj h
      exact ⟨first, hfirst, rfl, rfl, rfl⟩
    · obtain rfl := Option.some.inj h
      exact ⟨_, hfirst, rfl, rfl, rfl⟩
    · cases h

theorem Heading.named_parametersOf {l : Listing} (hl : l.WellFormed) (opener close : Nat) :
    ∀ d ∈ parametersOf l opener close, d.Named l := by
  intro d hd
  obtain ⟨⟨start, stop⟩, _, h⟩ := List.mem_filterMap.mp hd
  obtain ⟨first, hfirst, _, hname, _⟩ := exists_declarator_of_parameter? h
  have hnamed := Declarator.named_ofTokens? hl hfirst
  exact ⟨hname ▸ hnamed.isName, hname ▸ hnamed.free⟩

theorem Heading.named_parameters {l : Listing} (hl : l.WellFormed) {start stop : Nat}
    {heading : Heading} (h : ofTokens? l start stop = some heading) :
    ∀ d ∈ heading.parameters, d.Named l := by
  obtain ⟨opener, _, close, hr⟩ := reads_of_ofTokens? h
  rw [hr.parameters]
  exact named_parametersOf hl opener close

namespace Body

def Step.Named (l : Listing) : Step → Prop
  | .enterBlock => True
  | .leaveBlock => True
  | .declare d => ∀ x ∈ d.declarators, x.Named l
  | .mention token => l.isName token = true

theorem named_pass {l : Listing} {i : Nat} : ∀ s ∈ (pass l i).step, s.Named l := by
  intro s hs
  simp only [pass] at hs
  split at hs
  · next h =>
    obtain rfl := Option.some.inj hs
    exact (Bool.and_eq_true_iff.mp h).1
  · cases hs

theorem named_move {l : Listing} (hl : l.WellFormed) {stop i : Nat} {fresh : Bool} :
    ∀ s ∈ (move l stop i fresh).step, s.Named l := by
  intro s hs
  have at_statement : ∀ s ∈ (atStatement l stop i).step, s.Named l := by
    intro s hs
    unfold atStatement at hs
    split at hs
    · cases hs
    · split at hs
      · next d hd =>
        obtain rfl := Option.some.inj hs
        exact Declaration.named_ofTokens? hl hd
      · exact named_pass s hs
  simp only [move] at hs
  repeat' split at hs
  · obtain rfl := Option.some.inj hs
    trivial
  · obtain rfl := Option.some.inj hs
    trivial
  · cases hs
  · cases hs
  · exact at_statement s hs
  · exact named_pass s hs

theorem named_steps {l : Listing} (hl : l.WellFormed) (stop i : Nat) (fresh : Bool) :
    ∀ s ∈ steps l stop i fresh, s.Named l := by
  fun_induction steps l stop i fresh with
  | case1 i fresh hi m ih =>
    intro s hs
    rcases List.mem_append.mp hs with hs | hs
    · exact named_move hl s (Option.mem_toList.mp hs)
    · exact ih s hs
  | case2 => simp

end Body

namespace Outline

/-- That the names of an outline are names, and the declared ones free to declare. -/
def Named (l : Listing) : Outline → Prop
  | .done => True
  | .block _ _ _ _ inside after => inside.Named l ∧ after.Named l
  | .linkage inside after => inside.Named l ∧ after.Named l
  | .function heading body after =>
    (∀ d ∈ heading.parameters, d.Named l) ∧ (∀ s ∈ body, s.Named l) ∧ after.Named l
  | .declaration d after => (∀ x ∈ d.declarators, x.Named l) ∧ after.Named l

theorem named_ofTokens {l : Listing} (hl : l.WellFormed) (stop i : Nat) :
    (ofTokens l stop i).Named l := by
  fun_induction ofTokens l stop i with
  | case1 _ _ _ _ _ ih => exact ih
  | case2 _ _ _ _ _ _ _ _ _ ihin ihout => exact ⟨ihin, ihout⟩
  | case3 _ _ _ _ _ _ ihin ihout => exact ⟨ihin, ihout⟩
  | case4 stop i _ heading hc ih =>
    have hf := Construct.found_ofTokens l stop i
    rw [hc] at hf
    exact ⟨Heading.named_parameters hl hf, Body.named_steps hl _ _ _, ih⟩
  | case5 stop i _ d next hc ih =>
    have hf := Construct.found_ofTokens l stop i
    rw [hc] at hf
    exact ⟨Declaration.named_ofTokens? hl hf, ih⟩
  | case6 => trivial

end Outline

end StackEscape
