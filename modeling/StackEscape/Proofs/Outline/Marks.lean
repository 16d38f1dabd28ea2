import StackEscape.Proofs.Outline.Regions
import StackEscape.Proofs.Outline.Walk

/-!
# What the type tokens say

A declarator takes its flags from the tokens in front of the declared name, without those in
template argument lists. All declarators of a declaration share what the specifiers say; the marks
for pointers and references are those in front of each name.
-/

namespace StackEscape

namespace Listing

variable {l : Listing}

/-- A template argument list that ends in some region also ends in a longer one, at the same
place. -/
theorem templateEndFrom?_mono {stop stop' i j : Nat} {depth : Int} (hle : stop ≤ stop')
    (h : l.templateEndFrom? stop i depth = some j) : l.templateEndFrom? stop' i depth = some j := by
  fun_induction l.templateEndFrom? stop i depth with
  | case1 i depth hi w hw close hc ih =>
    rw [templateEndFrom?, if_pos (Nat.lt_of_lt_of_le hi hle)]
    simp only [if_pos hw, w] at hw ⊢
    split
    · next hc' =>
      obtain rfl := Option.some.inj (hc.symm.trans hc')
      exact ih h
    · next hc' =>
      rw [hc] at hc'
      cases hc'
  | case2 => cases h
  | case3 => cases h
  | case4 i depth hi w hw hword hdepth =>
    rw [templateEndFrom?, if_pos (Nat.lt_of_lt_of_le hi hle)]
    simp only [w] at hw hword hdepth
    simpa only [if_neg hw, if_neg hword, if_pos hdepth] using h
  | case5 i depth hi w hw hword hdepth ih =>
    rw [templateEndFrom?, if_pos (Nat.lt_of_lt_of_le hi hle)]
    simp only [w] at hw hword hdepth
    simpa only [if_neg hw, if_neg hword, if_neg hdepth] using ih h
  | case6 => cases h

/-- The token at `j` stands in a template argument list that opens at `i` or behind. -/
def InTemplateList (l : Listing) (i j : Nat) : Prop :=
  ∃ o < j, i ≤ o ∧ l.text o = "<" ∧ ∃ k ∈ l.templateEnd? l.size o, j < k

instance (l : Listing) (i j : Nat) : Decidable (l.InTemplateList i j) :=
  inferInstanceAs (Decidable (∃ o < j, _ ∧ _ ∧ ∃ k ∈ l.templateEnd? l.size o, _))

end Listing

namespace Declarator

variable {l : Listing}

/-- A token in front of the name is a type token, unless it is passed over with a template argument
list. -/
theorem mem_typeTokens? {name i j : Nat} {types : List Nat}
    (h : typeTokens? l name i = some types) (hij : i ≤ j) (hj : j < name) (hw : l.text j ≠ "<")
    (hout : ∀ o k, i ≤ o → o < j → l.text o = "<" → l.templateEnd? name o = some k → k ≤ j) :
    j ∈ types := by
  fun_induction typeTokens? l name i generalizing types with
  | case1 i _ hangle k hk ih =>
    have hne : i ≠ j := by
      rintro rfl
      exact hw hangle
    have hkj := hout i k (Nat.le_refl i) (by omega) hangle hk
    have := Listing.lt_templateEnd? hk
    exact ih h hkj fun o k' ho => hout o k' (by omega)
  | case2 => cases h
  | case3 i _ _ ih =>
    obtain ⟨rest, hrest, rfl⟩ := Option.map_eq_some_iff.mp h
    rcases Nat.eq_or_lt_of_le hij with rfl | hij
    · exact List.mem_cons_self
    · exact List.mem_cons_of_mem _ (ih hrest hij fun o k ho => hout o k (by omega))
  | case4 => omega

/-- A word for static storage among the type tokens makes a declarator static. -/
theorem isStatic_of_ofTokens? {start stop : Nat} {d : Declarator}
    (h : ofTokens? l start stop = some d) {j : Nat} (hj : start ≤ j) (hname : j < d.nameToken)
    (hw : isStaticWord (l.text j) = true) (hout : ¬ l.InTemplateList start j) :
    d.isStatic = true := by
  obtain ⟨types, hread⟩ := reads_of_ofTokens? h
  have hsize := Listing.lt_size_of_isName hread.isName
  have hmem : j ∈ types := by
    refine mem_typeTokens? hread.typeTokens hj hname ?_ fun o k ho hoj hangle hk => ?_
    · intro ht
      rw [ht] at hw
      cases hw
    · have hk := Listing.templateEndFrom?_mono (Nat.le_of_lt hsize) hk
      exact Nat.not_lt.mp fun hjk => hout ⟨o, hoj, ho, hangle, k, hk, hjk⟩
  rw [hread.isStatic]
  exact List.any_eq_true.mpr ⟨l.text j, List.mem_map_of_mem hmem, hw⟩

/-- Later declarators of a declaration are as static as the first one. -/
theorem isStatic_of_mem_siblings {stop j : Nat} {first : Declarator} :
    ∀ d ∈ siblings l stop first j, d.isStatic = first.isStatic := by
  fun_induction siblings l stop first j with
  | case1 => simp
  | case2 j comma _ name _ marks ih => exact List.forall_mem_cons.mpr ⟨rfl, ih⟩
  | case3 => simp

/-- What stands in front of a declared name: the type, and if it is a `&` right before the name,
then a reference is declared. -/
structure Shaped (l : Listing) (d : Declarator) : Prop where
  typeFirst : d.typeStart < d.nameToken
  reference : l.text (d.nameToken - 1) = "&" → d.isReference = true

theorem shaped_ofTokens? {start stop : Nat} {d : Declarator}
    (h : ofTokens? l start stop = some d) : d.Shaped l := by
  obtain ⟨types, hread⟩ := reads_of_ofTokens? h
  have hbehind := hread.behind
  refine ⟨hread.typeStart ▸ hbehind, fun hmark => ?_⟩
  have hmem : d.nameToken - 1 ∈ types := by
    refine mem_typeTokens? hread.typeTokens (by omega) (by omega) ?_ fun o k _ _ hangle hk => ?_
    · rw [hmark]
      decide
    · -- a template argument list in front of the name ends with an angle bracket
      have hle := Listing.templateEndFrom?_le hk
      refine Nat.le_sub_one_of_lt (Nat.lt_of_le_of_ne hle fun he => ?_)
      rcases Listing.text_of_templateEnd? hk hangle with ht | ht
      all_goals
        rw [he, hmark] at ht
        exact absurd ht (by decide)
  rw [hread.isReference]
  exact List.any_eq_true.mpr ⟨_, List.mem_map_of_mem hmem, by rw [hmark]; decide⟩

theorem shaped_siblings {stop j : Nat} {first : Declarator} (hfirst : first.typeStart < j) :
    ∀ d ∈ siblings l stop first j, d.Shaped l := by
  fun_induction siblings l stop first j with
  | case1 => simp
  | case2 j comma hcomma name _ marks ih =>
    have hjc : j ≤ comma := Listing.le_initializerEnd hcomma.1
    have hcn : comma + 1 ≤ name := l.le_passWords modifiers stop (comma + 1)
    refine List.forall_mem_cons.mpr ⟨⟨?_, fun hmark => ?_⟩, ih (by omega)⟩
    · change first.typeStart < name
      omega
    · change l.text (name - 1) = "&" at hmark
      have hne : name - 1 ≠ comma := by
        intro he
        rw [he, hcomma.2] at hmark
        exact absurd hmark (by decide)
      have hmem : name - 1 ∈ List.range' (comma + 1) (name - (comma + 1)) :=
        List.mem_range'_1.mpr ⟨by omega, by omega⟩
      exact List.any_eq_true.mpr ⟨_, List.mem_map_of_mem hmem, by rw [hmark]; decide⟩
  | case3 => simp

end Declarator

theorem Declaration.shaped_ofTokens? {l : Listing} {terminators : List String}
    {start stop : Nat} {d : Declaration} (h : ofTokens? l terminators start stop = some d) :
    ∀ x ∈ d.declarators, x.Shaped l := by
  obtain ⟨hfirst, hothers⟩ := first_of_ofTokens? h
  have hshaped := Declarator.shaped_ofTokens? hfirst
  intro x hx
  rcases List.mem_cons.mp hx with rfl | hx
  · exact hshaped
  · rw [hothers] at hx
    exact Declarator.shaped_siblings (Nat.lt_succ_of_lt hshaped.typeFirst) x hx

/-- A parameter has the shape of the declarator that it is read from. -/
theorem Heading.shaped_of_parameter? {l : Listing} {start stop : Nat}
    {d : Declarator} (h : parameter? l start stop = some d) : d.Shaped l := by
  obtain ⟨first, hfirst, htype, hname, hreference⟩ := exists_declarator_of_parameter? h
  have hshaped := Declarator.shaped_ofTokens? hfirst
  constructor
  · rw [htype, hname]
    exact hshaped.typeFirst
  · rw [hname, hreference]
    exact hshaped.reference

end StackEscape
