import StackEscape.Proofs.Outline.Qualifiers
import StackEscape.Proofs.Program
import StackEscape.Proofs.Symbol.Register

/-!
# What functions return

What is recorded of the return of a function depends on the three tokens in front of its whole name
and on nothing else, however often the name is qualified. Template arguments in the name hide those
tokens, and the function is taken to return a value.
-/

namespace StackEscape

namespace Program

variable {file source : String} {p : Program}

/-- **What a function returns is read off in front of its whole name**, unless the name has template
arguments. -/
theorem returns_of_qualified (h : ofSource file source = .ok p) {f : Function}
    (hf : f ∈ p.symbols.functions) {first : Nat} {templated : Bool}
    (hq : p.listing.Qualified f.nameToken first templated) (hfirst : p.listing.Unqualified first) :
    f.returns =
      if templated then .byValue else p.listing.categoryBefore (p.listing.nameFront first) := by
  obtain ⟨hlisting, hsymbols⟩ := listing_of_ofSource h
  have hl := Listing.wellFormed_ofSource hlisting
  rw [hsymbols] at hf
  obtain ⟨heading, hheading, -, htoken, hreturns⟩ := SymbolTable.exists_heading hf
  have hempty : "" ∈ Listing.declarationFronts := by decide
  have hfront : p.listing.BeginsDeclaration 0 := hempty
  obtain ⟨start, stop, hreads, hbegins⟩ := Outline.exists_front_of_mem hl (fun _ => hfront) hheading
  rw [htoken] at hq
  rw [hreturns]
  exact Heading.returns_eq hl hreads hbegins hq hfirst

/-- The case of two plain qualifiers. -/
theorem returns_of_qualified_twice :
    ∃ p f, ofSource "a.cpp" "const char*N::S::f(){return 0;}" = .ok p ∧ f ∈ p.symbols.functions ∧
      p.listing.Qualified f.nameToken 3 false ∧ p.listing.Unqualified 3 ∧
      f.returns = p.listing.categoryBefore (p.listing.nameFront 3) ∧
      f.returns = .constCharPointer := by
  obtain ⟨p, hp, ⟨f, hf, htoken⟩, ⟨hN, hNjoins, hS, hSjoins⟩, hstar, hcategory⟩ :
      ∃ p, ofSource "a.cpp" "const char*N::S::f(){return 0;}" = .ok p ∧
        (∃ f ∈ p.symbols.functions, f.nameToken = 7) ∧
        (p.listing.isName 3 = true ∧ p.listing.text 4 = "::" ∧ p.listing.isName 5 = true ∧
          p.listing.text 6 = "::") ∧
        p.listing.text 2 ≠ "::" ∧
        p.listing.categoryBefore (p.listing.nameFront 3) = .constCharPointer :=
    exists_of_any (by decide +kernel)
  have hq : p.listing.Qualified f.nameToken 3 false := by
    rw [htoken]
    exact .plain hN hNjoins (.plain hS hSjoins .name)
  have hfirst : p.listing.Unqualified 3 := by
    rintro q hq ⟨-, hjoins⟩
    obtain rfl : q = 1 := by omega
    exact hstar hjoins
  have hreturns := returns_of_qualified hp hf hq hfirst
  exact ⟨p, f, hp, hf, hq, hfirst, hreturns, hreturns.trans hcategory⟩

/-- The tokens `const char *` in front of `A<T>::f` are not seen. -/
theorem returns_hidden_by_template :
    ∃ p f, ofSource "test.cpp" "template<class T>const char*A<T>::f(){return 0;}" = .ok p ∧
      f ∈ p.symbols.functions ∧ p.listing.Qualified f.nameToken 8 true ∧
      p.listing.Unqualified 8 ∧ p.listing.nameFront 8 = 8 ∧
      p.listing.categoryBefore 8 = .constCharPointer ∧ f.returns = .byValue := by
  obtain ⟨p, hp, ⟨f, hf, htoken, hreturns⟩, ⟨hA, hopens, hends, hjoins⟩, hstar, hfront,
      hcategory⟩ :
      ∃ p, ofSource "test.cpp" "template<class T>const char*A<T>::f(){return 0;}" = .ok p ∧
        (∃ f ∈ p.symbols.functions, f.nameToken = 13 ∧ f.returns = .byValue) ∧
        (p.listing.isName 8 = true ∧ p.listing.text 9 = "<" ∧
          p.listing.templateEnd? p.listing.size 9 = some 12 ∧ p.listing.text 12 = "::") ∧
        p.listing.text 7 ≠ "::" ∧ p.listing.nameFront 8 = 8 ∧
        p.listing.categoryBefore 8 = .constCharPointer :=
    exists_of_any (by decide +kernel)
  have hq : p.listing.Qualified f.nameToken 8 true := by
    rw [htoken]
    exact .template hA hopens hends hjoins .name
  have hfirst : p.listing.Unqualified 8 := by
    rintro q hq ⟨-, hjoins⟩
    obtain rfl : q = 6 := by omega
    exact hstar hjoins
  exact ⟨p, f, hp, hf, hq, hfirst, hfront, hcategory, hreturns⟩

end Program

end StackEscape
