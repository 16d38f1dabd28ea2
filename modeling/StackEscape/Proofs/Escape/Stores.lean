import StackEscape.Proofs.Escape.Places

/-!
# Statements that store an address

What the assignment pass makes of the three statements that store the address of a local where the
caller can see it. The rule that is meant for the statement is the first one that applies. Whether
it reports depends on one token more: `addressIsWhole` also looks at the second token of the
statement behind, and takes a `.` there for a member access.
-/

namespace StackEscape

/-- The statement behind the token `t` stores the address of the local named by the token `v` in an
argument: `ref = & v ;`, `* ptr = & v ;` or `ptr [ ... ] = & v ;`. -/
inductive Program.StoresAddress (p : Program) (t : Nat) : (v : Nat) → Prop
  | reference (target : p.referenceArgumentAt (t + 1) = true)
      (assigns : p.listing.text (t + 2) = "=") (takes : p.listing.text (t + 3) = "&")
      (value : p.automaticAt (t + 4) = true) (ends : p.listing.text (t + 5) = ";") :
      StoresAddress p t (t + 4)
  | pointer (star : p.listing.text (t + 1) = "*") (target : p.pointerArgumentAt (t + 2) = true)
      (assigns : p.listing.text (t + 3) = "=") (takes : p.listing.text (t + 4) = "&")
      (value : p.automaticAt (t + 5) = true) (ends : p.listing.text (t + 6) = ";") :
      StoresAddress p t (t + 5)
  | element {close : Nat} (target : p.pointerArgumentAt (t + 1) = true)
      (opens : p.listing.text (t + 2) = "[") (closes : p.listing.closing? (t + 2) = some close)
      (assigns : p.listing.text (close + 1) = "=") (takes : p.listing.text (close + 2) = "&")
      (value : p.automaticAt (close + 3) = true) (ends : p.listing.text (close + 4) = ";") :
      StoresAddress p t (close + 3)

variable {p : Program} {t v : Nat}

namespace Program.StoresAddress

theorem value_automatic (h : p.StoresAddress t v) : p.automaticAt v = true := by
  cases h <;> assumption

theorem text_behind (h : p.StoresAddress t v) : p.listing.text (v + 1) = ";" := by
  cases h <;> assumption

/-- The guard is decided by the second token of the next statement. -/
theorem wholeAddressAt_eq (h : p.StoresAddress t v) :
    p.wholeAddressAt v = (p.listing.text (v + 3) != ".") := by
  have hvalue := h.value_automatic
  unfold Program.automaticAt SymbolTable.isAutomatic SymbolTable.holds at hvalue
  unfold Program.wholeAddressAt Program.variableAt?
  cases hv : (p.variableIdAt? v).bind p.symbols.getVariable? with
  | none => rw [hv] at hvalue; cases hvalue
  | some x =>
    rw [Option.any_some, Variable.addressIsWhole, h.text_behind]
    rfl

end Program.StoresAddress

namespace Assignment

/-! ## The rules that come before -/

theorem toReference_of_star (hp : p.WellFormed) (b : Bool) (hstar : p.listing.text (t + 1) = "*") :
    toReference p b t = none := by
  refine if_neg ?_
  intro h
  simp only [Bool.and_eq_true, reference_matches] at h
  exact hp.listing.text_ne_of_isName h.1.1.2.1 (by decide) hstar

/-- The bracket behind the name rules out all rules before the one about elements. -/
theorem unmatched_of_bracket (hp : p.WellFormed) (b : Bool)
    (hname : p.listing.isName (t + 1) = true) (hopen : p.listing.text (t + 2) = "[") :
    toReference p b t = none ∧ throughPointer p b t = none ∧ toMember p b t = none ∧
      arrayToMember p b t = none ∧ arrayThroughPointer p b t = none := by
  have hstar := hp.listing.text_ne_of_isName hname (w := "*") (by decide)
  refine ⟨if_neg ?_, if_neg ?_, if_neg ?_, if_neg ?_, if_neg ?_⟩ <;> intro h
  · simp only [Bool.and_eq_true, reference_matches, hopen] at h
    exact absurd h.1.1.2.2.1 (by decide)
  · simp only [Bool.and_eq_true, pointer_matches] at h
    exact hstar h.1.1.2.1
  · have hdot := (memberAddress_matches.mp h).2.2.1
    rw [hopen] at hdot
    exact absurd hdot (by decide)
  · have hdot := (memberName_matches.mp h).2.2.1
    rw [hopen] at hdot
    exact absurd hdot (by decide)
  · exact hstar (pointedName_matches.mp h).2.1

/-! ## The rule that is meant -/

/-- **The intended rule applies.** It is the first one that does, and it goes on behind the
statement whether or not it reports. -/
theorem hit?_of_stores (hp : p.WellFormed) (hb : IsBoundary (p.listing.text t))
    (hstores : p.StoresAddress t v) (b : Bool) :
    ∃ advance, hit? p b t = some ⟨advance, findingIf (p.wholeAddressAt v) (certain t)⟩ := by
  have hvalue := hp.isName_of_holds hstores.value_automatic
  cases hstores with
  | reference target assigns takes value ends =>
    have hname := hp.isName_of_holds target
    have h : toReference p b t =
        some ⟨4, findingIf (p.wholeAddressAt (t + 4)) (certain t)⟩ := by
      refine if_pos ?_
      simp only [Bool.and_eq_true, reference_matches]
      exact ⟨⟨⟨hb, hname, assigns, takes, hvalue⟩, target⟩, value⟩
    exact ⟨4, by simp only [hit?, matchers, List.findSome?_cons, h]⟩
  | pointer star target assigns takes value ends =>
    have hname := hp.isName_of_holds target
    have h₁ := toReference_of_star hp b star
    have h₂ : throughPointer p b t =
        some ⟨5, findingIf (p.wholeAddressAt (t + 5)) (certain t)⟩ := by
      refine if_pos ?_
      simp only [Bool.and_eq_true, pointer_matches]
      exact ⟨⟨⟨hb, star, hname, assigns, takes, hvalue⟩, target⟩, value⟩
    exact ⟨5, by simp only [hit?, matchers, List.findSome?_cons, h₁, h₂]⟩
  | @element close target opens closes assigns takes value ends =>
    have hname := hp.isName_of_holds target
    obtain ⟨h₁, h₂, h₃, h₄, h₅⟩ := unmatched_of_bracket hp b hname opens
    have hbracket : p.listing.text close = "]" := by
      have h := hp.listing.text_of_closing? closes
      rw [opens] at h
      exact (Option.some.inj h).symm
    have h₆ : toElement p b t =
        some ⟨close + 3 - t, findingIf (p.wholeAddressAt (close + 3)) (certain t)⟩ := by
      have htail := indexedTail_matches.mpr ⟨hbracket, assigns, takes, hvalue⟩
      unfold toElement
      rw [if_pos (indexed_matches.mpr ⟨hb, hname, opens⟩), closes]
      exact if_pos (by rw [htail, target, value]; rfl)
    refine ⟨close + 3 - t, ?_⟩
    simp only [hit?, matchers, List.findSome?_cons, h₁, h₂, h₃, h₄, h₅, h₆]

end Assignment

end StackEscape
