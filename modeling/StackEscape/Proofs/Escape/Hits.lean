import StackEscape.Proofs.Escape.Shapes

/-!
# What a hit of the assignment pass is

Every rule of the assignment pass that applies at a token says two things: how far to go on, and
perhaps a finding. `Hit.Fits` collects what all rules have in common: no end of a statement is
passed over unless it stands in square brackets, and the anchor of the finding is among the tokens
that are passed over, ahead of any brace. One lemma for each rule, and one for the first rule that
applies.
-/

namespace StackEscape

namespace Assignment

variable {p : Program} {b : Bool} {i j : Nat}

def rules : List Rule :=
  [.autoVariables, .returnAddressOfAutoVariable, .returnAddressOfFunctionParameter,
   .autovarInvalidDeallocation]

/-! ## Tokens that end no statement -/

/-- No statement ends behind `i`, up to the token `j`. -/
def Plain (p : Program) (i j : Nat) : Prop :=
  ∀ k, i < k → k ≤ j → ¬ IsBoundary (p.listing.text k)

theorem Plain.refl (p : Program) (i : Nat) : Plain p i i := fun _ hk hki _ => by omega

theorem Plain.step (h : Plain p i j) (hj : ¬ IsBoundary (p.listing.text (j + 1))) :
    Plain p i (j + 1) := by
  intro k hik hkj
  rcases Nat.eq_or_lt_of_le hkj with rfl | hlt
  · exact hj
  · exact h k hik (Nat.le_of_lt_succ hlt)

theorem Plain.word (h : Plain p i j) {w : String} (ht : p.listing.text (j + 1) = w)
    (hw : ¬ IsBoundary w) : Plain p i (j + 1) := h.step (ht ▸ hw)

theorem Plain.name (h : Plain p i j) (hp : p.WellFormed) (hn : p.listing.isName (j + 1) = true) :
    Plain p i (j + 1) := by
  refine h.step ?_
  rintro (ht | ht | ht)
  · exact hp.listing.text_ne_of_isName hn rfl ht
  · exact hp.listing.text_ne_of_isName hn rfl ht
  · exact hp.listing.text_ne_of_isName hn rfl ht

/-! ## Hits -/

/-- What a finding is that a rule reports at `i`, where it passes over `advance` tokens. The flag
`b` admits uncertain findings. -/
structure Reports (p : Program) (b : Bool) (i advance : Nat) (f : Finding) : Prop where
  rule : f.rule ∈ rules
  behind : i ≤ f.anchor
  before : f.anchor ≤ i + advance
  plain : Plain p i f.anchor
  /-- A finding at the token itself is about a `return`. -/
  here : f.anchor = i → p.listing.text i = "return"
  returns : p.listing.text f.anchor = "return" → p.listing.text (f.anchor + 1) = "&"
  assigns : f.rule = .autoVariables → f.anchor = i + 1
  unsure : f.confidence = .inconclusive → b = true ∧ f.rule = .autoVariables

structure Hit.Fits (p : Program) (b : Bool) (i : Nat) (h : Hit) : Prop where
  passes : ∀ k, i < k → k ≤ i + h.advance → IsBoundary (p.listing.text k) → p.InSquare k
  reports : ∀ f ∈ h.finding, Reports p b i h.advance f

theorem mem_findingIf {condition : Bool} {f g : Finding} :
    g ∈ findingIf condition f ↔ condition = true ∧ g = f := by
  cases condition <;> simp [findingIf, eq_comm]

/-- Rules about assigned parameters: the finding is anchored right behind the end of a statement. -/
theorem Hit.Fits.of_assignment {advance : Nat} {condition : Bool} {f : Finding}
    (hadvance : 1 ≤ advance) (hanchor : f.anchor = i + 1) (hrule : f.rule = .autoVariables)
    (hplain : Plain p i (i + 1))
    (hreturn : condition = true → p.listing.text (i + 1) ≠ "return")
    (hunsure : condition = true → f.confidence = .inconclusive → b = true)
    (hpasses : ∀ k, i < k → k ≤ i + advance → IsBoundary (p.listing.text k) → p.InSquare k) :
    Hit.Fits p b i ⟨advance, findingIf condition f⟩ := by
  refine ⟨hpasses, ?_⟩
  intro g hg
  obtain ⟨hc, rfl⟩ := mem_findingIf.mp hg
  refine ⟨by rw [hrule]; decide, by omega, by simp only [hanchor]; omega, ?_, fun h => by omega,
    ?_, fun _ => hanchor, fun h => ⟨hunsure hc h, hrule⟩⟩
  · rw [hanchor]
    exact hplain
  · rw [hanchor]
    intro h
    exact absurd h (hreturn hc)

theorem Plain.passes {advance : Nat} (h : Plain p i (i + advance)) :
    ∀ k, i < k → k ≤ i + advance → IsBoundary (p.listing.text k) → p.InSquare k :=
  fun k hik hk hb => absurd hb (h k hik hk)

theorem fits_toReference (hp : p.WellFormed) {h : Hit}
    (hh : toReference p b i = some h) : h.Fits p b i := by
  unfold toReference at hh
  split at hh
  · next hc =>
    obtain rfl := Option.some.inj hh
    simp only [Bool.and_eq_true, reference_matches] at hc
    obtain ⟨⟨⟨_, hname, heq, hand, hlocal⟩, harg⟩, _⟩ := hc
    have hplain := (Plain.refl p i).name hp hname
    exact .of_assignment (by decide) rfl rfl hplain
      (fun _ => hp.text_ne_of_bound harg (by decide)) nofun
      (((hplain.word heq (by decide)).word hand (by decide)).name hp hlocal).passes
  · cases hh

theorem fits_throughPointer (hp : p.WellFormed) {h : Hit}
    (hh : throughPointer p b i = some h) : h.Fits p b i := by
  unfold throughPointer at hh
  split at hh
  · next hc =>
    obtain rfl := Option.some.inj hh
    simp only [Bool.and_eq_true, pointer_matches] at hc
    obtain ⟨⟨⟨_, hstar, hname, heq, hand, hlocal⟩, _⟩, _⟩ := hc
    have hplain := (Plain.refl p i).word hstar (by decide)
    exact .of_assignment (by decide) rfl rfl hplain (fun _ => by rw [hstar]; decide) nofun
      ((((hplain.name hp hname).word heq (by decide)).word hand (by decide)).name hp hlocal).passes
  · cases hh

theorem fits_toMember (hp : p.WellFormed) {h : Hit}
    (hh : toMember p b i = some h) : h.Fits p b i := by
  unfold toMember at hh
  split at hh
  · next hc =>
    obtain rfl := Option.some.inj hh
    obtain ⟨_, hname, hdot, hfield, heq, hand, hlocal⟩ := memberAddress_matches.mp hc
    have hplain := (Plain.refl p i).name hp hname
    refine .of_assignment (by decide) rfl rfl hplain ?_
      (fun hcond _ => (Bool.and_eq_true_iff.mp hcond).1)
      (((((hplain.word hdot (by decide)).name hp hfield).word heq (by decide)).word hand
        (by decide)).name hp hlocal).passes
    intro hcond
    simp only [Bool.and_eq_true] at hcond
    exact hp.text_ne_of_bound hcond.2.1.1 (by decide)
  · cases hh

theorem fits_arrayToMember (hp : p.WellFormed) {h : Hit}
    (hh : arrayToMember p b i = some h) : h.Fits p b i := by
  unfold arrayToMember at hh
  split at hh
  · next hc =>
    obtain rfl := Option.some.inj hh
    obtain ⟨_, hname, hdot, hfield, heq, hlocal, _⟩ := memberName_matches.mp hc
    have hplain := (Plain.refl p i).name hp hname
    refine .of_assignment (by decide) rfl rfl hplain ?_
      (fun hcond _ => (Bool.and_eq_true_iff.mp hcond).1)
      ((((hplain.word hdot (by decide)).name hp hfield).word heq (by decide)).name hp hlocal).passes
    intro hcond
    simp only [Bool.and_eq_true] at hcond
    exact hp.text_ne_of_bound hcond.2.1 (by decide)
  · cases hh

theorem fits_arrayThroughPointer (hp : p.WellFormed) {h : Hit}
    (hh : arrayThroughPointer p b i = some h) : h.Fits p b i := by
  unfold arrayThroughPointer at hh
  split at hh
  · next hc =>
    obtain rfl := Option.some.inj hh
    obtain ⟨_, hstar, hname, heq, hlocal, _⟩ := pointedName_matches.mp hc
    have hplain := (Plain.refl p i).word hstar (by decide)
    exact .of_assignment (by decide) rfl rfl hplain (fun _ => by rw [hstar]; decide) nofun
      (((hplain.name hp hname).word heq (by decide)).name hp hlocal).passes
  · cases hh

theorem fits_toElement (hp : p.WellFormed) {h : Hit}
    (hh : toElement p b i = some h) : h.Fits p b i := by
  unfold toElement at hh
  split at hh
  · next hc =>
    obtain ⟨_, hname, hopen⟩ := indexed_matches.mp hc
    cases hclose : p.listing.closing? (i + 2) with
    | none => rw [hclose] at hh; cases hh
    | some close =>
      rw [hclose] at hh
      dsimp only at hh
      split at hh
      · next hc' =>
        obtain rfl := Option.some.inj hh
        simp only [Bool.and_eq_true, indexedTail_matches] at hc'
        obtain ⟨⟨⟨hbracket, heq, hand, hlocal⟩, harg⟩, _⟩ := hc'
        have hlt := Listing.lt_of_closing? hclose
        have hplain := (Plain.refl p i).name hp hname
        refine .of_assignment (by omega) rfl rfl hplain
          (fun _ => hp.text_ne_of_bound harg (by decide)) nofun ?_
        intro k hik hk hb
        have htail : Plain p close (close + 3) :=
          (((Plain.refl p close).word heq (by decide)).word hand (by decide)).name hp hlocal
        -- the index may hold whole statements, but it stands in square brackets
        rcases Nat.lt_or_ge (i + 2) k with hk' | hk'
        · rcases Nat.lt_trichotomy k close with hlt | rfl | hgt
          · exact ⟨i + 2, hk', hopen, close, hclose, hlt⟩
          · rw [hbracket] at hb
            exact absurd hb (by decide)
          · exact absurd hb (htail k hgt (by omega))
        · exact absurd hb ((hplain.word hopen (by decide)) k hik (by omega))
      · cases hh
  · cases hh

theorem text_of_returnsElementAddress (h : returnsElementAddress p i = true) :
    p.listing.text i = "return" ∧ p.listing.text (i + 1) = "&" := by
  unfold returnsElementAddress at h
  obtain ⟨hm, _⟩ := Bool.and_eq_true_iff.mp h
  obtain ⟨hreturn, hand, _⟩ := returnElement_matches.mp hm
  exact ⟨hreturn, hand⟩

/-- Rules about returned addresses: the finding is anchored at the `return`, and nothing is passed
over. -/
theorem Hit.Fits.of_return {finding : Option Finding} (hreturn : p.listing.text i = "return")
    (hand : p.listing.text (i + 1) = "&")
    (hf : ∀ f ∈ finding, ∃ rule message, f = .definite i rule message ∧ rule ∈ rules ∧
      rule ≠ .autoVariables) : Hit.Fits p b i ⟨0, finding⟩ := by
  refine ⟨fun k hik hk => by dsimp only at hk; omega, ?_⟩
  intro f hmem
  obtain ⟨rule, message, rfl, hrule, hne⟩ := hf f hmem
  refine ⟨hrule, Nat.le_refl i, Nat.le_refl i, ?_, fun _ => hreturn, fun _ => hand,
    fun h => absurd h hne, nofun⟩
  exact .refl p i

theorem fits_returnOfLocal {h : Hit} (hh : returnOfLocal p b i = some h) :
    h.Fits p b i := by
  unfold returnOfLocal at hh
  split at hh
  · next hc =>
    obtain rfl := Option.some.inj hh
    have htext : p.listing.text i = "return" ∧ p.listing.text (i + 1) = "&" := by
      rcases Bool.or_eq_true_iff.mp hc with hc | hc
      · obtain ⟨hreturn, hand, _⟩ := returnAddress_matches.mp (Bool.and_eq_true_iff.mp hc).1
        exact ⟨hreturn, hand⟩
      · exact text_of_returnsElementAddress (Bool.and_eq_true_iff.mp hc).1
    refine .of_return htext.1 htext.2 ?_
    intro f hf
    obtain rfl := Option.some.inj hf
    exact ⟨_, _, rfl, by decide, by decide⟩
  · cases hh

theorem fits_returnOfArgument {h : Hit} (hh : returnOfArgument p b i = some h) :
    h.Fits p b i := by
  unfold returnOfArgument at hh
  split at hh
  · next hc =>
    obtain rfl := Option.some.inj hh
    obtain ⟨hreturn, hand, _⟩ := returnAddress_matches.mp (Bool.and_eq_true_iff.mp hc).1
    refine .of_return hreturn hand ?_
    intro f hf
    obtain ⟨_, rfl⟩ := mem_findingIf.mp hf
    exact ⟨_, _, rfl, by decide, by decide⟩
  · cases hh

/-! ## Deallocations -/

/-- The first name behind `i` is the one that nothing but other tokens separate from it. -/
theorem nextName?_eq_some {name : Nat} (hn : p.listing.isName name = true) (hi : i ≤ name)
    (hno : ∀ k, i ≤ k → k < name → p.listing.isName k = false) : nextName? p i = some name := by
  have hlt := Listing.lt_size_of_isName hn
  unfold nextName?
  rw [List.find?_range'_eq_some]
  refine ⟨hn, List.mem_range'_1.mpr ⟨hi, by omega⟩, ?_⟩
  intro k hik hk
  rw [hno k hik hk]
  rfl

/-- Between a `delete` and its operand stand brackets and a parenthesis only. -/
theorem text_before_deleteOperand (l : Listing) {k : Nat} (hik : i < k)
    (hk : k < deleteOperand l i) : l.text k = "[" ∨ l.text k = "]" ∨ l.text k = "(" := by
  have h₁ := l.le_passIf "[" (i + 1)
  have h₂ := l.le_passIf "]" (l.passIf "[" (i + 1))
  rcases Nat.lt_or_ge k (l.passIf "[" (i + 1)) with hk₁ | hk₁
  · exact .inl (Listing.text_of_lt_passIf hik hk₁)
  · rcases Nat.lt_or_ge k (l.passIf "]" (l.passIf "[" (i + 1))) with hk₂ | hk₂
    · exact .inr (.inl (Listing.text_of_lt_passIf hk₁ hk₂))
    · exact .inr (.inr (Listing.text_of_lt_passIf hk₂ hk))

theorem lt_deleteOperand (l : Listing) (i : Nat) : i < deleteOperand l i := by
  have h₁ := l.le_passIf "[" (i + 1)
  have h₂ := l.le_passIf "]" (l.passIf "[" (i + 1))
  have h₃ := l.le_passIf "(" (l.passIf "]" (l.passIf "[" (i + 1)))
  unfold deleteOperand
  omega

structure Operand (p : Program) (i name : Nat) : Prop where
  lt : i < name
  isName : p.listing.isName name = true
  between : ∀ k, i < k → k < name →
    p.listing.text k = "[" ∨ p.listing.text k = "]" ∨ p.listing.text k = "("

theorem exists_operand
    (h : (freePattern.matchesAt p i || deletePattern.matchesAt p i) = true) :
    ∃ name, Operand p i name := by
  rcases Bool.or_eq_true_iff.mp h with h | h
  · obtain ⟨_, hparen, hname, _⟩ := free_matches.mp h
    refine ⟨i + 2, by omega, hname, ?_⟩
    intro k hik hk
    obtain rfl : k = i + 1 := by omega
    exact .inr (.inr hparen)
  · obtain ⟨_, hname, _⟩ := delete_matches.mp h
    exact ⟨_, lt_deleteOperand _ _, hname, fun k hik hk => text_before_deleteOperand _ hik hk⟩

theorem Operand.nextName? (hp : p.WellFormed) {name : Nat} (h : Operand p i name) :
    nextName? p (i + 1) = some name := by
  refine nextName?_eq_some h.isName h.lt fun k hik hk => hp.listing.isName_eq_false ?_
  rcases h.between k hik hk with ht | ht | ht <;> rw [ht] <;> rfl

theorem Operand.plain (hp : p.WellFormed) {name : Nat} (h : Operand p i name) :
    Plain p i name := by
  have hbefore : Plain p i (name - 1) := by
    intro k hik hk
    have := h.lt
    rcases h.between k hik (by omega) with ht | ht | ht <;> rw [ht] <;> decide
  have he : name - 1 + 1 = name := Nat.succ_pred_eq_of_pos (Nat.lt_of_le_of_lt (Nat.zero_le i) h.lt)
  have hplain := hbefore.name hp (he ▸ h.isName)
  rwa [he] at hplain

theorem fits_deallocation (hp : p.WellFormed) {h : Hit}
    (hh : deallocation p b i = some h) : h.Fits p b i := by
  unfold deallocation at hh
  split at hh
  · next hc =>
    obtain ⟨name, hop⟩ := exists_operand hc
    rw [hop.nextName? hp] at hh
    obtain rfl := Option.some.inj hh
    have hlt := hop.lt
    have hend : i + (name - i) = name := by omega
    refine ⟨?_, ?_⟩
    · dsimp only
      exact Plain.passes (hend.symm ▸ hop.plain hp)
    · intro f hf
      obtain ⟨harray, rfl⟩ := mem_findingIf.mp hf
      refine ⟨by simp [Finding.definite, rules], Nat.le_of_lt hlt, ?_, hop.plain hp, ?_, ?_, nofun,
        nofun⟩
      · dsimp only [Finding.definite]
        omega
      · intro he
        dsimp only [Finding.definite] at he
        omega
      · intro ht
        exact absurd ht (hp.text_ne_of_bound harray (by decide))
  · cases hh

/-! ## The first rule that applies -/

/-- **Every hit fits**, whichever rule makes it. -/
theorem fits_hit? (hp : p.WellFormed) {h : Hit} (hh : hit? p b i = some h) :
    h.Fits p b i := by
  obtain ⟨m, hm, hh⟩ := List.exists_of_findSome?_eq_some hh
  simp only [matchers, List.mem_cons, List.not_mem_nil, or_false] at hm
  rcases hm with rfl | rfl | rfl | rfl | rfl | rfl | rfl | rfl | rfl
  · exact fits_toReference hp hh
  · exact fits_throughPointer hp hh
  · exact fits_toMember hp hh
  · exact fits_arrayToMember hp hh
  · exact fits_arrayThroughPointer hp hh
  · exact fits_toElement hp hh
  · exact fits_returnOfLocal hh
  · exact fits_returnOfArgument hh
  · exact fits_deallocation hp hh

/-- The rules about assigned parameters report nothing else, and each of the others has a name of
its own for what it reports. -/
theorem rule_of_hit? {h : Hit} (hh : hit? p b i = some h) {f : Finding} (hf : f ∈ h.finding) :
    f.rule = .autoVariables ∨
      f.rule = .returnAddressOfAutoVariable ∧ returnOfLocal p b i = some h ∨
      f.rule = .returnAddressOfFunctionParameter ∧ returnOfArgument p b i = some h ∨
      f.rule = .autovarInvalidDeallocation ∧ deallocation p b i = some h := by
  have certain_rule : ∀ {c : Bool}, f ∈ findingIf c (certain i) → f.rule = .autoVariables :=
    fun hf => by rw [(mem_findingIf.mp hf).2]; rfl
  have uncertain_rule : ∀ {c : Bool}, f ∈ findingIf c (uncertain i) → f.rule = .autoVariables :=
    fun hf => by rw [(mem_findingIf.mp hf).2]; rfl
  have applies : ∀ {c : Prop} [Decidable c] {x : Hit}, (if c then some x else none) = some h →
      f ∈ x.finding := by
    intro c _ x hx
    obtain rfl := Option.some.inj (Option.ite_none_right_eq_some.mp hx).2
    exact hf
  obtain ⟨m, hm, hh⟩ := List.exists_of_findSome?_eq_some hh
  simp only [matchers, List.mem_cons, List.not_mem_nil, or_false] at hm
  rcases hm with rfl | rfl | rfl | rfl | rfl | rfl | rfl | rfl | rfl
  · exact .inl (certain_rule (applies hh))
  · exact .inl (certain_rule (applies hh))
  · exact .inl (uncertain_rule (applies hh))
  · exact .inl (uncertain_rule (applies hh))
  · exact .inl (certain_rule (applies hh))
  · obtain ⟨_, hclose⟩ := Option.ite_none_right_eq_some.mp hh
    cases hc : p.listing.closing? (i + 2) with
    | none =>
      rw [hc] at hclose
      cases hclose
    | some close =>
      rw [hc] at hclose
      exact .inl (certain_rule (applies hclose))
  · obtain rfl := Option.some.inj (applies hh)
    exact .inr (.inl ⟨rfl, hh⟩)
  · obtain ⟨_, rfl⟩ := mem_findingIf.mp (applies hh)
    exact .inr (.inr (.inl ⟨rfl, hh⟩))
  · obtain ⟨_, hname⟩ := Option.ite_none_right_eq_some.mp hh
    obtain ⟨name, _, rfl⟩ := Option.map_eq_some_iff.mp hname
    obtain ⟨_, rfl⟩ := mem_findingIf.mp hf
    exact .inr (.inr (.inr ⟨rfl, hh⟩))

end Assignment

end StackEscape
