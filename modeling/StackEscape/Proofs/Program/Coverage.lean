import StackEscape.Proofs.Outline.LocalTypes
import StackEscape.Proofs.Program.History

/-!
# Which uses are resolved

A name in a function body that a local or an argument in sight is called by is bound, unless the
walk through the body passes over it along with what it takes for the definition of a local type.
The end of such a definition is looked for by its first `{`, which need not belong to it: the head
of a loop over a range may begin with the same word, and then the body of the loop is passed over.
-/

namespace StackEscape

namespace Program

/-- The token at `i` belongs to the type of a declaration in the body of the function with the scope
`s`: it stands in front of all the names that the declaration declares. -/
def InTypeTokens (p : Program) (s : Scope) (i : Nat) : Prop :=
  ∃ id v, p.symbols.Owns s.id id v ∧ v.role = .local ∧ v.typeStart ≤ i ∧
    ∀ id' v', p.symbols.Owns s.id id' v' → v'.role = .local → v'.typeStart = v.typeStart →
      i < v'.nameToken

/-- A name that stands in a declaration is the first name declared there or belongs to the type. -/
theorem inTypeTokens_of_inDeclaration {p : Program} (hp : p.WellFormed) {t : SymbolTable}
    (ht : p.History t) {s : Scope} {f : Function} (hran : Ran p.listing s f t) {i : Nat}
    (his : i < s.stop)
    (h : Body.InDeclaration p.listing s.stop (s.start + 1) true i)
    (hno : ∀ id v, t.getVariable? id = some v → v.nameToken ≠ i) : p.InTypeTokens s i := by
  obtain ⟨x, d, hreads, hd, hxi, hid⟩ := h
  have hfirst : d.first ∈ d.declarators := List.mem_cons_self
  obtain ⟨id, hv⟩ := hran.exists_of_declare_mem hd hfirst
  have hstart := (Declaration.readFrom_ofTokens? hp.listing hreads _ hfirst).1.typeStart
  have hlt : i < d.first.nameToken := Nat.lt_of_le_of_ne hid fun he => hno id _ hv.1 he.symm
  refine ⟨id, _, ht.symbols ▸ hv.resolveTypes, by simp [Declarator.toVariable], ?_, ?_⟩
  · rw [t.typeStart_typed]
    exact Nat.le_trans (Nat.le_of_eq hstart) hxi
  · intro id' v' hv' hlocal hsame
    rw [ht.symbols] at hv'
    obtain ⟨w, hw, rfl⟩ := hv'.exists_of_resolveTypes
    rw [t.role_typed] at hlocal
    rw [t.typeStart_typed, t.typeStart_typed] at hsame
    rw [t.nameToken_typed]
    rcases Nat.lt_or_ge s.stop w.nameToken with hbehind | hbefore
    · omega
    obtain ⟨d', hd', y, hy, rfl⟩ := hran.exists_declare_of_local hw hlocal hbefore
    obtain rfl := Body.eq_of_typeStart_eq hp.listing hd' hd hy hfirst hsame
    exact Nat.lt_of_lt_of_le hlt (Declaration.readFrom_ofTokens? hp.listing hreads y hy).2

/-- A name in sight is bound unless the walk through the body passes over it. -/
theorem isSome_of_not_passesOver {file source : String} {p : Program}
    (h : ofSource file source = .ok p) {s : Scope} (hs : s ∈ p.symbols.functionScopes) {i : Nat}
    (hi : s.start < i) (his : i < s.stop) (hmention : Body.isMention p.listing i = true)
    (htype : ¬ p.InTypeTokens s i) {id : VariableId} {v : Variable}
    (hv : p.symbols.Owns s.id id v) (hname : v.name = p.text i) (hsight : p.listing.InSight v i)
    (hpasses : ¬ Body.PassesOver p.listing s.stop (s.start + 1) true i) :
    (p.variableIdAt? i).isSome = true := by
  have hp := wellFormed_ofSource h
  have hbody := hp.bodies s hs
  obtain ⟨t, ht⟩ := exists_history h
  obtain ⟨f, hran⟩ := ht.ran s hs
  rw [ht.variableIdAt?_eq]
  by_cases hdecl : ∃ id' w, t.getVariable? id' = some w ∧ w.nameToken = i
  · obtain ⟨id', w, hw, rfl⟩ := hdecl
    exact ht.declared id' w hw
  have hinside : ¬ Body.InDeclaration p.listing s.stop (s.start + 1) true i := fun hin =>
    htype (inTypeTokens_of_inDeclaration hp ht hran his hin
      fun id' w hw hwi => hdecl ⟨id', w, hw, hwi⟩)
  have hfor : p.listing.text i ≠ "for" := by
    intro hfor
    have hfree := (hp.named.vars id v hv.1).free
    rw [hname, show p.text i = "for" from hfor] at hfree
    exact absurd hfree (by decide)
  have hm := Body.mention_mem hmention hi his hp.listing hinside hpasses hfor
  obtain ⟨u, frames, outer, os, hsees, _, hbound⟩ := hran.sees_of_mention hp.listing hbody hm
  rw [ht.symbols] at hv
  obtain ⟨w, hw, rfl⟩ := hv.exists_of_resolveTypes
  rw [Listing.inSight_typed] at hsight
  rw [t.name_typed] at hname
  obtain ⟨found, _, hfound, _⟩ := hsees.exists_find? hbody hw hsight
  refine hbound ?_
  rw [show p.listing.text i = w.name from hname.symm, hfound]
  rfl

/-- **Uses are resolved** where the walk through the body comes by. A name in a function body that
belongs to no type, and that is the name of a local or an argument in sight, is bound exactly if it
is declared there or not passed over with a local type. -/
theorem isSome_variableIdAt?_iff {file source : String} {p : Program}
    (h : ofSource file source = .ok p) {s : Scope} (hs : s ∈ p.symbols.functionScopes) {i : Nat}
    (hi : s.start < i) (his : i < s.stop) (hmention : Body.isMention p.listing i = true)
    (htype : ¬ p.InTypeTokens s i) {id : VariableId} {v : Variable}
    (hv : p.symbols.Owns s.id id v) (hname : v.name = p.text i) (hsight : p.listing.InSight v i) :
    (p.variableIdAt? i).isSome = true ↔
      (∃ id' v', p.symbols.getVariable? id' = some v' ∧ v'.nameToken = i) ∨
        ¬ Body.PassesOver p.listing s.stop (s.start + 1) true i := by
  obtain ⟨t, ht⟩ := exists_history h
  obtain ⟨f, hran⟩ := ht.ran s hs
  constructor
  · intro hbound
    rw [ht.variableIdAt?_eq] at hbound
    obtain ⟨found, hfound⟩ := Option.isSome_iff_exists.mp hbound
    rcases hran.cases_of_bound hi his hfound with ⟨w, hw, hwi, _⟩ | hm
    · refine .inl ⟨found, t.typed w, ?_, (t.nameToken_typed w).trans hwi⟩
      rw [ht.symbols, SymbolTable.getVariable?_resolveTypes, hw]
      rfl
    · exact .inr fun hpasses => hpasses.not_mention hm
  · rintro (⟨id', v', hv', rfl⟩ | hpasses)
    · rw [ht.symbols] at hv'
      obtain ⟨w, hw, rfl⟩ := SymbolTable.exists_of_resolveTypes hv'
      rw [ht.variableIdAt?_eq, t.nameToken_typed]
      exact ht.declared id' w hw
    · exact isSome_of_not_passesOver h hs hi his hmention htype hv hname hsight hpasses

/-- **Outside of local types, a use is lost only to a word for a type** that a statement may begin
with: the use stands in the head behind that word, or in braces that the head does not open. -/
theorem head_or_foreign_of_unbound {file source : String} {p : Program}
    (h : ofSource file source = .ok p) {s : Scope} (hs : s ∈ p.symbols.functionScopes) {i : Nat}
    (hi : s.start < i) (his : i < s.stop) (hmention : Body.isMention p.listing i = true)
    (htype : ¬ p.InTypeTokens s i) {id : VariableId} {v : Variable}
    (hv : p.symbols.Owns s.id id v) (hname : v.name = p.text i) (hsight : p.listing.InSight v i)
    (hout : ¬ p.listing.InLocalType s.start i) (hunbound : p.variableIdAt? i = none) :
    ∃ m o c, Body.ComesBy p.listing s.stop (s.start + 1) true m true ∧
      p.text m ∈ Body.typeWords ∧ p.listing.OpensFirst m o ∧ p.listing.closing? o = some c ∧
      m ≤ i ∧ i < c ∧ (i < o ∨ ¬ p.listing.DefinesType m o) := by
  have hpasses : Body.PassesOver p.listing s.stop (s.start + 1) true i := by
    by_contra hno
    have hbound := isSome_of_not_passesOver h hs hi his hmention htype hv hname hsight hno
    rw [hunbound] at hbound
    cases hbound
  exact hpasses.head_or_foreign (wellFormed_ofSource h).listing (Nat.lt_succ_self _)
    (Bool.and_eq_true_iff.mp hmention).1 hout

/-- What is computed of a program without locals to tell that the token at `i` is a use of the first
argument of a function, outside of local types. -/
def UsesArgument (i : Nat) (p : Program) : Prop :=
  (∃ s ∈ p.symbols.functionScopes, ∃ v ∈ p.symbols.getVariable? 0, s.start < i ∧ i < s.stop ∧
    ¬ p.listing.InLocalType s.start i ∧ v.scope = s.id ∧ v.role = .argument ∧
    v.name = p.text i ∧ v.nameToken < i) ∧
  Body.isMention p.listing i = true ∧ ∀ v ∈ p.symbols.vars, v.role ≠ .local

instance (i : Nat) : DecidablePred (UsesArgument i) := fun p =>
  inferInstanceAs (Decidable ((∃ s ∈ p.symbols.functionScopes, _) ∧ _ ∧ _))

theorem not_inTypeTokens {p : Program} (h : ∀ v ∈ p.symbols.vars, v.role ≠ .local) (s : Scope)
    (i : Nat) : ¬ p.InTypeTokens s i := by
  rintro ⟨_, v, hv, hlocal, _⟩
  exact h v (Array.mem_of_getElem? hv.1) hlocal

theorem inSight_of_argument {l : Listing} {v : Variable} {i : Nat} (hrole : v.role = .argument)
    (hi : v.nameToken < i) : l.InSight v i := by
  refine ⟨hi, fun hlocal => ?_⟩
  rw [hrole] at hlocal
  cases hlocal

theorem isSome_variableIdAt?_iff_argument :
    ∃ p s v, ofSource "a.cpp" "void f(int x){struct T{int y;};{x;}}" = .ok p ∧
      s ∈ p.symbols.functionScopes ∧ s.start < 16 ∧ 16 < s.stop ∧
      Body.isMention p.listing 16 = true ∧ ¬ p.InTypeTokens s 16 ∧ p.symbols.Owns s.id 0 v ∧
      v.name = p.text 16 ∧ p.listing.InSight v 16 ∧
      ((p.variableIdAt? 16).isSome = true ↔
        (∃ id' v', p.symbols.getVariable? id' = some v' ∧ v'.nameToken = 16) ∨
          ¬ Body.PassesOver p.listing s.stop (s.start + 1) true 16) := by
  obtain ⟨p, hp, ⟨s, hs, v, hv, hstart, hstop, _, hscope, hrole, hname, hbefore⟩, hmention, hno⟩ :
      ∃ p, ofSource "a.cpp" "void f(int x){struct T{int y;};{x;}}" = .ok p ∧ UsesArgument 16 p :=
    exists_of_any (by decide +kernel)
  have hown : p.symbols.Owns s.id 0 v := ⟨hv, hscope, by rw [hrole]; decide⟩
  have hsight : p.listing.InSight v 16 := inSight_of_argument hrole hbefore
  exact ⟨p, s, v, hp, hs, hstart, hstop, hmention, not_inTypeTokens hno s 16, hown, hname, hsight,
    isSome_variableIdAt?_iff hp hs hstart hstop hmention (not_inTypeTokens hno s 16) hown hname
      hsight⟩

/-- In the body of `for (struct S s : list)` the argument `x` is in sight, and its use is
unbound. -/
theorem argument_unbound :
    ∃ p s v, ofSource "test.cpp" "void f(int x){for(struct S s:list){x;}}" = .ok p ∧
      s ∈ p.symbols.functionScopes ∧ s.start < 16 ∧ 16 < s.stop ∧
      Body.isMention p.listing 16 = true ∧ ¬ p.InTypeTokens s 16 ∧
      ¬ p.listing.InLocalType s.start 16 ∧ p.symbols.Owns s.id 0 v ∧ v.name = p.text 16 ∧
      p.listing.InSight v 16 ∧ p.variableIdAt? 16 = none := by
  obtain ⟨p, hp, ⟨⟨s, hs, v, hv, hstart, hstop, houtside, hscope, hrole, hname, hbefore⟩, hmention,
      hno⟩, hnone⟩ :
      ∃ p, ofSource "test.cpp" "void f(int x){for(struct S s:list){x;}}" = .ok p ∧
        UsesArgument 16 p ∧ p.variableIdAt? 16 = none := exists_of_any (by decide +kernel)
  exact ⟨p, s, v, hp, hs, hstart, hstop, hmention, not_inTypeTokens hno s 16, houtside,
    ⟨hv, hscope, by rw [hrole]; decide⟩, hname, inSight_of_argument hrole hbefore, hnone⟩

end Program

end StackEscape
