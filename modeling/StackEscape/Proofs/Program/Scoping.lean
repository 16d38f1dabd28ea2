import StackEscape.Proofs.Program.History

/-!
# Names respect blocks

In a body whose types are complete, a name that is bound without being declared there refers to a
variable whose declaration is in sight, and to the latest one of its name.
-/

namespace StackEscape

namespace Program

/-- What the name at `i` in the body of the function with the scope `s` refers to: the variable `v`
at the place `id`. -/
structure RefersTo (p : Program) (s : Scope) (i : Nat) (id : VariableId) (v : Variable) :
    Prop where
  found : p.symbols.getVariable? id = some v
  name : v.name = p.text i
  plain : p.listing.textBefore i ≠ "." ∧ p.listing.textBefore i ≠ "::"
  /-- Locals and arguments belong to the function, and the block of a local is open. -/
  own : v.role ≠ .member → v.scope = s.id ∧
    (v.role = .local → ∃ o, p.listing.Innermost o v.nameToken ∧ p.listing.Encloses o i)
  /-- No other local or argument of the function that is in sight hides it. -/
  latest : ∀ id' v', p.symbols.Owns s.id id' v' → v'.name = p.text i → p.listing.InSight v' i →
    id' ≤ id ∧ v.role ≠ .member

/-- **Names respect blocks.** In a function body whose types are complete, every bound name that is
not the name of a declaration refers to the latest declaration in sight. -/
theorem refersTo_of_bound {file source : String} {p : Program}
    (h : ofSource file source = .ok p) {s : Scope} (hs : s ∈ p.symbols.functionScopes)
    (hcomplete : p.listing.TypesComplete s.start s.stop) {i : Nat} (hi : s.start < i)
    (his : i < s.stop) {id : VariableId} (hb : p.variableIdAt? i = some id)
    (hno : ∀ id' v', p.symbols.getVariable? id' = some v' → v'.nameToken ≠ i) :
    ∃ v, p.RefersTo s i id v := by
  have hp := wellFormed_ofSource h
  have hbody := hp.bodies s hs
  obtain ⟨t, ht⟩ := exists_history h
  obtain ⟨f, hran⟩ := ht.ran s hs
  have hb' := hb
  rw [ht.variableIdAt?_eq] at hb
  have hno : ∀ id' v', t.getVariable? id' = some v' → v'.nameToken ≠ i := by
    intro id' v' hv'
    rw [← t.nameToken_typed]
    refine hno id' (t.typed v') ?_
    rw [ht.symbols, SymbolTable.getVariable?_resolveTypes, hv']
    rfl
  rcases hran.cases_of_bound hi his hb with ⟨v, hv, hname, _⟩ | hmention
  · exact absurd hname (hno id v hv)
  obtain ⟨hname, hplain⟩ := Bool.and_eq_true_iff.mp (Body.isMention_of_mention_mem hmention)
  obtain ⟨u, frames, outer, os, hsees, hfind, _⟩ := hran.sees_of_mention hp.listing hbody hmention
  have hfind := (hfind id hb).resolve_left fun ⟨v, hv, hname, _⟩ => hno id v hv hname
  obtain ⟨v, hv, hown, _⟩ := hsees.exists_of_find? hfind
  have htyped : p.symbols.getVariable? id = some (t.typed v) := by
    rw [ht.symbols, SymbolTable.getVariable?_resolveTypes, hv]
    rfl
  refine ⟨t.typed v, htyped, ?_, ?_, ?_, ?_⟩
  · obtain ⟨w, hw, hwname⟩ := (hp.named.bindings i id hb').2
    obtain rfl := Option.some.inj (hw.symm.trans htyped)
    exact hwname
  · simpa using hplain
  · rw [t.role_typed, t.scope_typed, t.nameToken_typed]
    intro hrole
    obtain ⟨hmem, hscope⟩ := hown hrole
    refine ⟨hscope, fun hlocal => ?_⟩
    obtain ⟨w, hw, hwt⟩ := hsees.exists_of_mem hmem
    obtain rfl := Option.some.inj (hwt.1.symm.trans hv)
    exact hsees.tracks.encloses_of_mem hp.listing hcomplete hname hmem hw.1 hlocal
  · rw [ht.symbols]
    rintro id' v' hv' hname' hsight
    obtain ⟨w, hw, rfl⟩ := hv'.exists_of_resolveTypes
    rw [t.name_typed] at hname'
    rw [Listing.inSight_typed] at hsight
    obtain ⟨found, x, hfound, hle, hx⟩ := hsees.exists_find? hbody hw hsight
    rw [hname', show p.text i = p.listing.text i from rfl, hfind] at hfound
    obtain rfl := Option.some.inj hfound
    obtain rfl := Option.some.inj (hx.1.symm.trans hv)
    rw [t.role_typed]
    exact ⟨hle, hx.2.2⟩

/-- What is computed of a program to tell that the name at `i` is bound to `id` in a function body
whose types are complete, and is declared nowhere. -/
def BoundInBody (i : Nat) (id : VariableId) (p : Program) : Prop :=
  (∃ s ∈ p.symbols.functionScopes, p.listing.TypesComplete s.start s.stop ∧ s.start < i ∧
    i < s.stop) ∧ p.variableIdAt? i = some id ∧ ∀ v ∈ p.symbols.vars, v.nameToken ≠ i

instance (i : Nat) (id : VariableId) : DecidablePred (BoundInBody i id) := fun p =>
  inferInstanceAs (Decidable ((∃ s ∈ p.symbols.functionScopes, _) ∧ _))

/-- The inner `x` hides the argument. -/
theorem refersTo_of_bound_inner :
    ∃ p s v, ofSource "a.cpp" "void f(int x){struct T{int y;};{int x;x=1;}x;}" = .ok p ∧
      s ∈ p.symbols.functionScopes ∧ p.listing.TypesComplete s.start s.stop ∧ s.start < 19 ∧
      19 < s.stop ∧ p.variableIdAt? 19 = some 1 ∧
      (∀ id' v', p.symbols.getVariable? id' = some v' → v'.nameToken ≠ 19) ∧
      p.RefersTo s 19 1 v := by
  obtain ⟨p, hp, ⟨s, hs, hcomplete, hstart, hstop⟩, hb, hno⟩ :
      ∃ p, ofSource "a.cpp" "void f(int x){struct T{int y;};{int x;x=1;}x;}" = .ok p ∧
        BoundInBody 19 1 p := exists_of_any (by decide +kernel)
  have hno : ∀ id' v', p.symbols.getVariable? id' = some v' → v'.nameToken ≠ 19 :=
    fun _ v' hv' => hno v' (Array.mem_of_getElem? hv')
  obtain ⟨v, hv⟩ := refersTo_of_bound hp hs hcomplete hstart hstop hb hno
  exact ⟨p, s, v, hp, hs, hcomplete, hstart, hstop, hb, hno, hv⟩

end Program

end StackEscape
