import StackEscape.Proofs.Program.History

/-!
# What a name can reach

All names of a declaration are entered when the first one is read, so before the initializers that
stand between them. A name is therefore bound to a variable whose declaration has begun, which is
not the same as a variable that is declared in front of the name: in `int a = b, b = 2;` the first
`b` refers to the second one.
-/

namespace StackEscape

theorem SymbolTable.begun_typed (t : SymbolTable) (v : Variable) (i : Nat) :
    t.resolveTypes.Begun (t.typed v) i ↔ t.Begun v i := by
  unfold Begun
  rw [t.role_typed, t.scope_typed, t.typeStart_typed]
  refine and_congr_right fun _ => ⟨?_, ?_⟩
  · rintro ⟨id', v', hv', hrest⟩
    obtain ⟨w, hw, rfl⟩ := hv'.exists_of_resolveTypes
    rw [t.role_typed, t.typeStart_typed, t.nameToken_typed] at hrest
    exact ⟨id', w, hw, hrest⟩
  · rintro ⟨id', w, hw, hrest⟩
    refine ⟨id', t.typed w, hw.resolveTypes, ?_⟩
    rw [t.role_typed, t.typeStart_typed, t.nameToken_typed]
    exact hrest

namespace Program

/-- A local or an argument is in reach of the token at `i`: it is declared in front, or along with a
name that is, and the block of a local is open. -/
def InReach (p : Program) (v : Variable) (i : Nat) : Prop :=
  (v.nameToken < i ∨ p.symbols.Begun v i) ∧
    (v.role = .local → ∃ o, p.listing.Innermost o v.nameToken ∧ p.listing.Encloses o i)

/-- The name at `i` in the body of the function with the scope `s` refers to the variable `v` at the
place `id`, a member or the latest variable of the function that is in reach. -/
structure Reaches (p : Program) (s : Scope) (i : Nat) (id : VariableId) (v : Variable) : Prop where
  found : p.symbols.getVariable? id = some v
  own : v.role ≠ .member → v.scope = s.id ∧ (v.nameToken < i ∨ p.symbols.Begun v i)
  block : p.listing.TypesComplete s.start s.stop → v.role = .local →
    ∃ o, p.listing.Innermost o v.nameToken ∧ p.listing.Encloses o i
  latest : ∀ id' v', p.symbols.Owns s.id id' v' → v'.name = p.text i → p.InReach v' i →
    id' ≤ id ∧ v.role ≠ .member

/-- Where types are complete, a variable of the function that a name refers to is in reach. -/
theorem Reaches.inReach {p : Program} {s : Scope} {i : Nat} {id : VariableId} {v : Variable}
    (h : p.Reaches s i id v) (hcomplete : p.listing.TypesComplete s.start s.stop)
    (hrole : v.role ≠ .member) : p.symbols.Owns s.id id v ∧ p.InReach v i :=
  ⟨⟨h.found, (h.own hrole).1, hrole⟩, (h.own hrole).2, h.block hcomplete⟩

/-- Locals stand in the body of their function. -/
theorem start_lt_of_local {file source : String} {p : Program} (h : ofSource file source = .ok p)
    {s : Scope} (hs : s ∈ p.symbols.functionScopes) {id : VariableId} {v : Variable}
    (hv : p.symbols.Owns s.id id v) (hlocal : v.role = .local) : s.start < v.nameToken := by
  obtain ⟨t, ht⟩ := exists_history h
  rw [ht.symbols] at hv
  obtain ⟨w, hw, rfl⟩ := hv.exists_of_resolveTypes
  rw [t.role_typed] at hlocal
  rw [t.nameToken_typed]
  exact (ht.inside s hs id w hw hlocal).1

/-- A bound name in a function body is that of a declaration, or it reaches what it is bound to. -/
theorem exists_reaches {file source : String} {p : Program} (h : ofSource file source = .ok p)
    {s : Scope} (hs : s ∈ p.symbols.functionScopes) {i : Nat} (hi : s.start < i) (his : i < s.stop)
    {id : VariableId} (hb : p.variableIdAt? i = some id) :
    ∃ v, p.symbols.getVariable? id = some v ∧ (v.nameToken = i ∨ p.Reaches s i id v) := by
  have hp := wellFormed_ofSource h
  have hbody := hp.bodies s hs
  obtain ⟨t, ht⟩ := exists_history h
  obtain ⟨f, hran⟩ := ht.ran s hs
  rw [ht.variableIdAt?_eq] at hb
  have htyped : ∀ {w}, t.getVariable? id = some w →
      p.symbols.getVariable? id = some (t.typed w) := by
    intro w hw
    rw [ht.symbols, SymbolTable.getVariable?_resolveTypes, hw]
    rfl
  have declared : t.DeclaredAt s i id →
      ∃ v, p.symbols.getVariable? id = some v ∧ (v.nameToken = i ∨ p.Reaches s i id v) := by
    rintro ⟨w, hw, hname, _⟩
    exact ⟨t.typed w, htyped hw, .inl ((t.nameToken_typed w).trans hname)⟩
  rcases hran.cases_of_bound hi his hb with hdeclared | hmention
  · exact declared hdeclared
  have hname := (Bool.and_eq_true_iff.mp (Body.isMention_of_mention_mem hmention)).1
  obtain ⟨u, frames, outer, os, hsees, hfind, _⟩ := hran.sees_of_mention hp.listing hbody hmention
  rcases hfind id hb with hdeclared | hfind
  · exact declared hdeclared
  obtain ⟨w, hw, hown, _⟩ := hsees.exists_of_find? hfind
  refine ⟨t.typed w, htyped hw, .inr ⟨htyped hw, ?_, ?_, ?_⟩⟩
  · rw [t.role_typed, t.scope_typed, t.nameToken_typed, ht.symbols, t.begun_typed]
    intro hrole
    obtain ⟨hmem, hscope⟩ := hown hrole
    exact ⟨hscope, hsees.lt_or_begun_of_mem hi hmem hw⟩
  · rw [t.role_typed, t.nameToken_typed]
    intro hcomplete hlocal
    obtain ⟨hmem, _⟩ := hown (by rw [hlocal]; decide)
    have hu := hsees.owns_of_mem hmem hw
    exact hsees.tracks.encloses_of_mem hp.listing hcomplete hname hmem hu.1 hlocal
  · rw [t.role_typed]
    rintro id' v' hv' hname' ⟨hbegun, hblock⟩
    rw [ht.symbols] at hv' hbegun
    obtain ⟨x, hx, rfl⟩ := hv'.exists_of_resolveTypes
    rw [t.name_typed] at hname'
    rw [t.nameToken_typed, t.begun_typed] at hbegun
    rw [t.role_typed, t.nameToken_typed] at hblock
    have hu : u.Owns s.id id' x := by
      rcases hbegun with hlt | hbegun
      · exact hsees.owns_of_lt hx hlt
      · exact hsees.entered id' x hx (Nat.le_of_lt (ht.inside s hs id' x hx hbegun.1).2) hbegun
    obtain ⟨found, y, hfound, hle, hy⟩ := hsees.exists_find?_of_encloses hbody hu hblock
    rw [hname', show p.text i = p.listing.text i from rfl, hfind] at hfound
    obtain rfl := Option.some.inj hfound
    obtain rfl := Option.some.inj (hy.1.symm.trans hw)
    exact ⟨hle, hy.2.2⟩

/-- **Names refer to what has begun.** A name in a function body that is bound to a local is the
name of that local, or it stands behind the first name that the declaration of the local declares.
Unless the name is a declared one, it is bound to the latest variable of the function that is in
reach. -/
theorem le_or_begun_of_bound {file source : String} {p : Program}
    (h : ofSource file source = .ok p) {s : Scope} (hs : s ∈ p.symbols.functionScopes) {i : Nat}
    (hi : s.start < i) (his : i < s.stop) {id : VariableId} (hb : p.variableIdAt? i = some id) :
    ∃ v, p.symbols.getVariable? id = some v ∧
      (v.role = .local → v.nameToken ≤ i ∨ p.symbols.Begun v i) ∧
      (v.nameToken ≠ i → ∀ id' v', p.symbols.Owns s.id id' v' → v'.name = p.text i →
        p.InReach v' i → id' ≤ id ∧ v.role ≠ .member) := by
  obtain ⟨v, hv, hcases⟩ := exists_reaches h hs hi his hb
  refine ⟨v, hv, fun hlocal => ?_, fun hne => (hcases.resolve_left hne).latest⟩
  rcases hcases with he | hreaches
  · exact .inl (Nat.le_of_eq he)
  · exact (hreaches.own (by rw [hlocal]; decide)).2.imp_left Nat.le_of_lt

/-- What is computed of a program to tell that the token at `i` in a function body is bound to the
local at the place `id`, whose name token is `name`. -/
def BoundToLocal (i : Nat) (id : VariableId) (name : Nat) (p : Program) : Prop :=
  p.variableIdAt? i = some id ∧ ∃ s ∈ p.symbols.functionScopes, s.start < i ∧ i < s.stop ∧
    ∃ v ∈ p.symbols.getVariable? id, v.scope = s.id ∧ v.role = .local ∧ v.nameToken = name

instance (i : Nat) (id : VariableId) (name : Nat) : DecidablePred (BoundToLocal i id name) :=
  fun p => inferInstanceAs (Decidable (_ ∧ ∃ s ∈ p.symbols.functionScopes, _))

/-- The initializer of `c` refers to its sibling `a`, which is declared in front. -/
theorem le_or_begun_of_bound_front :
    ∃ p s v, ofSource "a.cpp" "void f(){int b=1;int a=b,c=a;}" = .ok p ∧
      s ∈ p.symbols.functionScopes ∧ s.start < 17 ∧ 17 < s.stop ∧ p.variableIdAt? 17 = some 1 ∧
      p.symbols.getVariable? 1 = some v ∧
      (v.role = .local → v.nameToken ≤ 17 ∨ p.symbols.Begun v 17) ∧
      (v.nameToken ≠ 17 → ∀ id' v', p.symbols.Owns s.id id' v' → v'.name = p.text 17 →
        p.InReach v' 17 → id' ≤ 1 ∧ v.role ≠ .member) := by
  obtain ⟨p, hp, hb, s, hs, hstart, hstop, _⟩ :
      ∃ p, ofSource "a.cpp" "void f(){int b=1;int a=b,c=a;}" = .ok p ∧ BoundToLocal 17 1 11 p :=
    exists_of_any (by decide +kernel)
  obtain ⟨v, hv, hrest⟩ := le_or_begun_of_bound hp hs hstart hstop hb
  exact ⟨p, s, v, hp, hs, hstart, hstop, hb, hv, hrest⟩

/-- The initializer of `a` refers to its sibling `b`, which is declared behind. -/
theorem bound_to_sibling_behind :
    ∃ p s v, ofSource "test.cpp" "void f(){int b=1;{int a=b,b=2;}}" = .ok p ∧
      s ∈ p.symbols.functionScopes ∧ s.start < 14 ∧ 14 < s.stop ∧ p.variableIdAt? 14 = some 2 ∧
      p.symbols.Owns s.id 2 v ∧ v.role = .local ∧ 14 < v.nameToken := by
  obtain ⟨p, hp, hb, s, hs, hstart, hstop, v, hv, hscope, hlocal, hname⟩ :
      ∃ p, ofSource "test.cpp" "void f(){int b=1;{int a=b,b=2;}}" = .ok p ∧
        BoundToLocal 14 2 16 p := exists_of_any (by decide +kernel)
  exact ⟨p, s, v, hp, hs, hstart, hstop, hb, ⟨hv, hscope, by rw [hlocal]; decide⟩, hlocal,
    by rw [hname]; decide⟩

end Program

end StackEscape
