import StackEscape.Proofs.Program.History
import StackEscape.Proofs.Symbol.Register

/-!
# The symbols of a program

What the symbol table of every source that parses looks like: its scopes form a tree, and its
entries agree with each other and with the tokens.
-/

namespace StackEscape

/-! ## Classes -/

def Scope.DeclaresClass (s : Scope) (name : String) : Prop := s.kind = .classBody ∧ s.name = name

namespace SymbolTable

/-- The scope at the place `id` is the first body of a class of the given name. -/
structure FirstClass (t : SymbolTable) (name : String) (id : ScopeId) : Prop where
  found : ∃ s, t.getScope? id = some s ∧ s.DeclaresClass name
  first : ∀ id' s, id' < id → t.getScope? id' = some s → ¬ s.DeclaresClass name

section
variable {t : SymbolTable} {name : String}

theorem declaresClass_iff {s : Scope} :
    (decide (s.kind = .classBody) && decide (s.name = name)) = true ↔ s.DeclaresClass name := by
  rw [Bool.and_eq_true_iff, decide_eq_true_iff, decide_eq_true_iff]
  rfl

theorem firstClass_of_classScope? (hnumbered : ∀ id s, t.getScope? id = some s → s.id = id)
    {id : ScopeId} (h : t.classScope? name = some id) : t.FirstClass name id := by
  obtain ⟨s, hfind, rfl⟩ := Option.map_eq_some_iff.mp h
  obtain ⟨hs, i, hi, hget, hbefore⟩ := List.find?_eq_some_iff_getElem.mp hfind
  have hplace : t.getScope? i = some s := by
    unfold getScope?
    rw [← Array.getElem?_toList, List.getElem?_eq_getElem hi, hget]
  rw [hnumbered i s hplace]
  refine ⟨⟨s, hplace, declaresClass_iff.mp hs⟩, fun j x hj hx hclass => ?_⟩
  obtain ⟨_, rfl⟩ := Array.getElem?_eq_some_iff.mp hx
  have hno := hbefore j hj
  rw [Array.getElem_toList, declaresClass_iff.mpr hclass] at hno
  cases hno

theorem isSome_classScope?_iff : (t.classScope? name).isSome = true ↔
    ∃ id s, t.getScope? id = some s ∧ s.DeclaresClass name := by
  unfold classScope?
  rw [Option.isSome_map, List.find?_isSome]
  constructor
  · rintro ⟨s, hmem, hs⟩
    obtain ⟨id, hid⟩ := Array.mem_iff_getElem?.mp (Array.mem_toList_iff.mp hmem)
    exact ⟨id, s, hid, declaresClass_iff.mp hs⟩
  · rintro ⟨id, s, hid, hs⟩
    exact ⟨s, Array.mem_toList_iff.mpr (Array.mem_of_getElem? hid), declaresClass_iff.mpr hs⟩

end

/-! ## Entries -/

/-- That variables, functions and bindings agree with each other and with the tokens. -/
structure Consistent (l : Listing) (t : SymbolTable) : Prop where
  numbered : ∀ id v, t.getVariable? id = some v → v.id = id
  /-- A variable is called what its name token says, which is a name and no statement word. -/
  named : ∀ id v, t.getVariable? id = some v → v.Named l
  typed : ∀ id v, t.getVariable? id = some v → v.typeStart ≤ v.typeEnd ∧ v.typeEnd + 1 = v.nameToken
  owned : ∀ id v, t.getVariable? id = some v → v.isLocal = true ∨ v.isArgument = true →
    ∃ s, t.getScope? v.scope = some s ∧ s.kind = .function
  apart : ∀ id v, t.getVariable? id = some v → ¬ (v.isLocal = true ∧ v.isArgument = true)
  sorted : ∀ f g, t.getFunction? f = some g → g.arguments.Pairwise (· < ·)
  /-- The arguments of a function are argument variables of its scope, and stand between its
  parentheses. -/
  arguments : ∀ f g id, t.getFunction? f = some g → id ∈ g.arguments →
    ∃ v, t.getVariable? id = some v ∧ v.isArgument = true ∧ v.scope = g.scope ∧
      l.BetweenParameters g.nameToken v.nameToken
  /-- An argument belongs to exactly one function. -/
  listed : ∀ id v, t.getVariable? id = some v → v.isArgument = true →
    ∃ f g, t.getFunction? f = some g ∧ g.scope = v.scope ∧ id ∈ g.arguments ∧
      ∀ f' g', t.getFunction? f' = some g' → id ∈ g'.arguments → f' = f
  /-- A bound token is a name, that of the variable it is bound to. -/
  bound : ∀ i id, t.bindings.get? i = some id → l.isName i = true ∧ t.Calls id (l.text i)
  /-- Class objects have the class body of their type, if there is one in the source. -/
  isSome_typeScope : ∀ id v, t.getVariable? id = some v → (v.typeScope.isSome = true ↔
    v.isClassObject = true ∧ ∃ id s, t.getScope? id = some s ∧ s.DeclaresClass v.typeName)
  typeScope : ∀ id v s, t.getVariable? id = some v → v.typeScope = some s →
    t.FirstClass v.typeName s

section
variable (t : SymbolTable) (v : Variable)

@[simp] theorem id_typed : (t.typed v).id = v.id := by unfold typed; split <;> rfl

@[simp] theorem typeName_typed : (t.typed v).typeName = v.typeName := by
  unfold typed; split <;> rfl

@[simp] theorem isClassObject_typed : (t.typed v).isClassObject = v.isClassObject := by
  unfold typed; split <;> rfl

theorem typeScope_typed (h : v.typeScope = none) : (t.typed v).typeScope =
    if v.isClassObject then t.classScope? v.typeName else none := by
  unfold typed
  split
  · rfl
  · exact h

end

/-- The entries of a table whose scopes form a tree, once the types of class objects are looked
up. -/
theorem Registered.consistent {l : Listing} {t : SymbolTable} (h : t.Registered l)
    (htree : t.resolveTypes.ScopeTree l) (hnamed : t.resolveTypes.Named l) :
    t.resolveTypes.Consistent l := by
  have hvar : ∀ id v, t.resolveTypes.getVariable? id = some v →
      ∃ w, t.getVariable? id = some w ∧ w.Registered l t id ∧ v = t.typed w := by
    intro id v hv
    obtain ⟨w, hw, rfl⟩ := exists_of_resolveTypes hv
    exact ⟨w, hw, h.vars id w hw, rfl⟩
  refine ⟨?_, hnamed.vars, ?_, ?_, ?_, ?_, ?_, ?_, hnamed.bindings, ?_, ?_⟩
  · intro id v hv
    obtain ⟨w, _, hw, rfl⟩ := hvar id v hv
    rw [id_typed]
    exact hw.numbered
  · intro id v hv
    obtain ⟨w, _, hw, rfl⟩ := hvar id v hv
    have hfirst := hw.typeFirst
    unfold Variable.typeEnd
    rw [typeStart_typed, nameToken_typed]
    omega
  · intro id v hv hrole
    obtain ⟨w, _, hw, rfl⟩ := hvar id v hv
    rw [scope_typed]
    refine hw.owned fun hmember => ?_
    simp [Variable.isLocal, Variable.isArgument, hmember] at hrole
  · rintro id v hv ⟨hlocal, hargument⟩
    have hrole := (of_decide_eq_true hlocal).symm.trans (of_decide_eq_true hargument)
    cases hrole
  · intro f g hg
    exact (h.functions f g hg).sorted
  · intro f g id hg hid
    obtain ⟨w, hw, hrole, hscope, hbetween⟩ := (h.functions f g hg).arguments id hid
    refine ⟨t.typed w, by rw [getVariable?_resolveTypes, hw]; rfl, ?_, ?_, ?_⟩
    · rw [Variable.isArgument, role_typed]
      exact decide_eq_true hrole
    · rw [scope_typed]
      exact hscope
    · rw [nameToken_typed]
      exact hbetween
  · intro id v hv hargument
    obtain ⟨w, hget, hw, rfl⟩ := hvar id v hv
    rw [Variable.isArgument, role_typed] at hargument
    obtain ⟨f, g, hg, hscope, hid⟩ := hw.listed (of_decide_eq_true hargument)
    refine ⟨f, g, hg, by rw [scope_typed]; exact hscope, hid, fun f' g' hg' hid' => ?_⟩
    -- the scope of the argument tells the function
    obtain ⟨x, hx, _, hscope', _⟩ := (h.functions f' g' hg').arguments id hid'
    obtain rfl := Option.some.inj (hget.symm.trans hx)
    exact htree.functions.eq_of_scope hg' hg (hscope'.symm.trans hscope.symm)
  · intro id v hv
    obtain ⟨w, _, hw, rfl⟩ := hvar id v hv
    rw [typeScope_typed t w hw.untyped, isClassObject_typed, typeName_typed]
    by_cases hclass : w.isClassObject = true
    · rw [if_pos hclass, isSome_classScope?_iff]
      exact ⟨fun hs => ⟨hclass, hs⟩, fun hs => hs.2⟩
    · rw [if_neg hclass]
      exact ⟨nofun, fun hs => absurd hs.1 hclass⟩
  · intro id v s hv hs
    obtain ⟨w, _, hw, rfl⟩ := hvar id v hv
    rw [typeScope_typed t w hw.untyped] at hs
    rw [typeName_typed]
    exact firstClass_of_classScope? htree.numbered (Option.ite_none_right_eq_some.mp hs).2

theorem consistent_ofListing {l : Listing} (hl : l.WellFormed) : (ofListing l).Consistent l := by
  obtain ⟨t, ht, hregistered⟩ := registered_ofListing l
  have htree := scopeTree_ofListing hl
  have hnamed := named_ofListing hl
  rw [ht] at htree hnamed ⊢
  exact hregistered.consistent htree hnamed

end SymbolTable

namespace Program

/-- **Scopes form a tree** in every source that parses. -/
theorem scopeTree_ofSource {file source : String} {p : Program} (h : ofSource file source = .ok p) :
    p.symbols.ScopeTree p.listing := by
  obtain ⟨hl, hsymbols⟩ := listing_of_ofSource h
  rw [hsymbols]
  exact SymbolTable.scopeTree_ofListing (Listing.wellFormed_ofSource hl)

/-- A method in a class in a namespace, and a function behind. -/
theorem scopeTree_ofSource_nested :
    ∃ p, ofSource "a.cpp" "namespace n{struct S{int f(){}};}void g(){}" = .ok p ∧
      p.symbols.scopes.map Scope.parent = #[none, some 0, some 1, some 2, some 0] ∧
      p.symbols.ScopeTree p.listing := by
  obtain ⟨p, hp, hparents⟩ :
      ∃ p, ofSource "a.cpp" "namespace n{struct S{int f(){}};}void g(){}" = .ok p ∧
        p.symbols.scopes.map Scope.parent = #[none, some 0, some 1, some 2, some 0] :=
    exists_of_any (by decide +kernel)
  exact ⟨p, hp, hparents, scopeTree_ofSource hp⟩

/-- **Symbols agree with the tokens.** In every source that parses, the entries of the symbol table
agree with each other and with the tokens, which are still those that the source was cut into. -/
theorem consistent_ofSource {file source : String} {p : Program}
    (h : ofSource file source = .ok p) :
    Listing.ofSource file source = .ok p.listing ∧ p.symbols.Consistent p.listing := by
  obtain ⟨hl, hsymbols⟩ := listing_of_ofSource h
  refine ⟨hl, ?_⟩
  rw [hsymbols]
  exact SymbolTable.consistent_ofListing (Listing.wellFormed_ofSource hl)

/-- Two arguments, one of them an object of the class in front, and a local. -/
theorem consistent_ofSource_arguments :
    ∃ p, ofSource "a.cpp" "struct S{};void f(S a,int b){S c;c=a;}" = .ok p ∧
      p.symbols.functions.map Function.arguments = #[[0, 1]] ∧
      p.symbols.vars.map Variable.typeScope = #[some 1, none, some 1] ∧
      Listing.ofSource "a.cpp" "struct S{};void f(S a,int b){S c;c=a;}" = .ok p.listing ∧
      p.symbols.Consistent p.listing := by
  obtain ⟨p, hp, harguments, htypes⟩ :
      ∃ p, ofSource "a.cpp" "struct S{};void f(S a,int b){S c;c=a;}" = .ok p ∧
        p.symbols.functions.map Function.arguments = #[[0, 1]] ∧
        p.symbols.vars.map Variable.typeScope = #[some 1, none, some 1] :=
    exists_of_any (by decide +kernel)
  obtain ⟨hl, hconsistent⟩ := consistent_ofSource hp
  exact ⟨p, hp, harguments, htypes, hl, hconsistent⟩

end Program

end StackEscape
