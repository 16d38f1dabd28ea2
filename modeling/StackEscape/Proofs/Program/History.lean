import StackEscape.Proofs.Program
import StackEscape.Proofs.Symbol.Sight

/-!
# The history of a program

The symbols of a program are a settled table to which the types of class objects were added. What
name resolution did for its functions, and so which variables are whose, is read off that table.
-/

namespace StackEscape

namespace SymbolTable

/-- A variable with the class body of its type, as `resolveTypes` records it. -/
def typed (t : SymbolTable) (v : Variable) : Variable :=
  if v.isClassObject then { v with typeScope := t.classScope? v.typeName } else v

section
variable (t : SymbolTable) (v : Variable)

@[simp] theorem name_typed : (t.typed v).name = v.name := by unfold typed; split <;> rfl

@[simp] theorem nameToken_typed : (t.typed v).nameToken = v.nameToken := by
  unfold typed; split <;> rfl

@[simp] theorem typeStart_typed : (t.typed v).typeStart = v.typeStart := by
  unfold typed; split <;> rfl

@[simp] theorem scope_typed : (t.typed v).scope = v.scope := by unfold typed; split <;> rfl

@[simp] theorem role_typed : (t.typed v).role = v.role := by unfold typed; split <;> rfl

@[simp] theorem isStatic_typed : (t.typed v).isStatic = v.isStatic := by
  unfold typed; split <;> rfl

@[simp] theorem isReference_typed : (t.typed v).isReference = v.isReference := by
  unfold typed; split <;> rfl

end

theorem getVariable?_resolveTypes (t : SymbolTable) (id : VariableId) :
    t.resolveTypes.getVariable? id = (t.getVariable? id).map t.typed := Array.getElem?_map

theorem exists_of_resolveTypes {t : SymbolTable} {id : VariableId} {v : Variable}
    (h : t.resolveTypes.getVariable? id = some v) :
    ∃ w, t.getVariable? id = some w ∧ v = t.typed w := by
  rw [getVariable?_resolveTypes] at h
  obtain ⟨w, hw, rfl⟩ := Option.map_eq_some_iff.mp h
  exact ⟨w, hw, rfl⟩

theorem Owns.resolveTypes {t : SymbolTable} {scope : ScopeId} {id : VariableId} {v : Variable}
    (h : t.Owns scope id v) : t.resolveTypes.Owns scope id (t.typed v) := by
  refine ⟨by rw [getVariable?_resolveTypes, h.1]; rfl, ?_⟩
  rw [scope_typed, role_typed]
  exact h.2

theorem Owns.exists_of_resolveTypes {t : SymbolTable} {scope : ScopeId} {id : VariableId}
    {v : Variable} (h : t.resolveTypes.Owns scope id v) :
    ∃ w, t.Owns scope id w ∧ v = t.typed w := by
  obtain ⟨w, hw, rfl⟩ := SymbolTable.exists_of_resolveTypes h.1
  have hrest := h.2
  rw [scope_typed, role_typed] at hrest
  exact ⟨w, ⟨hw, hrest⟩, rfl⟩

end SymbolTable

theorem Listing.inSight_typed (l : Listing) (t : SymbolTable) (v : Variable) (i : Nat) :
    l.InSight (t.typed v) i ↔ l.InSight v i := by
  unfold InSight
  rw [t.nameToken_typed, t.role_typed]

namespace Program

/-- The table that the symbols of a program come from. -/
structure History (p : Program) (t : SymbolTable) : Prop where
  symbols : p.symbols = t.resolveTypes
  ran : ∀ s ∈ p.symbols.functionScopes, ∃ f, Ran p.listing s f t
  numbered : ∀ s ∈ t.scopes, t.getScope? s.id = some s
  /-- Locals stand between the braces of their function. -/
  inside : ∀ s ∈ p.symbols.functionScopes, ∀ id v, t.Owns s.id id v → v.role = .local →
    s.start < v.nameToken ∧ v.nameToken < s.stop
  declared : ∀ id v, t.getVariable? id = some v → (t.bindings.get? v.nameToken).isSome = true

theorem exists_history {file source : String} {p : Program} (h : ofSource file source = .ok p) :
    ∃ t, p.History t := by
  obtain ⟨hl, hsymbols⟩ := listing_of_ofSource h
  obtain ⟨r, hr, hsettled⟩ := SymbolTable.settled_ofListing (Listing.wellFormed_ofSource hl)
  have hresolved := hsymbols.trans hr
  have hscopes : ∀ s ∈ p.symbols.functionScopes, s ∈ r.table.scopes ∧ s.isFunction = true := by
    intro s hs
    rw [hresolved] at hs
    obtain ⟨hmem, hfunction⟩ := List.mem_filter.mp hs
    exact ⟨Array.mem_toList_iff.mp hmem, hfunction⟩
  refine ⟨r.table, hresolved, ?_, hsettled.numbered, ?_, hsettled.declared⟩
  · intro s hs
    obtain ⟨hmem, hfunction⟩ := hscopes s hs
    exact (hsettled.ran s hmem hfunction).2
  · rintro s hs id v ⟨hv, hscope, hrole⟩ hlocal
    obtain ⟨x, hx, hinside⟩ := hsettled.inScope id v hv hrole
    rw [hscope, hsettled.numbered s (hscopes s hs).1] at hx
    obtain rfl := Option.some.inj hx
    exact hinside hlocal

namespace History

variable {p : Program} {t : SymbolTable}

theorem variableIdAt?_eq (h : p.History t) (i : Nat) : p.variableIdAt? i = t.bindings.get? i := by
  unfold variableIdAt?
  rw [h.symbols]
  rfl

theorem functionOf?_eq (h : p.History t) (s : Scope) :
    p.symbols.functionOf? s = t.functionOf? s := by
  rw [h.symbols]
  rfl

end History

end Program

end StackEscape
