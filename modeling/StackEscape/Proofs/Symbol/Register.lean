import StackEscape.Proofs.Outline.Parameters
import StackEscape.Proofs.Symbol.Tree

/-!
# What is recorded of variables and functions

A variable is entered at its place, behind its type; a local or an argument belongs to the scope of
a function, and an argument to the list of the function with that scope. What is so of an entry
stays so while the table grows, so each step of name resolution answers only for its own entries:
`Registered.extend` is that step, and all operations are instances of it.
-/

namespace StackEscape

/-- That scopes, functions and variables keep their places. -/
structure SymbolTable.Keeps (t u : SymbolTable) : Prop where
  scopes : Scope.Keeps t.scopes u.scopes
  functions : ∀ f g, t.getFunction? f = some g → u.getFunction? f = some g
  vars : t.Grows u

/-- What is recorded of the variable at the place `id`, while its type is not looked up yet. -/
structure Variable.Registered (l : Listing) (t : SymbolTable) (id : VariableId) (v : Variable) :
    Prop where
  numbered : v.id = id
  typeFirst : v.typeStart < v.nameToken
  reference : l.text v.typeEnd = "&" → v.isReference = true
  untyped : v.typeScope = none
  /-- A local or an argument belongs to the scope of a function. -/
  owned : v.role ≠ .member → ∃ s, t.getScope? v.scope = some s ∧ s.kind = .function
  listed : v.role = .argument → ∃ f g, t.getFunction? f = some g ∧ g.scope = v.scope ∧
    id ∈ g.arguments

theorem Variable.Registered.keep {l : Listing} {t u : SymbolTable} {id : VariableId} {v : Variable}
    (h : v.Registered l t id) (hk : t.Keeps u) : v.Registered l u id := by
  refine { h with owned := fun hrole => ?_, listed := fun hrole => ?_ }
  · obtain ⟨s, hs, hkind⟩ := h.owned hrole
    exact ⟨s, hk.scopes _ _ hs, hkind⟩
  · obtain ⟨f, g, hg, hrest⟩ := h.listed hrole
    exact ⟨f, g, hk.functions f g hg, hrest⟩

/-- What is recorded of a function: its arguments in order, which stand between its parentheses. -/
structure Function.Registered (l : Listing) (t : SymbolTable) (g : Function) : Prop where
  sorted : g.arguments.Pairwise (· < ·)
  arguments : ∀ id ∈ g.arguments, ∃ v, t.getVariable? id = some v ∧ v.role = .argument ∧
    v.scope = g.scope ∧ l.BetweenParameters g.nameToken v.nameToken

theorem Function.Registered.keep {l : Listing} {t u : SymbolTable} {g : Function}
    (h : g.Registered l t) (hk : t.Keeps u) : g.Registered l u := by
  refine ⟨h.sorted, fun id hid => ?_⟩
  obtain ⟨v, hv, hrest⟩ := h.arguments id hid
  exact ⟨v, hk.vars id v hv, hrest⟩

namespace SymbolTable

/-- The invariant of name resolution about the entries of variables and functions. -/
structure Registered (l : Listing) (t : SymbolTable) : Prop where
  vars : ∀ id v, t.getVariable? id = some v → v.Registered l t id
  functions : ∀ f g, t.getFunction? f = some g → g.Registered l t

/-- A table that keeps what it has answers only for what is new. -/
theorem Registered.extend {l : Listing} {t u : SymbolTable} (h : t.Registered l) (hk : t.Keeps u)
    (hvars : ∀ id v, u.getVariable? id = some v → t.getVariable? id = some v ∨ v.Registered l u id)
    (hfunctions : ∀ f g, u.getFunction? f = some g →
      t.getFunction? f = some g ∨ g.Registered l u) : u.Registered l := by
  constructor
  · intro id v hv
    rcases hvars id v hv with hold | hnew
    · exact (h.vars id v hold).keep hk
    · exact hnew
  · intro f g hg
    rcases hfunctions f g hg with hold | hnew
    · exact (h.functions f g hold).keep hk
    · exact hnew

end SymbolTable

namespace Resolver

section
variable {l : Listing} {r : Resolver}

theorem registered_addScope (h : r.table.Registered l) (kind : ScopeKind) (name : String)
    (start stop : Nat) (parent : Option ScopeId) (function : Option FunctionId) :
    (r.addScope kind name start stop parent function).1.table.Registered l :=
  h.extend ⟨Scope.Keeps.push _ _, fun _ _ hg => hg, .refl _⟩ (fun _ _ hv => .inl hv)
    fun _ _ hg => .inl hg

theorem registered_addMembers (h : r.table.Registered l) (name : String) (members : Frame) :
    (r.addMembers name members).table.Registered l := by
  unfold addMembers
  split
  · exact h
  · exact h

/-- Declaring adds no scope and no function. -/
theorem keeps_declare (role : Role) (scope : ScopeId) (frame : Frame) (ds : List Declarator) :
    r.table.Keeps (r.declare l role scope frame ds).1.table := by
  have hgrows := (declares_declare (l := l) role scope r frame ds).grows 0 fun _ _ => Nat.zero_le _
  refine ⟨?_, hgrows.functions, hgrows.vars⟩
  rw [scopes_declare]
  exact .refl _

theorem getFunction?_declare (role : Role) (scope : ScopeId) (frame : Frame) (ds : List Declarator)
    (f : FunctionId) : (r.declare l role scope frame ds).1.table.getFunction? f =
      r.table.getFunction? f := by
  unfold SymbolTable.getFunction?
  rw [functions_declare]

/-- Members belong to no function. -/
theorem registered_declare (h : r.table.Registered l) (scope : ScopeId) (frame : Frame)
    {ds : List Declarator} (hds : ∀ d ∈ ds, d.Shaped l) :
    (r.declare l .member scope frame ds).1.table.Registered l := by
  refine h.extend (keeps_declare ..) ?_ ?_
  · intro id v hv
    rcases (declares_declare .member scope r frame ds).vars id v hv with hold | ⟨d, hd, rfl, _⟩
    · exact .inl hold
    · exact .inr ⟨rfl, (hds d hd).typeFirst, (hds d hd).reference, rfl,
        fun hrole => absurd rfl hrole, nofun⟩
  · intro f g hg
    rw [getFunction?_declare] at hg
    exact .inl hg

/-! ## Functions -/

theorem keeps_opened (l : Listing) (r : Resolver) (parent : ScopeId) (heading : Heading) :
    r.table.Keeps (r.opened l parent heading).table := by
  have hgrows : r.table.GrowsFrom 0 (r.opened l parent heading).table :=
    growsFrom_opened fun _ _ => Nat.zero_le _
  refine ⟨?_, hgrows.functions, hgrows.vars⟩
  rw [scopes_opened]
  exact .push _ _

/-- The variables of a function that is opened are the old ones and the arguments. -/
theorem cases_of_opened {parent : ScopeId} {heading : Heading} {id : VariableId} {v : Variable}
    (hv : (r.opened l parent heading).table.getVariable? id = some v) :
    r.table.getVariable? id = some v ∨ id ∈ (r.functionOf heading).arguments ∧
      ∃ d ∈ heading.parameters, v = d.toVariable l id .argument r.table.scopes.size := by
  rcases (declares_withArguments l r parent heading).vars id v hv with hold | ⟨d, hd, rfl, _⟩
  · exact .inl hold
  · rcases Nat.lt_or_ge id r.table.vars.size with hlt | hge
    · left
      have hold : r.table.getVariable? id = some r.table.vars[id] := Array.getElem?_eq_getElem hlt
      rw [hold, ← (keeps_opened l r parent heading).vars id _ hold]
      exact hv
    · have hlt := (Array.getElem?_eq_some_iff.mp hv).1
      exact .inr ⟨List.mem_range'_1.mpr ⟨hge, Nat.lt_of_lt_of_eq hlt (size_vars_declare ..)⟩,
        d, hd, rfl⟩

/-- The place of every argument is taken by one. -/
theorem exists_argument (parent : ScopeId) {heading : Heading} {id : VariableId}
    (hid : id ∈ (r.functionOf heading).arguments) :
    ∃ d ∈ heading.parameters, (r.opened l parent heading).table.getVariable? id =
      some (d.toVariable l id .argument r.table.scopes.size) := by
  obtain ⟨hge, hlt⟩ := List.mem_range'_1.mp hid
  have hsize : (r.opened l parent heading).table.vars.size =
      r.table.vars.size + heading.parameters.length := size_vars_declare ..
  have hget := Array.getElem?_eq_getElem (hsize ▸ hlt)
  rcases cases_of_opened hget with hold | ⟨_, d, hd, hv⟩
  · exact absurd (Array.getElem?_eq_some_iff.mp hold).1 (Nat.not_lt.mpr hge)
  · exact ⟨d, hd, hget.trans (congrArg some hv)⟩

/-- Opening a function records it and its arguments. -/
theorem registered_opened (h : r.table.Registered l) (parent : ScopeId) {heading : Heading}
    (hp : ∀ d ∈ heading.parameters,
      d.Shaped l ∧ l.BetweenParameters heading.nameToken d.nameToken) :
    (r.opened l parent heading).table.Registered l := by
  refine h.extend (keeps_opened l r parent heading) ?_ ?_
  · intro id v hv
    rcases cases_of_opened hv with hold | ⟨hid, d, hd, rfl⟩
    · exact .inl hold
    · have hshaped := (hp d hd).1
      exact .inr ⟨rfl, hshaped.typeFirst, hshaped.reference, rfl,
        fun _ => ⟨_, getScope?_opened l r parent heading, rfl⟩,
        fun _ => ⟨_, _, getFunction?_opened l r parent heading, rfl, hid⟩⟩
  · intro f g hg
    unfold SymbolTable.getFunction? at hg
    rw [functions_opened] at hg
    rcases cases_of_getElem?_push hg with ⟨_, hold⟩ | ⟨_, rfl⟩
    · exact .inl hold
    · refine .inr ⟨List.pairwise_lt_range' .., fun id hid => ?_⟩
      obtain ⟨d, hd, hv⟩ := exists_argument (l := l) parent hid
      exact ⟨_, hv, rfl, rfl, (hp d hd).2⟩

/-- Following a body records the locals of its function. -/
theorem registered_followBody (h : r.table.Registered l) {scope : ScopeId}
    (hscope : ∃ s, r.table.getScope? scope = some s ∧ s.kind = .function) (outer : List Frame)
    (blocks : List Frame) (base : Frame) {steps : List Body.Step}
    (hs : ∀ d, .declare d ∈ steps → ∀ x ∈ d.declarators, x.Shaped l) :
    (r.followBody l scope outer blocks base steps).table.Registered l := by
  have hfollows := follows_followBody l scope outer r blocks base steps
  have hscopes := scopes_followBody l scope outer r blocks base steps
  have hfunctions := functions_followBody l scope outer r blocks base steps
  generalize r.followBody l scope outer blocks base steps = r' at hfollows hscopes hfunctions
  have hkeeps : r.table.Keeps r'.table :=
    ⟨hscopes ▸ .refl _, hfollows.grows.functions, hfollows.grows.vars⟩
  refine h.extend hkeeps ?_ ?_
  · intro id v hv
    rcases hfollows.vars id v hv with hold | ⟨d, hd, x, hx, rfl⟩
    · exact .inl hold
    · obtain ⟨s, hget, hkind⟩ := hscope
      have hshaped := hs d hd x hx
      exact .inr ⟨rfl, hshaped.typeFirst, hshaped.reference, rfl,
        fun _ => ⟨s, hkeeps.scopes _ _ hget, hkind⟩, nofun⟩
  · intro f g hg
    unfold SymbolTable.getFunction? at hg
    rw [hfunctions] at hg
    exact .inl hg

theorem registered_addFunction (h : r.table.Registered l) (parent : ScopeId) (frames : List Frame)
    {heading : Heading} {body : List Body.Step}
    (hp : ∀ d ∈ heading.parameters,
      d.Shaped l ∧ l.BetweenParameters heading.nameToken d.nameToken)
    (hb : ∀ d, .declare d ∈ body → ∀ x ∈ d.declarators, x.Shaped l) :
    (r.addFunction l parent frames heading body).table.Registered l := by
  rw [addFunction_eq]
  exact registered_followBody (registered_opened h parent hp)
    ⟨r.scopeOf parent heading, getScope?_opened l r parent heading, rfl⟩ _ _ _ hb

/-- Entering an outline keeps the invariant. -/
theorem registered_enter (h : r.table.Registered l) (scope : ScopeId) (outer : List Frame)
    (frame : Frame) {o : Outline} (ho : o.Shaped l) :
    (r.enter l scope outer frame o).1.table.Registered l := by
  induction o generalizing scope outer r frame with
  | done => exact h
  | block kind name opener closer inside after ihin ihout =>
    obtain ⟨hin, hout⟩ := ho
    cases kind with
    | namespaceBlock => exact ihout (ihin (registered_addScope h ..) _ _ _ hin) _ _ _ hout
    | classBody =>
      exact ihout (registered_addMembers (ihin (registered_addScope h ..) _ _ _ hin) ..) _ _ _ hout
  | linkage inside after ihin ihout =>
    obtain ⟨hin, hout⟩ := ho
    exact ihout (ihin h _ _ _ hin) _ _ _ hout
  | function heading body after ih =>
    obtain ⟨hp, hb, hout⟩ := ho
    exact ih (registered_addFunction h _ _ hp hb) _ _ _ hout
  | declaration d after ih =>
    obtain ⟨hd, hout⟩ := ho
    exact ih (registered_declare h _ _ hd) _ _ _ hout

/-! ## Functions and headings -/

/-- What is taken over from the headings of functions. -/
def signatures (functions : Array Function) : List (String × Nat × ReturnCategory) :=
  functions.toList.map fun f => (f.name, f.nameToken, f.returns)

theorem signatures_addFunction (l : Listing) (r : Resolver) (parent : ScopeId)
    (frames : List Frame) (heading : Heading) (body : List Body.Step) :
    signatures (r.addFunction l parent frames heading body).table.functions =
      signatures r.table.functions ++ [(heading.name, heading.nameToken, heading.returns)] := by
  rw [addFunction_eq, functions_followBody, functions_opened, signatures, Array.toList_push,
    List.map_append]
  rfl

/-- Entering an outline records its headings, in order. -/
theorem signatures_enter (l : Listing) (scope : ScopeId) (outer : List Frame) (r : Resolver)
    (frame : Frame) (o : Outline) :
    signatures (r.enter l scope outer frame o).1.table.functions =
      signatures r.table.functions ++
        o.headings.map fun h => (h.name, h.nameToken, h.returns) := by
  induction o generalizing scope outer r frame with
  | done => simp [enter, Outline.headings]
  | block kind name opener closer inside after ihin ihout =>
    cases kind with
    | namespaceBlock =>
      simp only [enter, ihout, ihin, Outline.headings, List.map_append, List.append_assoc]
      rfl
    | classBody =>
      simp only [enter, ihout, functions_addMembers, ihin, Outline.headings, List.map_append,
        List.append_assoc]
      rfl
  | linkage inside after ihin ihout =>
    simp only [enter, ihout, ihin, Outline.headings, List.map_append, List.append_assoc]
  | function heading body after ih =>
    simp only [enter, ih, signatures_addFunction, Outline.headings, List.map_cons,
      List.append_assoc, List.singleton_append]
  | declaration d after ih => simp only [enter, ih, functions_declare, Outline.headings]

end

end Resolver

/-- Every function is recorded with what its heading says. -/
theorem SymbolTable.exists_heading {l : Listing} {f : Function} (hf : f ∈ (ofListing l).functions) :
    ∃ heading ∈ l.outline.headings, f.name = heading.name ∧ f.nameToken = heading.nameToken ∧
      f.returns = heading.returns := by
  have hmem : (f.name, f.nameToken, f.returns) ∈ Resolver.signatures (ofListing l).functions :=
    List.mem_map.mpr ⟨f, Array.mem_toList_iff.mpr hf, rfl⟩
  have hsignatures : Resolver.signatures (ofListing l).functions =
      l.outline.headings.map fun h => (h.name, h.nameToken, h.returns) := by
    simp only [ofListing, resolveTypes, Resolver.signatures_enter]
    rfl
  rw [hsignatures] at hmem
  obtain ⟨heading, hheading, he⟩ := List.mem_map.mp hmem
  obtain ⟨hname, hrest⟩ := Prod.mk.inj he
  obtain ⟨htoken, hreturns⟩ := Prod.mk.inj hrest
  exact ⟨heading, hheading, hname.symm, htoken.symm, hreturns.symm⟩

/-- The entries of a listing's table, while the types of class objects are not looked up yet. -/
theorem SymbolTable.registered_ofListing (l : Listing) :
    ∃ t : SymbolTable, ofListing l = t.resolveTypes ∧ t.Registered l := by
  have hempty : (empty l.size).Registered l := ⟨nofun, nofun⟩
  have hglobal := Resolver.registered_addScope (r := ⟨empty l.size, []⟩) hempty .global "" 0 l.size
    none none
  exact ⟨_, rfl,
    Resolver.registered_enter hglobal 0 [] [] (Outline.shaped_ofTokens l l.size 0)⟩

end StackEscape
