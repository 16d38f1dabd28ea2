import StackEscape.Proofs.Renaming.Outline
import StackEscape.Proofs.Symbol.Runs

/-!
# Symbol tables under renaming

Resolving the names of a renamed listing enters the same scopes, functions and variables, with their
names renamed, and binds the same tokens to the same variables: two names are the same after
renaming only if they were before.
-/

namespace StackEscape

variable {ρ : String → String} {l l' : Listing}

/-! ## Frames -/

def renameKeys {α : Type} (ρ : String → String) (entries : List (String × α)) :
    List (String × α) := entries.map fun x => (ρ x.1, x.2)

theorem lookup_renameKeys {α : Type} (hρ : Renaming ρ) (name : String)
    (entries : List (String × α)) :
    (renameKeys ρ entries).lookup (ρ name) = entries.lookup name := by
  induction entries with
  | nil => rfl
  | cons x entries ih =>
    obtain ⟨key, value⟩ := x
    by_cases hkey : name = key
    · subst hkey
      simp [renameKeys]
    · have hne : ρ name ≠ ρ key := fun he => hkey (hρ.injective he)
      simp only [renameKeys, List.map_cons, List.lookup_cons, beq_false_of_ne hkey,
        beq_false_of_ne hne]
      exact ih

theorem lookup_map {α β : Type} (f : α → β) (name : String) (entries : List (String × α)) :
    (entries.map fun x => (x.1, f x.2)).lookup name = (entries.lookup name).map f := by
  induction entries with
  | nil => rfl
  | cons x entries ih =>
    obtain ⟨key, value⟩ := x
    simp only [List.map_cons, List.lookup_cons, ih]
    split <;> rfl

theorem lookup_eq_none {α : Type} {entries : List (String × α)} {name : String}
    (h : ∀ x ∈ entries, x.1 ≠ name) : entries.lookup name = none := by
  induction entries with
  | nil => rfl
  | cons x entries ih =>
    obtain ⟨hx, hentries⟩ := List.forall_mem_cons.mp h
    rw [List.lookup_cons, beq_false_of_ne hx.symm]
    exact ih hentries

theorem ne_of_isIdentifier {v w : String} (hv : Lexeme.isIdentifier v = true)
    (hw : Lexeme.isIdentifier w = false) : v ≠ w := by
  rintro rfl
  rw [hv] at hw
  cases hw

theorem isEmpty_eq_false {w : String} (hw : Lexeme.isIdentifier w = true) : w.isEmpty = false := by
  refine Bool.eq_false_iff.mpr fun he => ?_
  rw [String.isEmpty_iff] at he
  exact ne_of_isIdentifier hw rfl he

/-- A renamed name refers to what it did before. -/
theorem Frame.find?_renameKeys (hρ : Renaming ρ) (frames : List Frame) (name : String) :
    Frame.find? (frames.map (renameKeys ρ)) (ρ name) = Frame.find? frames name := by
  unfold Frame.find?
  rw [List.findSome?_map]
  congr 1
  funext frame
  exact lookup_renameKeys hρ name frame

/-! ## Tables -/

def Variable.rename (ρ : String → String) (v : Variable) : Variable :=
  { v with name := ρ v.name, typeName := ρ v.typeName }

/-- The same scope; only the names of classes are looked at. -/
structure Scope.Renamed (ρ : String → String) (a b : Scope) : Prop where
  id : b.id = a.id
  kind : b.kind = a.kind
  start : b.start = a.start
  stop : b.stop = a.stop
  function : b.function = a.function
  name : a.kind = .classBody → b.name = ρ a.name

structure Function.Renamed (a b : Function) : Prop where
  returns : b.returns = a.returns
  scope : b.scope = a.scope
  arguments : b.arguments = a.arguments

structure SymbolTable.Renamed (ρ : String → String) (t t' : SymbolTable) : Prop where
  scopes : List.Forall₂ (Scope.Renamed ρ) t.scopes.toList t'.scopes.toList
  functions : List.Forall₂ Function.Renamed t.functions.toList t'.functions.toList
  vars : t'.vars = t.vars.map (Variable.rename ρ)
  bindings : t'.bindings = t.bindings

namespace SymbolTable.Renamed

variable {t t' : SymbolTable}

theorem size_scopes (h : t.Renamed ρ t') : t'.scopes.size = t.scopes.size := by
  simpa using h.scopes.length_eq.symm

theorem size_functions (h : t.Renamed ρ t') : t'.functions.size = t.functions.size := by
  simpa using h.functions.length_eq.symm

theorem size_vars (h : t.Renamed ρ t') : t'.vars.size = t.vars.size := by
  rw [h.vars, Array.size_map]

theorem getVariable?_eq (h : t.Renamed ρ t') (id : VariableId) :
    t'.getVariable? id = (t.getVariable? id).map (Variable.rename ρ) := by
  unfold getVariable?
  rw [h.vars, Array.getElem?_map]

theorem cases_getFunction? (h : t.Renamed ρ t') (id : FunctionId) :
    (t.getFunction? id = none ∧ t'.getFunction? id = none) ∨
      ∃ f f', t.getFunction? id = some f ∧ t'.getFunction? id = some f' ∧ f.Renamed f' := by
  rcases Nat.lt_or_ge id t.functions.size with hid | hid
  · have hid' : id < t'.functions.size := h.size_functions.symm ▸ hid
    refine .inr ⟨_, _, Array.getElem?_eq_getElem hid, Array.getElem?_eq_getElem hid', ?_⟩
    exact h.functions.get hid hid'
  · have hid' : t'.functions.size ≤ id := h.size_functions.symm ▸ hid
    exact .inl ⟨Array.getElem?_eq_none hid, Array.getElem?_eq_none hid'⟩

end SymbolTable.Renamed

/-! ## Resolving -/

/-- The same state of name resolution, with all names renamed. -/
structure Resolver.Renamed (ρ : String → String) (r r' : Resolver) : Prop where
  table : r.table.Renamed ρ r'.table
  members : r'.members = renameKeys ρ (r.members.map fun m => (m.1, renameKeys ρ m.2))
  named : ∀ m ∈ r.members, Lexeme.isIdentifier m.1 = true ∧ Lexeme.isIdentifier (ρ m.1) = true

namespace Resolver.Renamed

variable {r r' : Resolver}

theorem pushScope (h : r.Renamed ρ r') {a b : Scope} (hab : a.Renamed ρ b) :
    Renamed ρ { r with table.scopes := r.table.scopes.push a }
      { r' with table.scopes := r'.table.scopes.push b } := by
  refine ⟨⟨?_, h.table.functions, h.table.vars, h.table.bindings⟩, h.members, h.named⟩
  simp only [Array.toList_push]
  exact List.rel_append h.table.scopes (.cons hab .nil)

theorem addScope (h : r.Renamed ρ r') (kind : ScopeKind) (name : String) (start stop : Nat)
    (parent : Option ScopeId) (function : Option FunctionId) :
    (r.addScope kind name start stop parent function).1.Renamed ρ
        (r'.addScope kind (ρ name) start stop parent function).1 ∧
      (r'.addScope kind (ρ name) start stop parent function).2 =
        (r.addScope kind name start stop parent function).2 :=
  ⟨h.pushScope ⟨h.table.size_scopes, rfl, rfl, rfl, rfl, fun _ => rfl⟩, h.table.size_scopes⟩

theorem addVariable (hl : l.Renamed ρ l') (h : r.Renamed ρ r') (role : Role) (scope : ScopeId)
    {d : Declarator} (hd : l.isName d.nameToken = true) :
    (r.addVariable l role scope d).1.Renamed ρ (r'.addVariable l' role scope (d.rename ρ)).1 ∧
      (r'.addVariable l' role scope (d.rename ρ)).2 = (r.addVariable l role scope d).2 := by
  have hsize := h.table.size_vars
  have hname : l'.text (d.rename ρ).nameToken = ρ (l.text d.nameToken) := hl.text_of_isName hd
  refine ⟨⟨⟨h.table.scopes, h.table.functions, ?_, ?_⟩, h.members, h.named⟩, hsize⟩
  · simp only [Resolver.addVariable, hname, h.table.vars, Array.size_map, Array.map_push]
    rfl
  · simp only [Resolver.addVariable, hsize, h.table.bindings]
    rfl

theorem declare (hl : l.Renamed ρ l') (h : r.Renamed ρ r') (role : Role) (scope : ScopeId)
    (frame : Frame) {ds : List Declarator} (hds : ∀ d ∈ ds, l.isName d.nameToken = true) :
    (r.declare l role scope frame ds).1.Renamed ρ
        (r'.declare l' role scope (renameKeys ρ frame) (ds.map (Declarator.rename ρ))).1 ∧
      (r'.declare l' role scope (renameKeys ρ frame) (ds.map (Declarator.rename ρ))).2 =
        renameKeys ρ (r.declare l role scope frame ds).2 := by
  induction ds generalizing r r' frame with
  | nil => exact ⟨h, rfl⟩
  | cons d ds ih =>
    obtain ⟨hd, hds⟩ := List.forall_mem_cons.mp hds
    obtain ⟨hnext, hid⟩ := h.addVariable hl role scope hd
    have hname : l'.text (d.rename ρ).nameToken = ρ (l.text d.nameToken) := hl.text_of_isName hd
    simp only [List.map_cons, Resolver.declare, hname, hid]
    exact ih hnext _ hds

theorem mention (hl : l.Renamed ρ l') (h : r.Renamed ρ r') (frames : List Frame) {token : Nat}
    (ht : l.isName token = true) :
    (r.mention l frames token).Renamed ρ (r'.mention l' (frames.map (renameKeys ρ)) token) := by
  unfold Resolver.mention
  rw [h.table.bindings, hl.text_of_isName ht, Frame.find?_renameKeys hl.names]
  split
  · exact h
  · split
    · exact ⟨{ h.table with bindings := rfl }, h.members, h.named⟩
    · exact h

theorem followBody (hl : l.Renamed ρ l') (h : r.Renamed ρ r') (scope : ScopeId)
    (outer blocks : List Frame) (base : Frame) {steps : List Body.Step}
    (hsteps : ∀ s ∈ steps, s.Named l) :
    (r.followBody l scope outer blocks base steps).Renamed ρ
      (r'.followBody l' scope (outer.map (renameKeys ρ)) (blocks.map (renameKeys ρ))
        (renameKeys ρ base) (steps.map (Body.Step.rename ρ))) := by
  induction steps generalizing r r' blocks base with
  | nil => exact h
  | cons s steps ih =>
    obtain ⟨hs, hrest⟩ := List.forall_mem_cons.mp hsteps
    cases s with
    | enterBlock => exact ih h ([] :: blocks) base hrest
    | leaveBlock =>
      have htail : (blocks.map (renameKeys ρ)).tail = blocks.tail.map (renameKeys ρ) :=
        List.map_tail.symm
      simp only [List.map_cons, Body.Step.rename, Resolver.followBody, htail]
      exact ih h blocks.tail base hrest
    | mention token =>
      have hframes : blocks.map (renameKeys ρ) ++ renameKeys ρ base :: outer.map (renameKeys ρ) =
          (blocks ++ base :: outer).map (renameKeys ρ) := by
        rw [List.map_append, List.map_cons]
      simp only [List.map_cons, Body.Step.rename, Resolver.followBody, hframes]
      exact ih (h.mention hl _ hs) blocks base hrest
    | declare d =>
      have hnames : ∀ x ∈ d.declarators, l.isName x.nameToken = true := fun x hx => (hs x hx).isName
      have hds : (d.rename ρ).declarators = d.declarators.map (Declarator.rename ρ) := rfl
      cases blocks with
      | nil =>
        obtain ⟨hnext, hframe⟩ := h.declare hl .local scope base hnames
        simp only [List.map_cons, List.map_nil, Body.Step.rename, Resolver.followBody, hds, hframe]
        exact ih hnext [] _ hrest
      | cons block blocks =>
        obtain ⟨hnext, hframe⟩ := h.declare hl .local scope block hnames
        simp only [List.map_cons, Body.Step.rename, Resolver.followBody, hds, hframe]
        exact ih hnext (_ :: blocks) base hrest

theorem lookup_members (h : r.Renamed ρ r') (hρ : Renaming ρ) (name : String) :
    r'.members.lookup (ρ name) = (r.members.lookup name).map (renameKeys ρ) := by
  rw [h.members, lookup_renameKeys hρ, lookup_map]

/-- The members that a qualifier brings in sight. A text that is no name brings none. -/
theorem qualified (h : r.Renamed ρ r') (hρ : Renaming ρ) {a b : Heading} (hab : a.Renamed ρ b) :
    (b.qualifier.bind fun q => r'.members.lookup q) =
      (a.qualifier.bind fun q => r.members.lookup q).map (renameKeys ρ) := by
  rcases hab.qualifier with hq | ⟨ha, hb⟩
  · rw [hq]
    cases a.qualifier with
    | none => rfl
    | some q => exact h.lookup_members hρ q
  · have hnone : (a.qualifier.bind fun q => r.members.lookup q) = none := by
      refine Option.bind_eq_none_iff.mpr fun q hq => lookup_eq_none fun m hm => ?_
      exact ne_of_isIdentifier (h.named m hm).1 (ha q hq)
    have hnone' : (b.qualifier.bind fun q => r'.members.lookup q) = none := by
      refine Option.bind_eq_none_iff.mpr fun q hq => lookup_eq_none fun m hm => ?_
      rw [h.members] at hm
      obtain ⟨m', hm', rfl⟩ := List.mem_map.mp hm
      obtain ⟨n, hn, rfl⟩ := List.mem_map.mp hm'
      exact ne_of_isIdentifier (h.named n hn).2 (hb q hq)
    rw [hnone, hnone']
    rfl

theorem addMembers (h : r.Renamed ρ r') (hρ : Renaming ρ) {name : String}
    (hname : NamesBlock ρ name) {members members' : Frame}
    (hmembers : members' = renameKeys ρ members) :
    (r.addMembers name members).Renamed ρ (r'.addMembers (ρ name) members') := by
  unfold Resolver.addMembers
  rw [h.lookup_members hρ, Option.isSome_map]
  rcases hname with rfl | ⟨hname, hname'⟩
  · have hempty : ("".isEmpty || (r.members.lookup "").isSome) = true := rfl
    rw [hρ.empty, if_pos hempty, if_pos hempty]
    exact h
  · rw [isEmpty_eq_false hname, isEmpty_eq_false hname']
    split
    · exact h
    · refine ⟨h.table, ?_, List.forall_mem_cons.mpr ⟨⟨hname, hname'⟩, h.named⟩⟩
      rw [h.members, hmembers]
      rfl

/-! ## Functions and outlines -/

theorem scopeOf (h : r.Renamed ρ r') (parent : ScopeId) {a b : Heading} (hab : a.Renamed ρ b) :
    (r.scopeOf parent a).Renamed ρ (r'.scopeOf parent b) :=
  ⟨h.table.size_scopes, rfl, hab.bodyOpen, hab.bodyClose,
    congrArg some h.table.size_functions, nofun⟩

theorem functionOf (h : r.Renamed ρ r') {a b : Heading} (hab : a.Renamed ρ b) :
    (r.functionOf a).Renamed (r'.functionOf b) := by
  refine ⟨hab.returns, h.table.size_scopes, ?_⟩
  simp only [Resolver.functionOf, h.table.size_vars, hab.parameters, List.length_map]

theorem withArguments (hl : l.Renamed ρ l') (h : r.Renamed ρ r') (parent : ScopeId) {a b : Heading}
    (hab : a.Renamed ρ b) (hparameters : ∀ d ∈ a.parameters, l.isName d.nameToken = true) :
    (r.withArguments l parent a).1.Renamed ρ (r'.withArguments l' parent b).1 ∧
      (r'.withArguments l' parent b).2 = renameKeys ρ (r.withArguments l parent a).2 := by
  unfold Resolver.withArguments
  rw [h.table.size_scopes, hab.parameters]
  exact (h.pushScope (h.scopeOf parent hab)).declare hl .argument _ [] hparameters

theorem opened (hl : l.Renamed ρ l') (h : r.Renamed ρ r') (parent : ScopeId) {a b : Heading}
    (hab : a.Renamed ρ b) (hparameters : ∀ d ∈ a.parameters, l.isName d.nameToken = true) :
    (r.opened l parent a).Renamed ρ (r'.opened l' parent b) := by
  obtain ⟨harguments, _⟩ := h.withArguments hl parent hab hparameters
  refine ⟨{ harguments.table with functions := ?_ }, harguments.members, harguments.named⟩
  simp only [Resolver.opened, Array.toList_push]
  exact List.rel_append harguments.table.functions (.cons (h.functionOf hab) .nil)

theorem around (h : r.Renamed ρ r') (hρ : Renaming ρ) (frames : List Frame) {a b : Heading}
    (hab : a.Renamed ρ b) :
    r'.around (frames.map (renameKeys ρ)) b = (r.around frames a).map (renameKeys ρ) := by
  unfold Resolver.around
  rw [h.qualified hρ hab, List.map_append]
  congr 1
  cases a.qualifier.bind fun q => r.members.lookup q <;> rfl

theorem addFunction (hl : l.Renamed ρ l') (h : r.Renamed ρ r') (parent : ScopeId)
    (frames : List Frame) {a b : Heading} (hab : a.Renamed ρ b) {body : List Body.Step}
    (hparameters : ∀ d ∈ a.parameters, l.isName d.nameToken = true)
    (hbody : ∀ s ∈ body, s.Named l) :
    (r.addFunction l parent frames a body).Renamed ρ
      (r'.addFunction l' parent (frames.map (renameKeys ρ)) b
        (body.map (Body.Step.rename ρ))) := by
  have hopened := h.opened hl parent hab hparameters
  rw [Resolver.addFunction_eq, Resolver.addFunction_eq, hopened.around hl.names frames hab,
    (h.withArguments hl parent hab hparameters).2, h.table.size_scopes]
  exact hopened.followBody hl _ _ [] _ hbody

theorem enter (hl : l.Renamed ρ l') {o o' : Outline} (ho : o.Renamed ρ o') (hnamed : o.Named l)
    (h : r.Renamed ρ r') (scope : ScopeId) (outer : List Frame) (frame : Frame) :
    (r.enter l scope outer frame o).1.Renamed ρ
        (r'.enter l' scope (outer.map (renameKeys ρ)) (renameKeys ρ frame) o').1 ∧
      (r'.enter l' scope (outer.map (renameKeys ρ)) (renameKeys ρ frame) o').2 =
        renameKeys ρ (r.enter l scope outer frame o).2 := by
  induction ho generalizing r r' scope outer frame with
  | done => exact ⟨h, rfl⟩
  | @block kind name hname opener closer _ _ _ _ _ _ ihin ihout =>
    obtain ⟨hin, hout⟩ := hnamed
    cases kind with
    | namespaceBlock =>
      obtain ⟨hscope, hid⟩ := h.addScope .namespaceBlock name opener closer (some scope) none
      obtain ⟨hinside, _⟩ := ihin hin hscope
        (r.addScope .namespaceBlock name opener closer (some scope) none).2 (frame :: outer) []
      simp only [Resolver.enter, hid]
      exact ihout hout hinside scope outer frame
    | classBody =>
      obtain ⟨hscope, hid⟩ := h.addScope .classBody name opener closer (some scope) none
      obtain ⟨hinside, hmembers⟩ := ihin hin hscope
        (r.addScope .classBody name opener closer (some scope) none).2 (frame :: outer) []
      simp only [Resolver.enter, hid]
      exact ihout hout (hinside.addMembers hl.names hname hmembers) scope outer frame
  | linkage _ _ ihin ihout =>
    obtain ⟨hin, hout⟩ := hnamed
    obtain ⟨hinside, hframe⟩ := ihin hin h scope outer frame
    simp only [Resolver.enter, hframe]
    exact ihout hout hinside scope outer _
  | function heading body _ ih =>
    obtain ⟨hparameters, hbody, hafter⟩ := hnamed
    refine ih hafter ?_ scope outer frame
    exact h.addFunction hl scope (frame :: outer) heading (fun d hd => (hparameters d hd).isName)
      hbody
  | declaration d _ ih =>
    obtain ⟨hnames, hafter⟩ := hnamed
    obtain ⟨hdeclare, hframe⟩ := h.declare hl .member scope frame fun x hx => (hnames x hx).isName
    have hds : (d.rename ρ).declarators = d.declarators.map (Declarator.rename ρ) := rfl
    simp only [Resolver.enter, hds, hframe]
    exact ih hafter hdeclare scope outer _

end Resolver.Renamed

/-! ## Tables of listings -/

namespace SymbolTable.Renamed

variable {t t' : SymbolTable}

/-- The first class of a name is that of the renamed name. -/
theorem find?_class (hρ : Renaming ρ) {ss ss' : List Scope}
    (h : List.Forall₂ (Scope.Renamed ρ) ss ss') (name : String) :
    (ss'.find? fun s => s.kind = .classBody && s.name = ρ name).map Scope.id =
      (ss.find? fun s => s.kind = .classBody && s.name = name).map Scope.id := by
  induction h with
  | nil => rfl
  | @cons a b ss ss' hab _ ih =>
    have hcondition : (decide (b.kind = .classBody) && decide (b.name = ρ name)) =
        (decide (a.kind = .classBody) && decide (a.name = name)) := by
      rw [hab.kind]
      by_cases hkind : a.kind = .classBody
      · simp only [hab.name hkind, hρ.injective.eq_iff]
      · simp only [hkind, decide_false, Bool.false_and]
    rw [List.find?_cons, List.find?_cons, hcondition]
    split
    · exact congrArg some hab.id
    · exact ih

theorem classScope?_eq (hρ : Renaming ρ) (h : t.Renamed ρ t') (name : String) :
    t'.classScope? (ρ name) = t.classScope? name := find?_class hρ h.scopes name

theorem isClassObject_rename (hρ : Renaming ρ) (v : Variable) :
    (v.rename ρ).isClassObject = v.isClassObject := by
  have hbuiltin : Word.isBuiltinType (ρ v.typeName) = Word.isBuiltinType v.typeName := by
    have hsub : ∀ w ∈ Word.builtinTypes, ρ w = w := fun w hw => hρ.reserved w (by
      simp only [Word.reserved, List.append_assoc]
      exact List.mem_append_left _ hw)
    rw [Bool.eq_iff_iff, Word.isBuiltinType, Word.isBuiltinType, List.contains_iff_mem,
      List.contains_iff_mem]
    constructor
    · intro hmem
      rwa [hρ.injective (hsub _ hmem)] at hmem
    · intro hmem
      rwa [hsub _ hmem]
  unfold Variable.isClassObject
  rw [show (v.rename ρ).typeName = ρ v.typeName from rfl, hbuiltin]
  rfl

theorem resolveTypes (hρ : Renaming ρ) (h : t.Renamed ρ t') :
    t.resolveTypes.Renamed ρ t'.resolveTypes := by
  refine { h with vars := ?_ }
  simp only [SymbolTable.resolveTypes, h.vars, Array.map_map]
  congr 1
  funext v
  simp only [Function.comp_apply, isClassObject_rename hρ]
  split
  · simp only [Variable.rename, h.classScope?_eq hρ]
  · rfl

end SymbolTable.Renamed

/-- **Renaming a listing renames its symbols.** -/
theorem SymbolTable.renamed_ofListing (h : l.Renamed ρ l') (hl : l.WellFormed) :
    (ofListing l).Renamed ρ (ofListing l') := by
  have hempty : Resolver.Renamed ρ ⟨empty l.size, []⟩ ⟨empty l.size, []⟩ :=
    ⟨⟨.nil, .nil, by simp [empty], rfl⟩, rfl, by simp⟩
  obtain ⟨hglobal, _⟩ := hempty.addScope .global "" 0 l.size none none
  rw [h.names.empty] at hglobal
  have houtline : l.outline.Renamed ρ l'.outline := by
    unfold Listing.outline
    rw [h.size_eq]
    exact Outline.renamed_ofTokens h l.size 0
  unfold ofListing
  rw [h.size_eq]
  exact (hglobal.enter h houtline (Outline.named_ofTokens hl _ _) 0 [] []).1.table.resolveTypes
    h.names

end StackEscape
