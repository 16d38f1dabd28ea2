import StackEscape.Proofs.Outline.Names
import StackEscape.Symbol.Resolve

/-!
# What names are bound to

A token is bound only to a variable of the same name, and only if it is a name. The invariant that
carries this through name resolution is about three things at once: the variables entered so far,
the bindings made so far, and the frames in which later names will be looked up.
-/

namespace StackEscape

/-! ## Bindings -/

theorem Bindings.get?_bind {b : Bindings} {i j : Nat} {v w : VariableId}
    (h : (b.bind i v).get? j = some w) : (j = i ∧ w = v) ∨ b.get? j = some w := by
  rcases Nat.decEq i j with hij | rfl
  · right
    simpa [bind, get?, Array.getElem?_setIfInBounds, hij] using h
  · left
    refine ⟨rfl, ?_⟩
    unfold bind get? at h
    rcases Nat.lt_or_ge i b.slots.size with hi | hi
    · rw [Array.getElem?_setIfInBounds_self_of_lt hi] at h
      exact (Option.some.inj h).symm
    · rw [Array.getElem?_eq_none (by simpa using hi)] at h
      cases h

/-! ## Names of variables -/

/-- What a variable has from the token that declares it. -/
structure Variable.Named (l : Listing) (v : Variable) : Prop where
  text : v.name = l.text v.nameToken
  isName : l.isName v.nameToken = true
  free : Word.isStatementWord v.name = false

namespace SymbolTable

/-- That the variable at place `id` is called `name`. -/
def Calls (t : SymbolTable) (id : VariableId) (name : String) : Prop :=
  ∃ v, t.getVariable? id = some v ∧ v.name = name

/-- That variables keep their places. -/
def Grows (t u : SymbolTable) : Prop :=
  ∀ id v, t.getVariable? id = some v → u.getVariable? id = some v

theorem Grows.refl (t : SymbolTable) : t.Grows t := fun _ _ h => h

theorem Grows.trans {t u w : SymbolTable} (htu : t.Grows u) (huw : u.Grows w) : t.Grows w :=
  fun id v h => huw id v (htu id v h)

theorem Calls.grow {t u : SymbolTable} {id : VariableId} {name : String} (h : t.Calls id name)
    (hg : t.Grows u) : u.Calls id name := by
  obtain ⟨v, hv, hn⟩ := h
  exact ⟨v, hg id v hv, hn⟩

/-- That variables are called what the tokens that declare them say, and that bound tokens are names
of the variables that they are bound to. -/
structure Named (l : Listing) (t : SymbolTable) : Prop where
  vars : ∀ id v, t.getVariable? id = some v → v.Named l
  bindings : ∀ i id, t.bindings.get? i = some id → l.isName i = true ∧ t.Calls id (l.text i)

end SymbolTable

/-- That the entries of a frame are the variables they are filed under. -/
def Frame.Named (t : SymbolTable) (frame : Frame) : Prop := ∀ e ∈ frame, t.Calls e.2 e.1

theorem Frame.Named.grow {t u : SymbolTable} {frame : Frame} (h : frame.Named t)
    (hg : t.Grows u) : frame.Named u := fun e he => (h e he).grow hg

theorem Frame.named_nil (t : SymbolTable) : Frame.Named t [] := fun _ he => nomatch he

/-- The same of all frames that are searched for a name. -/
def Frame.AllNamed (t : SymbolTable) (frames : List Frame) : Prop := ∀ f ∈ frames, f.Named t

namespace Frame.AllNamed

variable {t u : SymbolTable} {frame : Frame} {frames frames' : List Frame}

theorem nil (t : SymbolTable) : AllNamed t [] := fun _ hf => nomatch hf

theorem cons (h : frame.Named t) (hs : AllNamed t frames) : AllNamed t (frame :: frames) :=
  List.forall_mem_cons.mpr ⟨h, hs⟩

theorem append (h : AllNamed t frames) (h' : AllNamed t frames') :
    AllNamed t (frames ++ frames') := List.forall_mem_append.mpr ⟨h, h'⟩

theorem grow (h : AllNamed t frames) (hg : t.Grows u) : AllNamed u frames :=
  fun f hf => (h f hf).grow hg

theorem head (h : AllNamed t (frame :: frames)) : frame.Named t := h frame List.mem_cons_self

theorem tail (h : AllNamed t (frame :: frames)) : AllNamed t frames :=
  fun f hf => h f (List.mem_cons_of_mem _ hf)

end Frame.AllNamed

/-- A name is looked up among variables of that name. -/
theorem Frame.calls_of_find? {t : SymbolTable} {frames : List Frame} {name : String}
    {id : VariableId} (hf : AllNamed t frames) (h : find? frames name = some id) :
    t.Calls id name := by
  obtain ⟨frame, hmem, hlook⟩ := List.exists_of_findSome?_eq_some h
  obtain ⟨before, after, he, _⟩ := List.lookup_eq_some_iff.mp hlook
  exact hf frame hmem (name, id) (by rw [he]; simp)

namespace Resolver

/-- The invariant of name resolution, as far as table and class members are concerned. -/
structure Sound (l : Listing) (r : Resolver) : Prop where
  table : r.table.Named l
  members : ∀ m ∈ r.members, Frame.Named r.table m.2

/-- One more stretch of name resolution: the invariant is kept, and no variable moves. -/
structure Leads (l : Listing) (r r' : Resolver) : Prop where
  sound : r'.Sound l
  grows : r.table.Grows r'.table

theorem Leads.refl {l : Listing} {r : Resolver} (h : r.Sound l) : r.Leads l r :=
  ⟨h, .refl _⟩

theorem Leads.trans {l : Listing} {r r' r'' : Resolver} (h : r.Leads l r') (h' : r'.Leads l r'') :
    r.Leads l r'' := ⟨h'.sound, h.grows.trans h'.grows⟩

section
variable {l : Listing} {r : Resolver}

/-- Scopes and functions play no part in the invariant. -/
theorem Sound.leads_of_eq (h : r.Sound l) {r' : Resolver} (hv : r'.table.vars = r.table.vars)
    (hb : r'.table.bindings = r.table.bindings) (hm : r'.members = r.members) : r.Leads l r' := by
  have hget : ∀ id, r'.table.getVariable? id = r.table.getVariable? id := by
    intro id
    unfold SymbolTable.getVariable?
    rw [hv]
  have hgrow : r.table.Grows r'.table := fun id v hid => (hget id).trans hid
  refine ⟨⟨⟨?_, ?_⟩, ?_⟩, hgrow⟩
  · intro id v hid
    exact h.table.vars id v ((hget id).symm.trans hid)
  · intro i id hid
    rw [hb] at hid
    obtain ⟨hname, hcalls⟩ := h.table.bindings i id hid
    exact ⟨hname, hcalls.grow hgrow⟩
  · intro m hmem
    rw [hm] at hmem
    exact (h.members m hmem).grow hgrow

theorem leads_addScope (h : r.Sound l) (kind : ScopeKind) (name : String) (start stop : Nat)
    (parent : Option ScopeId) (function : Option FunctionId) :
    r.Leads l (r.addScope kind name start stop parent function).1 :=
  h.leads_of_eq rfl rfl rfl

theorem leads_addVariable (h : r.Sound l) (role : Role) (scope : ScopeId) {d : Declarator}
    (hd : d.Named l) : r.Leads l (r.addVariable l role scope d).1 ∧
      (r.addVariable l role scope d).1.table.Calls (r.addVariable l role scope d).2
        (l.text d.nameToken) := by
  have hnew : (r.addVariable l role scope d).1.table.getVariable? r.table.vars.size =
      some { id := r.table.vars.size, name := l.text d.nameToken, nameToken := d.nameToken,
             typeStart := d.typeStart, scope, typeName := d.typeName, role,
             isStatic := d.isStatic, isReference := d.isReference, isPointer := d.isPointer,
             isArray := d.isArray, typeScope := none } :=
    Array.getElem?_push_size
  have hcalls : (r.addVariable l role scope d).1.table.Calls r.table.vars.size
      (l.text d.nameToken) := ⟨_, hnew, rfl⟩
  have hgrow : r.table.Grows (r.addVariable l role scope d).1.table := by
    intro id v hid
    obtain ⟨hlt, rfl⟩ := Array.getElem?_eq_some_iff.mp hid
    exact Array.getElem?_push_lt hlt
  refine ⟨⟨⟨⟨?_, ?_⟩, ?_⟩, hgrow⟩, hcalls⟩
  · intro id v hid
    rcases Nat.lt_trichotomy id r.table.vars.size with hlt | rfl | hgt
    · have hold : (r.addVariable l role scope d).1.table.getVariable? id = some r.table.vars[id] :=
        Array.getElem?_push_lt hlt
      obtain rfl := Option.some.inj (hold.symm.trans hid)
      exact h.table.vars id _ (Array.getElem?_eq_getElem hlt)
    · obtain rfl := Option.some.inj (hnew.symm.trans hid)
      exact ⟨rfl, hd.isName, hd.free⟩
    · have hnone : (r.addVariable l role scope d).1.table.getVariable? id = none :=
        Array.getElem?_eq_none (by rw [addVariable, Array.size_push]; exact hgt)
      rw [hnone] at hid
      cases hid
  · intro i id hid
    rcases Bindings.get?_bind hid with ⟨rfl, rfl⟩ | hid
    · exact ⟨hd.isName, hcalls⟩
    · obtain ⟨hname, hold⟩ := h.table.bindings i id hid
      exact ⟨hname, hold.grow hgrow⟩
  · intro m hmem
    exact (h.members m hmem).grow hgrow

theorem leads_declare (h : r.Sound l) (role : Role) (scope : ScopeId) {frame : Frame}
    (hf : frame.Named r.table) {ds : List Declarator} (hds : ∀ d ∈ ds, d.Named l) :
    r.Leads l (r.declare l role scope frame ds).1 ∧
      (r.declare l role scope frame ds).2.Named (r.declare l role scope frame ds).1.table := by
  induction ds generalizing r frame with
  | nil => exact ⟨.refl h, hf⟩
  | cons d ds ih =>
    obtain ⟨hadd, hcalls⟩ := leads_addVariable h role scope (hds d (List.mem_cons_self ..))
    have hf' : Frame.Named (r.addVariable l role scope d).1.table
        ((l.text d.nameToken, (r.addVariable l role scope d).2) :: frame) := by
      intro e he
      rcases List.mem_cons.mp he with rfl | he
      · exact hcalls
      · exact (hf e he).grow hadd.grows
    obtain ⟨hrest, hframe⟩ := ih hadd.sound hf' fun d hd => hds d (List.mem_cons_of_mem _ hd)
    exact ⟨hadd.trans hrest, hframe⟩

theorem leads_addMembers (h : r.Sound l) (name : String) {members : Frame}
    (hm : members.Named r.table) : r.Leads l (r.addMembers name members) := by
  unfold addMembers
  split
  · exact .refl h
  · refine ⟨⟨h.table, ?_⟩, .refl _⟩
    intro m hmem
    rcases List.mem_cons.mp hmem with rfl | hmem
    · exact hm
    · exact h.members m hmem

theorem leads_mention (h : r.Sound l) {frames : List Frame}
    (hf : Frame.AllNamed r.table frames) {token : Nat} (ht : l.isName token = true) :
    r.Leads l (r.mention l frames token) := by
  unfold mention
  split
  · exact .refl h
  · split
    · next id hid =>
      have hcalls := Frame.calls_of_find? hf hid
      refine ⟨⟨⟨h.table.vars, ?_⟩, h.members⟩, .refl _⟩
      intro i id' hi
      rcases Bindings.get?_bind hi with ⟨rfl, rfl⟩ | hi
      · exact ⟨ht, hcalls⟩
      · exact h.table.bindings i id' hi
    · exact .refl h

/-- Following a function body keeps the invariant. -/
theorem leads_followBody (h : r.Sound l) (scope : ScopeId) {outer blocks : List Frame}
    {base : Frame} (houter : Frame.AllNamed r.table outer) (hblocks : Frame.AllNamed r.table blocks)
    (hbase : base.Named r.table) {steps : List Body.Step} (hs : ∀ s ∈ steps, s.Named l) :
    r.Leads l (r.followBody l scope outer blocks base steps) := by
  fun_induction followBody l scope outer r blocks base steps with
  | case1 => exact .refl h
  | case2 r blocks base steps ih =>
    exact ih h houter (.cons (Frame.named_nil _) hblocks) hbase
      fun s hm => hs s (List.mem_cons_of_mem _ hm)
  | case3 r blocks base steps ih =>
    exact ih h houter (fun f hf => hblocks f (List.mem_of_mem_tail hf)) hbase
      fun s hm => hs s (List.mem_cons_of_mem _ hm)
  | case4 r blocks base token steps ih =>
    have hm := leads_mention h (hblocks.append (.cons hbase houter))
      (hs (.mention token) (List.mem_cons_self ..))
    exact hm.trans (ih hm.sound (houter.grow hm.grows) (hblocks.grow hm.grows)
      (hbase.grow hm.grows) fun s hs' => hs s (List.mem_cons_of_mem _ hs'))
  | case5 r base d steps r' base' hd ih =>
    obtain ⟨hlead, hframe⟩ := leads_declare h .local scope hbase
      (hs (.declare d) (List.mem_cons_self ..))
    rw [hd] at hlead hframe
    exact hlead.trans (ih hlead.sound (houter.grow hlead.grows) (.nil _) hframe
      fun s hs' => hs s (List.mem_cons_of_mem _ hs'))
  | case6 r base d steps block blocks r' block' hd ih =>
    obtain ⟨hlead, hframe⟩ := leads_declare h .local scope hblocks.head
      (hs (.declare d) (List.mem_cons_self ..))
    rw [hd] at hlead hframe
    exact hlead.trans (ih hlead.sound (houter.grow hlead.grows)
      (.cons hframe (hblocks.tail.grow hlead.grows)) (hbase.grow hlead.grows)
      fun s hs' => hs s (List.mem_cons_of_mem _ hs'))

/-- Entering a function keeps the invariant: its arguments and locals go into frames of its own. -/
theorem leads_addFunction (h : r.Sound l) (parent : ScopeId) {frames : List Frame}
    (hf : Frame.AllNamed r.table frames) {heading : Heading}
    (hp : ∀ d ∈ heading.parameters, d.Named l) {body : List Body.Step}
    (hb : ∀ s ∈ body, s.Named l) : r.Leads l (r.addFunction l parent frames heading body) := by
  have hscope := leads_addScope h .function heading.name heading.bodyOpen heading.bodyClose
    (some parent) (some r.table.functions.size)
  obtain ⟨hargs, hbase⟩ := leads_declare hscope.sound .argument r.table.scopes.size
    (Frame.named_nil _) hp
  have hentered := hscope.trans hargs
  generalize hr' : declare l .argument r.table.scopes.size (r.addScope .function heading.name
    heading.bodyOpen heading.bodyClose (some parent) (some r.table.functions.size)).1 []
    heading.parameters = entered at hargs hbase hentered
  -- the function itself is entered between its arguments and its locals
  have hpushed : ∀ functions : Array Function,
      entered.1.Leads l { entered.1 with table.functions := functions } :=
    fun _ => hargs.sound.leads_of_eq rfl rfl rfl
  have hplace : (r.addScope .function heading.name heading.bodyOpen heading.bodyClose (some parent)
      (some r.table.functions.size)).2 = r.table.scopes.size := rfl
  simp only [addFunction, hplace, hr']
  generalize entered.1.table.functions.push _ = functions
  refine hentered.trans ((hpushed functions).trans
    (leads_followBody (hpushed functions).sound _ (.append ?_ ?_) (.nil _) hbase hb))
  · intro f hq
    obtain ⟨q, _, hlook⟩ := Option.bind_eq_some_iff.mp (Option.mem_toList.mp hq)
    obtain ⟨before, after, he, _⟩ := List.lookup_eq_some_iff.mp hlook
    refine hargs.sound.members (q, f) ?_
    rw [he]
    simp
  · exact hf.grow hentered.grows

/-- Entering an outline keeps the invariant. -/
theorem leads_enter (h : r.Sound l) (scope : ScopeId) {outer : List Frame} {frame : Frame}
    (houter : Frame.AllNamed r.table outer) (hf : frame.Named r.table) {o : Outline}
    (ho : o.Named l) : r.Leads l (r.enter l scope outer frame o).1 ∧
      (r.enter l scope outer frame o).2.Named (r.enter l scope outer frame o).1.table := by
  induction o generalizing scope outer r frame with
  | done => exact ⟨.refl h, hf⟩
  | block kind name opener closer inside after ihin ihout =>
    obtain ⟨hin, hout⟩ := ho
    have hsight := Frame.AllNamed.cons hf houter
    cases kind with
    | namespaceBlock =>
      have hs := leads_addScope h .namespaceBlock name opener closer (some scope) none
      obtain ⟨hlead, _⟩ := ihin hs.sound r.table.scopes.size (hsight.grow hs.grows)
        (Frame.named_nil _) hin
      have hlead := hs.trans hlead
      obtain ⟨hrest, hframe⟩ := ihout hlead.sound scope (houter.grow hlead.grows)
        (hf.grow hlead.grows) hout
      exact ⟨hlead.trans hrest, hframe⟩
    | classBody =>
      have hs := leads_addScope h .classBody name opener closer (some scope) none
      obtain ⟨hlead, hmembers⟩ := ihin hs.sound r.table.scopes.size (hsight.grow hs.grows)
        (Frame.named_nil _) hin
      have hlead := (hs.trans hlead).trans (leads_addMembers hlead.sound name hmembers)
      obtain ⟨hrest, hframe⟩ := ihout hlead.sound scope (houter.grow hlead.grows)
        (hf.grow hlead.grows) hout
      exact ⟨hlead.trans hrest, hframe⟩
  | linkage inside after ihin ihout =>
    obtain ⟨hin, hout⟩ := ho
    obtain ⟨hlead, hframe⟩ := ihin h scope houter hf hin
    obtain ⟨hrest, hframe⟩ := ihout hlead.sound scope (houter.grow hlead.grows) hframe hout
    exact ⟨hlead.trans hrest, hframe⟩
  | function heading body after ih =>
    obtain ⟨hp, hb, hout⟩ := ho
    have hlead := leads_addFunction h scope (.cons hf houter) hp hb
    obtain ⟨hrest, hframe⟩ := ih hlead.sound scope (houter.grow hlead.grows)
      (hf.grow hlead.grows) hout
    exact ⟨hlead.trans hrest, hframe⟩
  | declaration d after ih =>
    obtain ⟨hd, hout⟩ := ho
    obtain ⟨hlead, hframe⟩ := leads_declare h .member scope hf hd
    obtain ⟨hrest, hframe⟩ := ih hlead.sound scope (houter.grow hlead.grows) hframe hout
    exact ⟨hlead.trans hrest, hframe⟩

end

end Resolver

namespace SymbolTable

theorem Named.resolveTypes {l : Listing} {t : SymbolTable} (h : t.Named l) :
    t.resolveTypes.Named l := by
  have hget : ∀ id v', t.resolveTypes.getVariable? id = some v' →
      ∃ v, t.getVariable? id = some v ∧ v'.name = v.name ∧ v'.nameToken = v.nameToken := by
    intro id v' hid
    obtain ⟨v, hv, rfl⟩ := Option.map_eq_some_iff.mp (Array.getElem?_map.symm.trans hid)
    refine ⟨v, hv, ?_⟩
    split <;> exact ⟨rfl, rfl⟩
  have hcalls : ∀ id name, t.Calls id name → t.resolveTypes.Calls id name := by
    rintro id name ⟨v, hv, rfl⟩
    refine ⟨_, Array.getElem?_map.trans (congrArg _ hv), ?_⟩
    dsimp only
    split <;> rfl
  refine ⟨?_, ?_⟩
  · intro id v' hid
    obtain ⟨v, hv, hn, ht⟩ := hget id v' hid
    obtain ⟨htext, hname, hfree⟩ := h.vars id v hv
    exact ⟨by rw [hn, ht, htext], by rw [ht]; exact hname, by rw [hn]; exact hfree⟩
  · intro i id hid
    obtain ⟨hname, hc⟩ := h.bindings i id hid
    exact ⟨hname, hcalls _ _ hc⟩

/-- **Bindings keep names.** In the symbol table of a listing every variable is called what its name
token says, and a bound token is a name of the variable it is bound to. -/
theorem named_ofListing {l : Listing} (hl : l.WellFormed) : (ofListing l).Named l := by
  have hempty : Resolver.Sound l ⟨empty l.size, []⟩ := by
    refine ⟨⟨?_, ?_⟩, by simp⟩
    · intro id v hid
      simp [empty, getVariable?] at hid
    · intro i id hid
      simp only [empty, Bindings.unbound, Bindings.get?, Array.getElem?_replicate] at hid
      split at hid <;> cases hid
  have hglobal := Resolver.leads_addScope hempty .global "" 0 l.size none none
  obtain ⟨hlead, _⟩ := Resolver.leads_enter hglobal.sound 0 (.nil _) (Frame.named_nil _)
    (Outline.named_ofTokens hl l.size 0)
  exact hlead.sound.table.resolveTypes

/-- A bound token is no statement word. -/
theorem Named.free_of_bound {l : Listing} {t : SymbolTable} (h : t.Named l) {i : Nat}
    {id : VariableId} (hi : t.bindings.get? i = some id) :
    Word.isStatementWord (l.text i) = false := by
  obtain ⟨_, v, hv, hn⟩ := h.bindings i id hi
  rw [← hn]
  exact (h.vars id v hv).free

end SymbolTable

end StackEscape
