import StackEscape.Proofs.Symbol.Tracking

/-!
# How a function was entered

What the finished table says about a function goes back to the moment when its body began to be
followed: `Entered` is that state, in which only the arguments of the function are its own, and
`Ran` says that the table contains what following the body led to. Both hold of every function,
since nothing that is entered later reaches back: `Settled` is the invariant that shows it.
-/

namespace StackEscape

def Scope.Keeps (scopes scopes' : Array Scope) : Prop :=
  ∀ (id : Nat) (s : Scope), scopes[id]? = some s → scopes'[id]? = some s

namespace Scope.Keeps

variable {scopes scopes' scopes'' : Array Scope}

theorem refl (scopes : Array Scope) : Keeps scopes scopes := fun _ _ h => h

theorem trans (h : Keeps scopes scopes') (h' : Keeps scopes' scopes'') : Keeps scopes scopes'' :=
  fun id s hs => h' id s (h id s hs)

theorem push (scopes : Array Scope) (s : Scope) : Keeps scopes (scopes.push s) := by
  intro id s' hs
  obtain ⟨hlt, rfl⟩ := Array.getElem?_eq_some_iff.mp hs
  exact Array.getElem?_push_lt hlt

end Scope.Keeps

/-- The entries of a frame are declared outside of functions. -/
def Frame.Members (t : SymbolTable) (frame : Frame) : Prop :=
  ∀ x ∈ frame, ∃ v, t.getVariable? x.2 = some v ∧ v.role = .member

theorem Frame.Members.grow {t u : SymbolTable} {frame : Frame} (h : frame.Members t)
    (hg : t.Grows u) : frame.Members u := by
  intro x hx
  obtain ⟨v, hv, hrole⟩ := h x hx
  exact ⟨v, hg _ _ hv, hrole⟩

theorem Frame.members_nil (t : SymbolTable) : Frame.Members t [] := fun _ hx => nomatch hx

def Frame.AllMembers (t : SymbolTable) (frames : List Frame) : Prop := ∀ f ∈ frames, f.Members t

namespace Frame.AllMembers

variable {t u : SymbolTable} {frame : Frame} {frames : List Frame}

theorem grow (h : AllMembers t frames) (hg : t.Grows u) : AllMembers u frames :=
  fun f hf => (h f hf).grow hg

theorem cons (h : frame.Members t) (hs : AllMembers t frames) : AllMembers t (frame :: frames) :=
  List.forall_mem_cons.mpr ⟨h, hs⟩

end Frame.AllMembers

namespace SymbolTable

/-- From the token `n` on, only names of members are bound so far, where they are declared. -/
def Ahead (t : SymbolTable) (n : Nat) : Prop :=
  ∀ i id, n ≤ i → t.bindings.get? i = some id →
    ∃ v, t.getVariable? id = some v ∧ v.nameToken = i ∧ v.role = .member

theorem Ahead.mono {t : SymbolTable} {n m : Nat} (h : t.Ahead n) (hnm : n ≤ m) : t.Ahead m :=
  fun i id hi => h i id (Nat.le_trans hnm hi)

end SymbolTable

/-! ## Functions -/

/-- What is so when the body of the function `f` with the scope `s` begins to be followed. -/
structure Entered (l : Listing) (s : Scope) (f : Function) (r : Resolver) (base : Frame)
    (outer : List Frame) : Prop where
  owned : ∀ id v, r.table.Owns s.id id v → v.role = .argument ∧ v.nameToken < s.start ∧
    (v.name, id) ∈ base ∧ id ∈ f.arguments
  entries : ∀ x ∈ base, ∃ v, r.table.Owns s.id x.2 v ∧ v.name = x.1
  latest : base.Pairwise fun x y => y.2 < x.2
  around : Frame.AllMembers r.table outer
  ahead : r.table.Ahead s.start
  slots : r.table.bindings.slots.size = l.size

/-- In front of the body, the arguments are in sight. -/
theorem Entered.tracks {l : Listing} {s : Scope} {f : Function} {r : Resolver} {base : Frame}
    {outer : List Frame} (h : Entered l s f r base outer) (hs : SymbolTable.IsBody l s) :
    Tracks l s (s.start + 1) r.table [base] [s.start] := by
  have hlt := Listing.lt_of_closing? hs.closes
  refine ⟨Nat.lt_succ_self _, hlt, .start hs.brace hs.closes, Nat.le_refl _, ?_, ?_, ?_, ?_, ?_⟩
  · intro x hx
    rw [List.flatten_singleton] at hx
    exact h.entries x hx
  · rw [List.flatten_singleton]
    exact h.latest
  · intro id v hv _ last hlast
    obtain rfl := Option.some.inj hlast
    exact (h.owned id v hv).2.2.1
  · intro id v hv hlocal
    have harg := (h.owned id v hv).1
    rw [hlocal] at harg
    cases harg
  · refine fun _ => .cons (fun x hx => ?_) .nil
    obtain ⟨v, hv, _⟩ := h.entries x hx
    refine ⟨v, hv.1, fun hlocal => ?_⟩
    have harg := (h.owned _ v hv).1
    rw [hlocal] at harg
    cases harg

/-- A table has what became of the function `f` with the scope `s`: its body was followed, and what
came later concerns only the tokens behind. -/
structure Ran (l : Listing) (s : Scope) (f : Function) (t : SymbolTable) : Prop where
  function : t.functionOf? s = some f
  scope : f.scope = s.id
  run : ∃ r base outer, Entered l s f r base outer ∧
    (r.followBody l s.id outer [] base (Body.steps l s.stop (s.start + 1) true)).table.GrowsFrom
      (s.stop + 1) t

theorem Ran.grow {l : Listing} {s : Scope} {f : Function} {t u : SymbolTable} {n : Nat}
    (h : Ran l s f t) (hg : t.GrowsFrom n u) (hn : s.stop < n) : Ran l s f u := by
  obtain ⟨r, base, outer, hentered, hgrows⟩ := h.run
  obtain ⟨id, hid, hf⟩ := Option.bind_eq_some_iff.mp h.function
  exact ⟨Option.bind_eq_some_iff.mpr ⟨id, hid, hg.functions id f hf⟩, h.scope,
    ⟨r, base, outer, hentered, hgrows.trans (hg.mono hn)⟩⟩

namespace Resolver

/-- The invariant of name resolution between two constructs, all of it having gone on in front of
the token `n`. -/
structure Settled (l : Listing) (n : Nat) (r : Resolver) : Prop where
  ahead : r.table.Ahead n
  members : ∀ m ∈ r.members, Frame.Members r.table m.2
  /-- A local or an argument has a scope, and a local stands between its braces. -/
  inScope : ∀ id v, r.table.getVariable? id = some v → v.role ≠ .member →
    ∃ s, r.table.getScope? v.scope = some s ∧
      (v.role = .local → s.start < v.nameToken ∧ v.nameToken < s.stop)
  declared : ∀ id v, r.table.getVariable? id = some v →
    (r.table.bindings.get? v.nameToken).isSome = true
  slots : r.table.bindings.slots.size = l.size
  numbered : ∀ s ∈ r.table.scopes, r.table.getScope? s.id = some s
  ran : ∀ s ∈ r.table.scopes, s.isFunction = true → s.stop < n ∧ ∃ f, Ran l s f r.table

section
variable {l : Listing} {r r' : Resolver} {n : Nat}

theorem Settled.mono (h : r.Settled l n) {m : Nat} (hnm : n ≤ m) : r.Settled l m := by
  refine { h with ahead := h.ahead.mono hnm, ran := fun s hs hf => ?_ }
  obtain ⟨hstop, hran⟩ := h.ran s hs hf
  exact ⟨Nat.lt_of_lt_of_le hstop hnm, hran⟩

/-- A new scope is known by its place, and the old ones keep theirs. -/
theorem numbered_push {scopes : Array Scope} (h : ∀ s ∈ scopes, scopes[s.id]? = some s)
    {new : Scope} (hnew : new.id = scopes.size) :
    ∀ s ∈ scopes.push new, (scopes.push new)[s.id]? = some s := by
  intro s hs
  rcases Array.mem_push.mp hs with hs | rfl
  · exact Scope.Keeps.push _ _ _ _ (h s hs)
  · rw [hnew]
    exact Array.getElem?_push_size

/-- A scope that is no function says nothing about variables. -/
theorem Settled.addScope (h : r.Settled l n) (kind : ScopeKind) (hkind : kind ≠ .function)
    (name : String) (start stop : Nat) (parent : Option ScopeId) (function : Option FunctionId) :
    (r.addScope kind name start stop parent function).1.Settled l n := by
  refine ⟨h.ahead, h.members, ?_, h.declared, h.slots, numbered_push h.numbered rfl, ?_⟩
  · intro id v hv hrole
    obtain ⟨s, hs, hlocal⟩ := h.inScope id v hv hrole
    exact ⟨s, Scope.Keeps.push _ _ _ _ hs, hlocal⟩
  · intro s hs hf
    rcases Array.mem_push.mp hs with hs | rfl
    · obtain ⟨hstop, f, hran⟩ := h.ran s hs hf
      exact ⟨hstop, f, hran.grow (.of_eq rfl rfl rfl) hstop⟩
    · exact absurd (of_decide_eq_true hf) hkind

theorem Settled.addMembers (h : r.Settled l n) (name : String) {members : Frame}
    (hm : members.Members r.table) : (r.addMembers name members).Settled l n ∧
      r.table.Grows (r.addMembers name members).table := by
  unfold Resolver.addMembers
  split
  · exact ⟨h, .refl _⟩
  · exact ⟨{ h with members := List.forall_mem_cons.mpr ⟨hm, h.members⟩ }, .refl _⟩

@[simp] theorem members_declare (l : Listing) (role : Role) (scope : ScopeId) (r : Resolver)
    (frame : Frame) (ds : List Declarator) :
    (r.declare l role scope frame ds).1.members = r.members := by
  induction ds generalizing r frame with
  | nil => rfl
  | cons d ds ih => exact ih _ _

@[simp] theorem members_mention (l : Listing) (frames : List Frame) (r : Resolver) (token : Nat) :
    (r.mention l frames token).members = r.members := by
  unfold mention
  repeat' split
  all_goals rfl

@[simp] theorem members_followBody (l : Listing) (scope : ScopeId) (outer : List Frame)
    (r : Resolver) (blocks : List Frame) (base : Frame) (steps : List Body.Step) :
    (r.followBody l scope outer blocks base steps).members = r.members := by
  fun_induction followBody l scope outer r blocks base steps with
  | case1 => rfl
  | case2 _ _ _ _ ih => exact ih
  | case3 _ _ _ _ ih => exact ih
  | case4 _ _ _ _ _ ih => rw [ih, members_mention]
  | case5 r base d steps r' base' hd ih => rw [ih, ← members_declare l .local scope r base, hd]
  | case6 r base d steps block blocks r' block' hd ih =>
    rw [ih, ← members_declare l .local scope r block, hd]

/-- Members are declared. -/
theorem Settled.declare (h : r.Settled l n) (scope : ScopeId) {frame : Frame}
    (hframe : frame.Members r.table) {ds : List Declarator} (hn : ∀ d ∈ ds, n ≤ d.nameToken)
    (hnamed : ∀ d ∈ ds, d.Named l) : (r.declare l .member scope frame ds).1.Settled l n ∧
      (r.declare l .member scope frame ds).2.Members (r.declare l .member scope frame ds).1.table ∧
      r.table.Grows (r.declare l .member scope frame ds).1.table := by
  have hd := declares_declare (l := l) .member scope r frame ds
  have hscopes := scopes_declare l .member scope r frame ds
  have hmembers := members_declare l .member scope r frame ds
  generalize hr : r.declare l .member scope frame ds = out at hd hscopes hmembers ⊢
  have hgrows := hd.grows n hn
  obtain ⟨front, hfront, _, hfresh⟩ := hd.frame
  refine ⟨⟨?_, ?_, ?_, ?_, hgrows.slots.trans h.slots, ?_, ?_⟩, ?_, hgrows.vars⟩
  · intro i id hi hid
    rcases hd.bindings i id hid with hid | ⟨d, _, rfl, hv⟩
    · obtain ⟨v, hv, hi⟩ := h.ahead i id hi hid
      exact ⟨v, hgrows.vars _ _ hv, hi⟩
    · exact ⟨_, hv, rfl, rfl⟩
  · intro m hm
    rw [hmembers] at hm
    exact (h.members m hm).grow hgrows.vars
  · intro id v hv hrole
    unfold SymbolTable.getScope?
    rw [hscopes]
    rcases hd.vars id v hv with hv | ⟨d, _, rfl, _⟩
    · exact h.inScope id v hv hrole
    · exact absurd rfl hrole
  · intro id v hv
    rcases hd.vars id v hv with hv | ⟨d, hmem, rfl, _⟩
    · exact hgrows.bound _ (h.declared id v hv)
    · exact hd.bound d hmem (h.slots ▸ Listing.lt_size_of_isName (hnamed d hmem).isName)
  · unfold SymbolTable.getScope?
    rw [hscopes]
    exact h.numbered
  · intro s hs hf
    rw [hscopes] at hs
    obtain ⟨hstop, f, hran⟩ := h.ran s hs hf
    exact ⟨hstop, f, hran.grow hgrows hstop⟩
  · intro x hx
    rw [hfront] at hx
    rcases List.mem_append.mp hx with hx | hx
    · obtain ⟨_, d, _, _, hv⟩ := hfresh x hx
      exact ⟨_, hv, rfl⟩
    · exact hframe.grow hgrows.vars x hx

/-! ## Entering a function -/

def scopeOf (r : Resolver) (parent : ScopeId) (heading : Heading) : Scope :=
  ⟨r.table.scopes.size, .function, heading.name, heading.bodyOpen, heading.bodyClose, some parent,
    some r.table.functions.size⟩

def functionOf (r : Resolver) (heading : Heading) : Function :=
  ⟨r.table.functions.size, heading.name, heading.nameToken, heading.returns, r.table.scopes.size,
    List.range' r.table.vars.size heading.parameters.length⟩

/-- The scope of a function and its arguments, the function itself not being recorded yet. -/
def withArguments (l : Listing) (r : Resolver) (parent : ScopeId) (heading : Heading) :
    Resolver × Frame :=
  declare l .argument r.table.scopes.size
    { r with table.scopes := r.table.scopes.push (r.scopeOf parent heading) } [] heading.parameters

/-- The state in which the body of a function begins to be followed. -/
def opened (l : Listing) (r : Resolver) (parent : ScopeId) (heading : Heading) : Resolver :=
  let r' := (r.withArguments l parent heading).1
  { r' with table.functions := r'.table.functions.push (r.functionOf heading) }

/-- The frames around a function: the members of its class, and what was in sight before. -/
def around (r : Resolver) (frames : List Frame) (heading : Heading) : List Frame :=
  (heading.qualifier.bind fun q => r.members.lookup q).toList ++ frames

theorem addFunction_eq (l : Listing) (r : Resolver) (parent : ScopeId) (frames : List Frame)
    (heading : Heading) (body : List Body.Step) :
    r.addFunction l parent frames heading body =
      (r.opened l parent heading).followBody l r.table.scopes.size
        ((r.opened l parent heading).around frames heading) []
        (r.withArguments l parent heading).2 body := rfl

theorem functions_declare (l : Listing) (role : Role) (scope : ScopeId) (r : Resolver)
    (frame : Frame) (ds : List Declarator) :
    (r.declare l role scope frame ds).1.table.functions = r.table.functions := by
  induction ds generalizing r frame with
  | nil => rfl
  | cons d ds ih => exact ih _ _

theorem size_vars_declare (l : Listing) (role : Role) (scope : ScopeId) (r : Resolver)
    (frame : Frame) (ds : List Declarator) :
    (r.declare l role scope frame ds).1.table.vars.size = r.table.vars.size + ds.length := by
  induction ds generalizing r frame with
  | nil => rfl
  | cons d ds ih =>
    have hsize : (r.addVariable l role scope d).1.table.vars.size = r.table.vars.size + 1 :=
      Array.size_push _
    rw [declare, ih, hsize, List.length_cons]
    omega

theorem declares_withArguments (l : Listing) (r : Resolver) (parent : ScopeId)
    (heading : Heading) : Declares l .argument r.table.scopes.size heading.parameters
      { r with table.scopes := r.table.scopes.push (r.scopeOf parent heading) }
      (r.withArguments l parent heading).1 [] (r.withArguments l parent heading).2 :=
  declares_declare ..

theorem members_opened (l : Listing) (r : Resolver) (parent : ScopeId) (heading : Heading) :
    (r.opened l parent heading).members = r.members := members_declare ..

theorem scopes_opened (l : Listing) (r : Resolver) (parent : ScopeId) (heading : Heading) :
    (r.opened l parent heading).table.scopes = r.table.scopes.push (r.scopeOf parent heading) :=
  scopes_declare ..

theorem functions_opened (l : Listing) (r : Resolver) (parent : ScopeId) (heading : Heading) :
    (r.opened l parent heading).table.functions = r.table.functions.push (r.functionOf heading) :=
  congrArg (Array.push · _) (functions_declare ..)

theorem getScope?_opened (l : Listing) (r : Resolver) (parent : ScopeId) (heading : Heading) :
    (r.opened l parent heading).table.getScope? r.table.scopes.size =
      some (r.scopeOf parent heading) := by
  unfold SymbolTable.getScope?
  rw [scopes_opened]
  exact Array.getElem?_push_size

theorem getFunction?_opened (l : Listing) (r : Resolver) (parent : ScopeId) (heading : Heading) :
    (r.opened l parent heading).table.getFunction? r.table.functions.size =
      some (r.functionOf heading) := by
  unfold SymbolTable.getFunction?
  rw [functions_opened]
  exact Array.getElem?_push_size

theorem scopes_addFunction (l : Listing) (r : Resolver) (parent : ScopeId) (frames : List Frame)
    (heading : Heading) (body : List Body.Step) :
    (r.addFunction l parent frames heading body).table.scopes =
      r.table.scopes.push (r.scopeOf parent heading) := by
  rw [addFunction_eq, scopes_followBody, scopes_opened]

theorem growsFrom_opened {parent : ScopeId} {heading : Heading}
    (hn : ∀ d ∈ heading.parameters, n ≤ d.nameToken) :
    r.table.GrowsFrom n (r.opened l parent heading).table := by
  have hscope : r.table.GrowsFrom n
      { r.table with scopes := r.table.scopes.push (r.scopeOf parent heading) } :=
    .of_eq rfl rfl rfl
  have h := hscope.trans ((declares_withArguments l r parent heading).grows n hn)
  refine ⟨h.vars, ?_, h.later, h.before, h.bound, h.slots⟩
  intro id f hf
  obtain ⟨hlt, rfl⟩ := Array.getElem?_eq_some_iff.mp (h.functions id f hf)
  exact Array.getElem?_push_lt hlt

/-- When a body begins to be followed, only the arguments belong to the function. -/
theorem Settled.entered (h : r.Settled l n) {start stop : Nat} {heading : Heading}
    (hreads : Heading.ofTokens? l start stop = some heading) (hn : n ≤ start) (parent : ScopeId)
    {frames : List Frame} (hframes : Frame.AllMembers r.table frames) :
    Entered l (r.scopeOf parent heading) (r.functionOf heading) (r.opened l parent heading)
      (r.withArguments l parent heading).2 ((r.opened l parent heading).around frames heading) := by
  have hd := declares_withArguments l r parent heading
  have hplace := Heading.within_of_mem_parameters hreads
  have hbody := (Heading.lt_bodyOpen hreads).1
  have hgrows : r.table.GrowsFrom n (r.opened l parent heading).table :=
    growsFrom_opened fun d hd => Nat.le_trans hn (hplace d hd).1
  -- no variable of the new scope was there before
  have hnew : ∀ id v, (r.opened l parent heading).table.Owns r.table.scopes.size id v →
      r.table.getVariable? id ≠ some v := by
    rintro id v ⟨_, hscope, hrole⟩ hold
    obtain ⟨s, hs, _⟩ := h.inScope id v hold hrole
    exact absurd hscope (Nat.ne_of_lt (Array.getElem?_eq_some_iff.mp hs).1)
  obtain ⟨front, hfront, hsorted, hfresh⟩ := hd.frame
  rw [List.append_nil] at hfront
  refine ⟨?_, ?_, hfront ▸ hsorted, ?_, ?_, hgrows.slots.trans h.slots⟩
  · intro id v hv
    rcases hd.vars id v hv.1 with hold | ⟨d, hmem, rfl, hbase⟩
    · exact absurd hold (hnew id v hv)
    · refine ⟨rfl, (hplace d hmem).2, hbase, List.mem_range'_1.mpr ⟨?_, ?_⟩⟩
      · refine Nat.not_lt.mp fun hlt => hnew id _ hv ?_
        have hold : r.table.getVariable? id = some r.table.vars[id] :=
          Array.getElem?_eq_getElem hlt
        rw [hold, ← hgrows.vars id _ hold]
        exact hv.1
      · have hlt := (Array.getElem?_eq_some_iff.mp hv.1).1
        exact Nat.lt_of_lt_of_eq hlt (size_vars_declare ..)
  · intro x hx
    obtain ⟨_, d, _, hname, hv⟩ := hfresh x (hfront ▸ hx)
    exact ⟨_, ⟨hv, rfl, by simp [Declarator.toVariable]⟩, hname.symm⟩
  · refine List.forall_mem_append.mpr ⟨?_, hframes.grow hgrows.vars⟩
    intro f hf
    obtain ⟨q, _, hlook⟩ := Option.bind_eq_some_iff.mp (Option.mem_toList.mp hf)
    refine (h.members (q, f) ?_).grow hgrows.vars
    rw [members_opened] at hlook
    exact mem_of_lookup hlook
  · intro i id hi hid
    rcases hd.bindings i id hid with hid | ⟨d, hmem, rfl, _⟩
    · change heading.bodyOpen ≤ i at hi
      obtain ⟨v, hv, hmember⟩ := h.ahead i id (by omega) hid
      exact ⟨v, hgrows.vars _ _ hv, hmember⟩
    · exact absurd (hplace d hmem).2 (Nat.not_lt.mpr hi)

/-- The state behind the body of a function. -/
def closed (l : Listing) (r : Resolver) (parent : ScopeId) (frames : List Frame)
    (heading : Heading) : Resolver :=
  r.addFunction l parent frames heading (Body.steps l heading.bodyClose (heading.bodyOpen + 1) true)

variable {parent : ScopeId} {frames : List Frame} {heading : Heading} {start stop : Nat}

theorem scopes_closed : (r.closed l parent frames heading).table.scopes =
    r.table.scopes.push (r.scopeOf parent heading) := scopes_addFunction ..

theorem members_closed : (r.closed l parent frames heading).members = r.members := by
  rw [closed, addFunction_eq, members_followBody, members_opened]

theorem follows_closed : Follows l r.table.scopes.size
    (Body.steps l heading.bodyClose (heading.bodyOpen + 1) true) (r.opened l parent heading)
    (r.closed l parent frames heading) := follows_followBody ..

/-- What is bound in the body of a heading stands between its braces. -/
theorem binds_body (hl : l.WellFormed) (hreads : Heading.ofTokens? l start stop = some heading) :
    ∀ s ∈ Body.steps l heading.bodyClose (heading.bodyOpen + 1) true,
      s.Binds fun t => heading.bodyOpen + 1 ≤ t ∧ t < heading.bodyClose := by
  obtain ⟨hbrace, _, hclose⟩ := Heading.body_of_ofTokens? hreads
  exact Body.binds_steps hl true hbrace hclose (Nat.lt_succ_self _)

theorem growsFrom_closed (hl : l.WellFormed)
    (hreads : Heading.ofTokens? l start stop = some heading) (hn : n ≤ start) :
    (r.opened l parent heading).table.GrowsFrom n (r.closed l parent frames heading).table := by
  have hbody := (Heading.lt_bodyOpen hreads).1
  refine growsFrom_followBody _ _ _ _ fun s hs => (binds_body hl hreads s hs).mono fun t ht => ?_
  omega

/-- The body of a function has been followed, and the function is the one of its scope. -/
theorem Settled.ran_closed (h : r.Settled l n) (hl : l.WellFormed)
    (hreads : Heading.ofTokens? l start stop = some heading) (hn : n ≤ start)
    (hframes : Frame.AllMembers r.table frames) :
    Ran l (r.scopeOf parent heading) (r.functionOf heading)
      (r.closed l parent frames heading).table := by
  refine ⟨?_, rfl, r.opened l parent heading, (r.withArguments l parent heading).2,
    (r.opened l parent heading).around frames heading, h.entered hreads hn parent hframes,
    .refl _ _⟩
  exact (growsFrom_closed hl hreads hn).functions r.table.functions.size _
    (getFunction?_opened l r parent heading)

/-- Behind the body, no name is bound but those of members. -/
theorem Settled.ahead_closed (h : r.Settled l n) (hl : l.WellFormed)
    (hreads : Heading.ofTokens? l start stop = some heading) (hn : n ≤ start)
    (hframes : Frame.AllMembers r.table frames) :
    (r.closed l parent frames heading).table.Ahead (heading.bodyClose + 1) := by
  have hclose := (Heading.body_of_ofTokens? hreads).2.2
  have hlt := Listing.lt_of_closing? hclose
  have hbinds := binds_body hl hreads
  intro i id hi hid
  rcases (follows_closed.bindings i id hid) with hid | hm | ⟨d, hm, x, hx, rfl, _⟩
  · have hstart : heading.bodyOpen ≤ i := by omega
    obtain ⟨v, hv, hmember⟩ := (h.entered hreads hn parent hframes).ahead i id hstart hid
    exact ⟨v, (growsFrom_closed hl hreads hn).vars _ _ hv, hmember⟩
  · have hwithin : heading.bodyOpen + 1 ≤ i ∧ i < heading.bodyClose := hbinds _ hm
    omega
  · have hwithin := hbinds _ hm x hx
    omega

/-- The name of every variable is bound, also of those that the function declares. -/
theorem Settled.declared_closed (h : r.Settled l n) (hl : l.WellFormed)
    (hreads : Heading.ofTokens? l start stop = some heading) (hn : n ≤ start) (id : VariableId)
    (v : Variable) (hv : (r.closed l parent frames heading).table.getVariable? id = some v) :
    ((r.closed l parent frames heading).table.bindings.get? v.nameToken).isSome = true := by
  have hd := declares_withArguments l r parent heading
  have hopened : r.table.GrowsFrom n (r.opened l parent heading).table :=
    growsFrom_opened fun d hd => Nat.le_trans hn (Heading.within_of_mem_parameters hreads d hd).1
  have hsize : (r.opened l parent heading).table.bindings.slots.size = l.size :=
    hopened.slots.trans h.slots
  rcases follows_closed.vars id v hv with hv | ⟨d, hm, x, hx, rfl⟩
  · refine (growsFrom_closed hl hreads hn).bound _ ?_
    rcases hd.vars id v hv with hv | ⟨x, hx, rfl, _⟩
    · exact hopened.bound _ (h.declared id v hv)
    · refine hd.bound x hx ?_
      rw [show _ = l.size from h.slots]
      exact Listing.lt_size_of_isName (Heading.named_parameters hl hreads x hx).isName
  · refine follows_closed.bound d hm x hx ?_
    rw [hsize]
    exact Listing.lt_size_of_isName (Body.named_steps hl _ _ _ _ hm x hx).isName

/-- Entering a function settles what it did, and the ground is settled behind its body. -/
theorem Settled.addFunction (hl : l.WellFormed) (h : r.Settled l n)
    (hreads : Heading.ofTokens? l start stop = some heading) (hn : n ≤ start)
    (parent : ScopeId) (hframes : Frame.AllMembers r.table frames) :
    (r.closed l parent frames heading).Settled l (heading.bodyClose + 1) ∧
      r.table.Grows (r.closed l parent frames heading).table := by
  have hplace := Heading.within_of_mem_parameters hreads
  have hbody := Heading.lt_bodyOpen hreads
  have hgrows : r.table.GrowsFrom n (r.closed l parent frames heading).table :=
    (growsFrom_opened fun d hd => Nat.le_trans hn (hplace d hd).1).trans
      (growsFrom_closed hl hreads hn)
  refine ⟨⟨h.ahead_closed hl hreads hn hframes, ?_, ?_, h.declared_closed hl hreads hn,
    hgrows.slots.trans h.slots, ?_, ?_⟩, hgrows.vars⟩
  · intro m hm
    rw [members_closed] at hm
    exact (h.members m hm).grow hgrows.vars
  · intro id v hv hrole
    have hown : (r.closed l parent frames heading).table.getScope? r.table.scopes.size =
        some (r.scopeOf parent heading) := by
      unfold SymbolTable.getScope?
      rw [scopes_closed]
      exact Array.getElem?_push_size
    rcases follows_closed.vars id v hv with hv | ⟨d, hm, x, hx, rfl⟩
    · rcases (declares_withArguments l r parent heading).vars id v hv with hv | ⟨x, _, rfl, _⟩
      · obtain ⟨s, hs, hlocal⟩ := h.inScope id v hv hrole
        unfold SymbolTable.getScope?
        rw [scopes_closed]
        exact ⟨s, Scope.Keeps.push _ _ _ _ hs, hlocal⟩
      · exact ⟨_, hown, nofun⟩
    · exact ⟨_, hown, fun _ => binds_body hl hreads _ hm x hx⟩
  · unfold SymbolTable.getScope?
    rw [scopes_closed]
    exact numbered_push h.numbered rfl
  · intro s hs hf
    rw [scopes_closed] at hs
    rcases Array.mem_push.mp hs with hs | rfl
    · obtain ⟨hstop, f, hran⟩ := h.ran s hs hf
      exact ⟨by omega, f, hran.grow hgrows hstop⟩
    · exact ⟨Nat.lt_succ_self _, _, h.ran_closed hl hreads hn hframes⟩

end

/-! ## Entering an outline -/

/-- Entering the outline of a region settles it up to its end, and declares members only. -/
theorem settled_enter {l : Listing} (hl : l.WellFormed) {stop i n m : Nat} {r : Resolver}
    (scope : ScopeId) {outer : List Frame} {frame : Frame} (hp : l.PairsWithin i stop)
    (hn : n ≤ i) (hnm : n ≤ m) (hm : stop ≤ m) (h : r.Settled l n)
    (houter : Frame.AllMembers r.table outer) (hframe : frame.Members r.table) :
    (r.enter l scope outer frame (Outline.ofTokens l stop i)).1.Settled l m ∧
      (r.enter l scope outer frame (Outline.ofTokens l stop i)).2.Members
        (r.enter l scope outer frame (Outline.ofTokens l stop i)).1.table ∧
      r.table.Grows (r.enter l scope outer frame (Outline.ofTokens l stop i)).1.table := by
  fun_induction Outline.ofTokens l stop i generalizing r scope outer frame n m with
  | case6 => exact ⟨h.mono hnm, hframe, .refl _⟩
  | case1 stop i hi next hc =>
    rename_i ih
    have hmoves := (Construct.movesFrom_ofTokens l stop i).1
    rw [hc] at hmoves
    exact ih scope (hp.mono (Nat.le_of_lt hmoves)) (Nat.le_trans hn (Nat.le_of_lt hmoves)) hnm hm h
      houter hframe
  | case2 stop i hi kind name opener closer next hc =>
    rename_i ihin ihout
    obtain ⟨hopen, hlt, hnext, hpin, hpout⟩ := Construct.divides_block hl hp hc
    have hsight : Frame.AllMembers r.table (frame :: outer) := .cons hframe houter
    cases kind with
    | namespaceBlock =>
      obtain ⟨hin, _, hingrows⟩ := ihin (m := min (closer + 1) m) r.table.scopes.size
        hpin (by omega) (by omega) (by omega)
        (h.addScope .namespaceBlock (by decide) name opener closer (some scope) none) hsight
        (Frame.members_nil _)
      obtain ⟨hout, houtframe, houtgrows⟩ := ihout scope hpout (by omega) (by omega) hm
        hin (houter.grow hingrows) (hframe.grow hingrows)
      exact ⟨hout, houtframe, hingrows.trans houtgrows⟩
    | classBody =>
      obtain ⟨hin, hinframe, hingrows⟩ := ihin (m := min (closer + 1) m)
        r.table.scopes.size hpin (by omega) (by omega) (by omega)
        (h.addScope .classBody (by decide) name opener closer (some scope) none) hsight
        (Frame.members_nil _)
      obtain ⟨hin, hkeep⟩ := hin.addMembers name hinframe
      have hingrows := hingrows.trans hkeep
      obtain ⟨hout, houtframe, houtgrows⟩ := ihout scope hpout (by omega) (by omega) hm hin
        (houter.grow hingrows) (hframe.grow hingrows)
      exact ⟨hout, houtframe, hingrows.trans houtgrows⟩
  | case3 stop i hi opener closer hc =>
    rename_i ihin ihout
    obtain ⟨hopen, hlt, hnext, hpin, hpout⟩ := Construct.divides_linkage hl hp hc
    obtain ⟨hin, hinframe, hingrows⟩ := ihin (m := min (closer + 1) m) scope hpin (by omega)
      (by omega) (by omega) h houter hframe
    obtain ⟨hout, houtframe, houtgrows⟩ := ihout scope hpout (by omega) (by omega) hm hin
      (houter.grow hingrows) hinframe
    exact ⟨hout, houtframe, hingrows.trans houtgrows⟩
  | case4 stop i hi heading hc =>
    rename_i ih
    have hfound := Construct.found_ofTokens l stop i
    rw [hc] at hfound
    obtain ⟨_, hlt, hclose⟩ := Heading.body_of_ofTokens? hfound
    obtain ⟨hstart, hbody⟩ := Heading.lt_bodyOpen hfound
    have hstops := hp _ _ (Nat.le_of_lt hstart) hlt hclose
    obtain ⟨hsettled, hgrows⟩ := h.addFunction hl hfound hn scope (.cons hframe houter)
    obtain ⟨hout, houtframe, houtgrows⟩ := ih scope (hp.mono (by omega))
      (Nat.le_refl _) (by omega) hm hsettled (houter.grow hgrows) (hframe.grow hgrows)
    exact ⟨hout, houtframe, hgrows.trans houtgrows⟩
  | case5 stop i hi d next hc =>
    rename_i ih
    have hmoves := (Construct.movesFrom_ofTokens l stop i).1
    have hfound := Construct.found_ofTokens l stop i
    rw [hc] at hmoves hfound
    have hmoves : i < next := hmoves
    have hread := Declaration.readFrom_ofTokens? hl hfound
    obtain ⟨hsettled, hdframe, hgrows⟩ := h.declare scope hframe
      (fun x hx => Nat.le_trans hn (Nat.le_of_lt (hread x hx).1.behind))
      (Declaration.named_ofTokens? hl hfound)
    obtain ⟨hout, houtframe, houtgrows⟩ := ih scope (hp.mono (by omega)) (by omega) hnm hm
      hsettled (houter.grow hgrows) hdframe
    exact ⟨hout, houtframe, hgrows.trans houtgrows⟩

end Resolver

namespace SymbolTable

/-- The symbol table of a listing is settled, but for the types of class objects. -/
theorem settled_ofListing {l : Listing} (hl : l.WellFormed) :
    ∃ r : Resolver, ofListing l = r.table.resolveTypes ∧ r.Settled l l.size := by
  have hempty : Resolver.Settled l 0 ⟨empty l.size, []⟩ := by
    refine ⟨?_, by simp, ?_, ?_, Array.size_replicate, by simp [empty], by simp [empty]⟩
    · intro i id _ hid
      simp only [empty, Bindings.unbound, Bindings.get?, Array.getElem?_replicate] at hid
      split at hid <;> cases hid
    all_goals
      intro id v hv
      simp [empty, getVariable?] at hv
  have hglobal := hempty.addScope .global (by decide) "" 0 l.size none none
  exact ⟨_, rfl, (Resolver.settled_enter hl 0 (.of_nests hl.nests) (Nat.le_refl 0) (Nat.zero_le _)
    (Nat.le_refl _) hglobal (List.forall_mem_nil _) (Frame.members_nil _)).1⟩

end SymbolTable

end StackEscape
