import StackEscape.Proofs.Outline.Tokens
import StackEscape.Proofs.Symbol.Bindings

/-!
# How a symbol table grows

Name resolution reads the tokens in order, so whatever it does from the token `n` on leaves alone
what stands in front of `n`. `GrowsFrom` says so of variables and bindings. All steps of name
resolution grow the table in this way, down to whole outlines.
-/

namespace StackEscape

/-! ## Bindings -/

namespace Bindings

variable {b : Bindings} {i j : Nat} {v : VariableId}

theorem get?_bind_self (h : i < b.slots.size) : (b.bind i v).get? i = some v := by
  simp [bind, get?, h]

theorem get?_bind_of_ne (h : i ≠ j) : (b.bind i v).get? j = b.get? j := by
  simp [bind, get?, h]

@[simp] theorem size_bind (b : Bindings) (i : Nat) (v : VariableId) :
    (b.bind i v).slots.size = b.slots.size := Array.size_setIfInBounds

/-- What is bound stays bound. -/
theorem isSome_get?_bind (h : (b.get? j).isSome = true) : ((b.bind i v).get? j).isSome = true := by
  rcases Nat.decEq i j with hij | rfl
  · rwa [get?_bind_of_ne hij]
  · rcases Nat.lt_or_ge i b.slots.size with hi | hi
    · rw [get?_bind_self hi]
      rfl
    · simp [get?, hi] at h

end Bindings

namespace SymbolTable

/-- That a table keeps what it has, and that what is new stands at the token `n` or behind it. -/
structure GrowsFrom (n : Nat) (t u : SymbolTable) : Prop where
  vars : t.Grows u
  functions : ∀ id f, t.getFunction? id = some f → u.getFunction? id = some f
  later : ∀ id v, u.getVariable? id = some v → t.getVariable? id = some v ∨ n ≤ v.nameToken
  before : ∀ i, i < n → u.bindings.get? i = t.bindings.get? i
  bound : ∀ i, (t.bindings.get? i).isSome = true → (u.bindings.get? i).isSome = true
  slots : u.bindings.slots.size = t.bindings.slots.size

namespace GrowsFrom

variable {n m : Nat} {t u w : SymbolTable}

theorem refl (n : Nat) (t : SymbolTable) : t.GrowsFrom n t :=
  ⟨.refl t, fun _ _ h => h, fun _ _ h => .inl h, fun _ _ => rfl, fun _ h => h, rfl⟩

theorem trans (h : t.GrowsFrom n u) (h' : u.GrowsFrom n w) : t.GrowsFrom n w := by
  refine ⟨h.vars.trans h'.vars, fun id f hf => h'.functions id f (h.functions id f hf), ?_,
    fun i hi => (h'.before i hi).trans (h.before i hi), fun i hi => h'.bound i (h.bound i hi),
    h'.slots.trans h.slots⟩
  intro id v hv
  rcases h'.later id v hv with hv | hn
  · exact h.later id v hv
  · exact .inr hn

theorem mono (h : t.GrowsFrom n u) (hmn : m ≤ n) : t.GrowsFrom m u := by
  refine { h with later := fun id v hv => ?_, before := fun i hi => h.before i (by omega) }
  exact (h.later id v hv).imp_right (Nat.le_trans hmn)

/-- Scopes play no part. -/
theorem of_eq (hv : u.vars = t.vars) (hf : u.functions = t.functions)
    (hb : u.bindings = t.bindings) : t.GrowsFrom n u := by
  obtain ⟨_, _, _, _⟩ := t
  obtain ⟨_, _, _, _⟩ := u
  dsimp only at hv hf hb
  subst hv hf hb
  exact ⟨fun _ _ h => h, fun _ _ h => h, fun _ _ h => .inl h, fun _ _ => rfl, fun _ h => h, rfl⟩

end GrowsFrom

end SymbolTable

def Declarator.toVariable (l : Listing) (d : Declarator) (id : VariableId) (role : Role)
    (scope : ScopeId) : Variable :=
  { id
    name := l.text d.nameToken
    nameToken := d.nameToken
    typeStart := d.typeStart
    scope
    typeName := d.typeName
    role
    isStatic := d.isStatic
    isReference := d.isReference
    isPointer := d.isPointer
    isArray := d.isArray
    typeScope := none }

namespace Resolver

open SymbolTable

variable {l : Listing} {r : Resolver} {n : Nat}

/-! ## Declaring variables -/

theorem getVariable?_addVariable (role : Role) (scope : ScopeId) (d : Declarator)
    (id : VariableId) : (r.addVariable l role scope d).1.table.getVariable? id =
      if id = r.table.vars.size then some (d.toVariable l id role scope)
      else r.table.getVariable? id := by
  change (r.table.vars.push (d.toVariable l r.table.vars.size role scope))[id]? = _
  rw [Array.getElem?_push]
  split
  · next h => rw [h]
  · rfl

theorem growsFrom_addVariable (role : Role) (scope : ScopeId) {d : Declarator}
    (hd : n ≤ d.nameToken) : r.table.GrowsFrom n (r.addVariable l role scope d).1.table := by
  refine ⟨?_, fun _ _ h => h, ?_, ?_, fun i hi => Bindings.isSome_get?_bind hi,
    Bindings.size_bind ..⟩
  · intro id v hv
    have hlt : id < r.table.vars.size := (Array.getElem?_eq_some_iff.mp hv).1
    rw [getVariable?_addVariable, if_neg (Nat.ne_of_lt hlt)]
    exact hv
  · intro id v hv
    rw [getVariable?_addVariable] at hv
    split at hv
    · obtain rfl := Option.some.inj hv
      exact .inr hd
    · exact .inl hv
  · intro i hi
    exact Bindings.get?_bind_of_ne (by omega)

/-- What declaring adds to a table and to a frame. -/
structure Declares (l : Listing) (role : Role) (scope : ScopeId) (ds : List Declarator)
    (r r' : Resolver) (frame frame' : Frame) : Prop where
  vars : ∀ id v, r'.table.getVariable? id = some v → r.table.getVariable? id = some v ∨
    ∃ d ∈ ds, v = d.toVariable l id role scope ∧ (v.name, id) ∈ frame'
  bindings : ∀ i id, r'.table.bindings.get? i = some id → r.table.bindings.get? i = some id ∨
    ∃ d ∈ ds, i = d.nameToken ∧ r'.table.getVariable? id = some (d.toVariable l id role scope)
  /-- What is new in the frame comes first, the latest variable leading. -/
  frame : ∃ front, frame' = front ++ frame ∧ front.Pairwise (fun e e' => e'.2 < e.2) ∧
    ∀ e ∈ front, r.table.vars.size ≤ e.2 ∧ ∃ d ∈ ds, e.1 = l.text d.nameToken ∧
      r'.table.getVariable? e.2 = some (d.toVariable l e.2 role scope)
  entered : ∀ d ∈ ds, ∃ id, r'.table.getVariable? id = some (d.toVariable l id role scope)
  bound : ∀ d ∈ ds, d.nameToken < r.table.bindings.slots.size →
    (r'.table.bindings.get? d.nameToken).isSome = true
  grows : ∀ n, (∀ d ∈ ds, n ≤ d.nameToken) → r.table.GrowsFrom n r'.table

/-- Declaring one variable in front of others. -/
theorem Declares.cons {role : Role} {scope : ScopeId} {d : Declarator} {ds : List Declarator}
    {r' : Resolver} {frame frame' : Frame}
    (h : Declares l role scope ds (r.addVariable l role scope d).1 r'
      ((l.text d.nameToken, r.table.vars.size) :: frame) frame') :
    Declares l role scope (d :: ds) r r' frame frame' := by
  have hadd := getVariable?_addVariable (l := l) (r := r) role scope d
  have hself : (r.addVariable l role scope d).1.table.getVariable? r.table.vars.size =
      some (d.toVariable l r.table.vars.size role scope) := by rw [hadd, if_pos rfl]
  have hsize : (r.addVariable l role scope d).1.table.vars.size = r.table.vars.size + 1 :=
    Array.size_push _
  have hkeep := (h.grows 0 fun _ _ => Nat.zero_le _).vars
  obtain ⟨front, hfront, hsorted, hfresh⟩ := h.frame
  rw [hsize] at hfresh
  refine ⟨?_, ?_, ⟨front ++ [(l.text d.nameToken, r.table.vars.size)], by rw [hfront]; simp,
    ?_, ?_⟩, ?_, ?_, ?_⟩
  · intro id v hv
    rcases h.vars id v hv with hv | ⟨x, hx, hv⟩
    · rw [hadd] at hv
      split at hv
      · next hid =>
        obtain rfl := Option.some.inj hv
        refine .inr ⟨d, List.mem_cons_self, rfl, ?_⟩
        rw [hfront, hid]
        simp [Declarator.toVariable]
      · exact .inl hv
    · exact .inr ⟨x, List.mem_cons_of_mem _ hx, hv⟩
  · intro i id hi
    rcases h.bindings i id hi with hi | ⟨x, hx, hi⟩
    · rcases Bindings.get?_bind hi with ⟨rfl, rfl⟩ | hi
      · exact .inr ⟨d, List.mem_cons_self, rfl, hkeep _ _ hself⟩
      · exact .inl hi
    · exact .inr ⟨x, List.mem_cons_of_mem _ hx, hi⟩
  · refine List.pairwise_append.mpr ⟨hsorted, List.pairwise_singleton _ _, ?_⟩
    intro e he e' he'
    obtain rfl := List.mem_singleton.mp he'
    exact (hfresh e he).1
  · intro e he
    rcases List.mem_append.mp he with he | he
    · obtain ⟨hle, x, hx, h⟩ := hfresh e he
      exact ⟨Nat.le_of_succ_le hle, x, List.mem_cons_of_mem _ hx, h⟩
    · obtain rfl := List.mem_singleton.mp he
      exact ⟨Nat.le_refl _, d, List.mem_cons_self, rfl, hkeep _ _ hself⟩
  · intro x hx
    rcases List.mem_cons.mp hx with rfl | hx
    · exact ⟨_, hkeep _ _ hself⟩
    · exact h.entered x hx
  · intro x hx hlt
    rcases List.mem_cons.mp hx with rfl | hx
    · refine (h.grows 0 fun _ _ => Nat.zero_le _).bound _ ?_
      change ((r.table.bindings.bind _ _).get? _).isSome = true
      rw [Bindings.get?_bind_self hlt]
      rfl
    · exact h.bound x hx ((Bindings.size_bind ..).symm ▸ hlt)
  · intro n hn
    obtain ⟨hd, hds⟩ := List.forall_mem_cons.mp hn
    exact (growsFrom_addVariable role scope hd).trans (h.grows n hds)

theorem declares_declare (role : Role) (scope : ScopeId) (r : Resolver) (frame : Frame)
    (ds : List Declarator) : Declares l role scope ds r (r.declare l role scope frame ds).1
      frame (r.declare l role scope frame ds).2 := by
  induction ds generalizing r frame with
  | nil =>
    exact ⟨fun _ _ h => .inl h, fun _ _ h => .inl h, ⟨[], rfl, .nil, by simp⟩, by simp,
      by simp, fun n _ => .refl n _⟩
  | cons d ds ih => exact (ih _ _).cons

theorem growsFrom_declare (role : Role) (scope : ScopeId) (frame : Frame) {ds : List Declarator}
    (hds : ∀ d ∈ ds, n ≤ d.nameToken) :
    r.table.GrowsFrom n (r.declare l role scope frame ds).1.table :=
  (declares_declare role scope r frame ds).grows n hds

/-! ## Following a function body -/

theorem growsFrom_mention (frames : List Frame) {token : Nat} (hn : n ≤ token) :
    r.table.GrowsFrom n (r.mention l frames token).table := by
  unfold mention
  split
  · exact .refl n _
  · split
    · exact ⟨.refl _, fun _ _ h => h, fun _ _ h => .inl h,
        fun i hi => Bindings.get?_bind_of_ne (by omega), fun i hi => Bindings.isSome_get?_bind hi,
        Bindings.size_bind ..⟩
    · exact .refl n _

/-- A mentioned name is bound already, or bound to what it is found to refer to. -/
theorem cases_of_get?_mention {frames : List Frame} {token : Nat} {id : VariableId}
    (h : (r.mention l frames token).table.bindings.get? token = some id) :
    r.table.bindings.get? token = some id ∨ Frame.find? frames (l.text token) = some id := by
  unfold mention at h
  split at h
  · exact .inl h
  · split at h
    · next hfind =>
      rcases Bindings.get?_bind h with ⟨_, rfl⟩ | h
      · exact .inr hfind
      · exact .inl h
    · exact .inl h

theorem isSome_get?_mention {frames : List Frame} {token : Nat}
    (hsize : token < r.table.bindings.slots.size)
    (h : (Frame.find? frames (l.text token)).isSome = true) :
    ((r.mention l frames token).table.bindings.get? token).isSome = true := by
  unfold mention
  split
  · next hbound => rw [hbound]; rfl
  · split
    · rw [Bindings.get?_bind_self hsize]
      rfl
    · next hnone => rw [hnone] at h; cases h

/-- Following steps grows the table from the first token on that they bind. -/
theorem growsFrom_followBody (scope : ScopeId) (outer : List Frame) (blocks : List Frame)
    (base : Frame) {steps : List Body.Step} (hs : ∀ s ∈ steps, s.Binds (n ≤ ·)) :
    r.table.GrowsFrom n (r.followBody l scope outer blocks base steps).table := by
  fun_induction followBody l scope outer r blocks base steps with
  | case1 => exact .refl n _
  | case2 _ _ _ _ ih => exact ih (List.forall_mem_cons.mp hs).2
  | case3 _ _ _ _ ih => exact ih (List.forall_mem_cons.mp hs).2
  | case4 _ _ _ _ _ ih =>
    obtain ⟨hm, hs⟩ := List.forall_mem_cons.mp hs
    exact (growsFrom_mention _ hm).trans (ih hs)
  | case5 r base d steps r' base' hr ih =>
    obtain ⟨hd, hs⟩ := List.forall_mem_cons.mp hs
    have hdeclare := growsFrom_declare (l := l) (r := r) .local scope base hd
    rw [hr] at hdeclare
    exact hdeclare.trans (ih hs)
  | case6 r base d steps block blocks r' block' hr ih =>
    obtain ⟨hd, hs⟩ := List.forall_mem_cons.mp hs
    have hdeclare := growsFrom_declare (l := l) (r := r) .local scope block hd
    rw [hr] at hdeclare
    exact hdeclare.trans (ih hs)

/-- What following steps adds to a table. -/
structure Follows (l : Listing) (scope : ScopeId) (steps : List Body.Step) (r r' : Resolver) :
    Prop where
  vars : ∀ id v, r'.table.getVariable? id = some v → r.table.getVariable? id = some v ∨
    ∃ d, .declare d ∈ steps ∧ ∃ x ∈ d.declarators, v = x.toVariable l id .local scope
  bindings : ∀ i id, r'.table.bindings.get? i = some id → r.table.bindings.get? i = some id ∨
    .mention i ∈ steps ∨ ∃ d, .declare d ∈ steps ∧ ∃ x ∈ d.declarators, i = x.nameToken ∧
      r'.table.getVariable? id = some (x.toVariable l id .local scope)
  entered : ∀ d, .declare d ∈ steps → ∀ x ∈ d.declarators, ∃ id,
    r'.table.getVariable? id = some (x.toVariable l id .local scope)
  bound : ∀ d, .declare d ∈ steps → ∀ x ∈ d.declarators,
    x.nameToken < r.table.bindings.slots.size → (r'.table.bindings.get? x.nameToken).isSome = true
  grows : r.table.GrowsFrom 0 r'.table

namespace Follows

variable {scope : ScopeId} {steps steps' : List Body.Step} {r' r'' : Resolver}

/-- Opening and closing a block, or no step at all, adds nothing. -/
theorem silent (l : Listing) (scope : ScopeId) (r : Resolver) (steps : List Body.Step)
    (h : ∀ d, .declare d ∉ steps) : Follows l scope steps r r :=
  ⟨fun _ _ h => .inl h, fun _ _ h => .inl h, fun d hd => absurd hd (h d),
    fun d hd => absurd hd (h d), .refl 0 _⟩

theorem mention (l : Listing) (scope : ScopeId) (r : Resolver) (frames : List Frame)
    (token : Nat) : Follows l scope [.mention token] r (r.mention l frames token) := by
  refine ⟨?_, ?_, by simp, by simp, growsFrom_mention frames (Nat.zero_le token)⟩
  · intro id v hv
    unfold Resolver.mention at hv
    repeat' split at hv
    all_goals exact .inl hv
  · intro i id hi
    unfold Resolver.mention at hi
    repeat' split at hi
    · exact .inl hi
    · rcases Bindings.get?_bind hi with ⟨rfl, _⟩ | hi
      · exact .inr (.inl List.mem_cons_self)
      · exact .inl hi
    · exact .inl hi

theorem declare (l : Listing) (scope : ScopeId) (r : Resolver) (frame : Frame)
    (d : Declaration) : Follows l scope [.declare d] r
      (r.declare l .local scope frame d.declarators).1 := by
  have h := declares_declare (l := l) .local scope r frame d.declarators
  have only : ∀ {d'}, Body.Step.declare d' ∈ [Body.Step.declare d] → d' = d :=
    fun hd => Body.Step.declare.inj (List.mem_singleton.mp hd)
  refine ⟨?_, ?_, ?_, ?_, h.grows 0 fun _ _ => Nat.zero_le _⟩
  · intro id v hv
    rcases h.vars id v hv with hv | ⟨x, hx, hv, _⟩
    · exact .inl hv
    · exact .inr ⟨d, List.mem_cons_self, x, hx, hv⟩
  · intro i id hi
    rcases h.bindings i id hi with hi | ⟨x, hx, hi⟩
    · exact .inl hi
    · exact .inr (.inr ⟨d, List.mem_cons_self, x, hx, hi⟩)
  · rintro d' hd x hx
    obtain rfl := only hd
    exact h.entered x hx
  · rintro d' hd x hx hlt
    obtain rfl := only hd
    exact h.bound x hx hlt

theorem trans (h : Follows l scope steps r r') (h' : Follows l scope steps' r' r'') :
    Follows l scope (steps ++ steps') r r'' := by
  refine ⟨?_, ?_, ?_, ?_, h.grows.trans h'.grows⟩
  · intro id v hv
    rcases h'.vars id v hv with hv | ⟨d, hd, hv⟩
    · exact (h.vars id v hv).imp_right fun ⟨d, hd, hv⟩ => ⟨d, List.mem_append_left _ hd, hv⟩
    · exact .inr ⟨d, List.mem_append_right _ hd, hv⟩
  · intro i id hi
    rcases h'.bindings i id hi with hi | hi | ⟨d, hd, hi⟩
    · rcases h.bindings i id hi with hi | hi | ⟨d, hd, x, hx, hi, hv⟩
      · exact .inl hi
      · exact .inr (.inl (List.mem_append_left _ hi))
      · exact .inr (.inr ⟨d, List.mem_append_left _ hd, x, hx, hi, h'.grows.vars _ _ hv⟩)
    · exact .inr (.inl (List.mem_append_right _ hi))
    · exact .inr (.inr ⟨d, List.mem_append_right _ hd, hi⟩)
  · intro d hd x hx
    rcases List.mem_append.mp hd with hd | hd
    · obtain ⟨id, hv⟩ := h.entered d hd x hx
      exact ⟨id, h'.grows.vars _ _ hv⟩
    · exact h'.entered d hd x hx
  · intro d hd x hx hlt
    rcases List.mem_append.mp hd with hd | hd
    · exact h'.grows.bound _ (h.bound d hd x hx hlt)
    · exact h'.bound d hd x hx (h.grows.slots ▸ hlt)

end Follows

theorem follows_followBody (l : Listing) (scope : ScopeId) (outer : List Frame) (r : Resolver)
    (blocks : List Frame) (base : Frame) (steps : List Body.Step) :
    Follows l scope steps r (r.followBody l scope outer blocks base steps) := by
  fun_induction followBody l scope outer r blocks base steps with
  | case1 r => exact .silent l scope r [] (by simp)
  | case2 r _ _ _ ih =>
    exact (Follows.silent l scope r [.enterBlock] (by simp)).trans ih
  | case3 r _ _ _ ih =>
    exact (Follows.silent l scope r [.leaveBlock] (by simp)).trans ih
  | case4 r blocks base token _ ih => exact (Follows.mention l scope r _ token).trans ih
  | case5 r base d steps r' base' hr ih =>
    have hd := Follows.declare l scope r base d
    rw [hr] at hd
    exact hd.trans ih
  | case6 r base d steps block blocks r' block' hr ih =>
    have hd := Follows.declare l scope r block d
    rw [hr] at hd
    exact hd.trans ih

end Resolver

end StackEscape
