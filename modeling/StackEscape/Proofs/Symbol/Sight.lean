import StackEscape.Proofs.Symbol.Runs

/-!
# What a name refers to

The bound names of a function body are of two sorts: names where they are declared, and names that
are mentioned in a state that is tracked. For the second sort `Sees` ties that state to the finished
table. A declaration is in sight if it comes before and the block it stands in is still open; of the
declarations of one name that are in sight the latest one counts.
-/

namespace StackEscape

/-- A local or an argument is in sight at the token `i`: it is declared before, and the innermost
braces around the declaration of a local are around `i`, too. -/
def Listing.InSight (l : Listing) (v : Variable) (i : Nat) : Prop :=
  v.nameToken < i ∧ (v.role = .local → ∃ o, l.Innermost o v.nameToken ∧ l.Encloses o i)

/-- The declaration of a local has begun in front of the token at `i`: a name that it declares
stands there. -/
def SymbolTable.Begun (t : SymbolTable) (v : Variable) (i : Nat) : Prop :=
  v.role = .local ∧ ∃ id' v', t.Owns v.scope id' v' ∧ v'.role = .local ∧
    v'.typeStart = v.typeStart ∧ v'.nameToken < i

/-- What is found has an entry in the inner frames, or is a member. -/
theorem Frame.cases_of_find? {t : SymbolTable} {frames outer : List Frame} {name : String}
    {id : VariableId} (houter : AllMembers t outer)
    (hfind : find? (frames ++ outer) name = some id) :
    (name, id) ∈ frames.flatten ∨ ∃ v, t.getVariable? id = some v ∧ v.role = .member := by
  rw [find?_eq_lookup, List.flatten_append, List.lookup_append] at hfind
  cases hlook : frames.flatten.lookup name with
  | some found =>
    rw [hlook] at hfind
    obtain rfl : found = id := Option.some.inj hfind
    exact .inl (mem_of_lookup hlook)
  | none =>
    rw [hlook] at hfind
    obtain ⟨f, hf, hx⟩ := List.mem_flatten.mp (mem_of_lookup hfind)
    exact .inr (houter f hf _ hx)

namespace Tracks

variable {l : Listing} {s : Scope} {i : Nat} {t : SymbolTable} {frames outer : List Frame}
  {os : List Nat} {id : VariableId} {name : String}

/-- What is declared in an open block has an entry in a frame. -/
theorem mem_of_encloses (h : Tracks l s i t frames os) (hs : SymbolTable.IsBody l s)
    {v : Variable} (hv : t.Owns s.id id v)
    (hblock : v.role = .local → ∃ o, l.Innermost o v.nameToken ∧ l.Encloses o i) :
    (v.name, id) ∈ frames.flatten := by
  cases hrole : v.role with
  | member => exact absurd hrole hv.2.2
  | argument =>
    have hlast := List.getLast?_eq_some_getLast (h.frames_ne_nil hs)
    exact List.mem_flatten.mpr ⟨_, List.getLast_mem _, h.arguments id v hv hrole _ hlast⟩
  | «local» =>
    obtain ⟨o, hso, hoi, hinner, hmem⟩ := h.locals id v hv hrole
    obtain ⟨o', hinner', hencloses⟩ := hblock hrole
    obtain rfl := hinner.unique hinner'
    obtain ⟨ht, _, c, hc, hic⟩ := hencloses
    have hopen : o ∈ os := (h.opened.mem o).mpr ⟨hso, hoi, ht, c, hc, Nat.le_of_lt hic⟩
    obtain ⟨n, hn⟩ := List.mem_iff_getElem?.mp hopen
    obtain ⟨f, hf, hx⟩ := List.mem_flatten.mp (hmem n hn)
    exact List.mem_flatten.mpr ⟨f, List.mem_of_mem_drop hf, hx⟩

/-- A name with an entry is found, and nothing but the latest variable of that name. -/
theorem exists_find? (h : Tracks l s i t frames os) (hmem : (name, id) ∈ frames.flatten)
    (outer : List Frame) : ∃ found, Frame.find? (frames ++ outer) name = some found ∧
      id ≤ found ∧ (name, found) ∈ frames.flatten := by
  obtain ⟨found, hfound, hle⟩ := Frame.exists_lookup h.latest hmem
  refine ⟨found, ?_, hle, mem_of_lookup hfound⟩
  rw [Frame.find?_eq_lookup, List.flatten_append, List.lookup_append, hfound]
  rfl

/-- Where types are complete, only what is in sight has an entry in a frame. -/
theorem encloses_of_mem (h : Tracks l s i t frames os) (hl : l.WellFormed)
    (hcomplete : l.TypesComplete s.start s.stop) (hname : l.isName i = true)
    (hmem : (name, id) ∈ frames.flatten) {v : Variable} (hv : t.getVariable? id = some v)
    (hlocal : v.role = .local) : ∃ o, l.Innermost o v.nameToken ∧ l.Encloses o i := by
  have hplaced := h.placed hcomplete
  obtain ⟨f, hf, hx⟩ := List.mem_flatten.mp hmem
  obtain ⟨n, hn, rfl⟩ := List.mem_iff_getElem.mp hf
  have hno : n < os.length := hplaced.length_eq ▸ hn
  obtain ⟨w, hw, hinner⟩ := hplaced.get hn hno _ hx
  obtain rfl := Option.some.inj (hw.symm.trans hv)
  obtain ⟨_, hoi, ht, c, hc, hic⟩ := (h.opened.mem _).mp (List.getElem_mem hno)
  refine ⟨os[n], hinner hlocal, ht, hoi, c, hc, Nat.lt_of_le_of_ne hic ?_⟩
  rintro rfl
  exact hl.text_ne_of_isName hname rfl (hl.text_close_brace hc ht)

end Tracks

/-! ## Names in function bodies -/

/-- Where the body of a function mentions the name at `i`: what is in sight there, and how that is
related to the finished table `t`. -/
structure Sees (l : Listing) (s : Scope) (f : Function) (i : Nat) (t u : SymbolTable)
    (frames outer : List Frame) (os : List Nat) : Prop where
  tracks : Tracks l s i u frames os
  around : Frame.AllMembers u outer
  arguments : ∀ id v, u.Owns s.id id v → v.role = .argument →
    v.nameToken < s.start ∧ id ∈ f.arguments
  begun : ∀ id v, u.Owns s.id id v → v.role = .local → t.Begun v i
  /-- All names of a declaration that has begun are there. -/
  entered : ∀ id v, t.Owns s.id id v → v.nameToken ≤ s.stop → t.Begun v i → u.Owns s.id id v
  grows : u.GrowsFrom (i + 1) t

namespace Sees

variable {l : Listing} {s : Scope} {f : Function} {i : Nat} {t u : SymbolTable}
  {frames outer : List Frame} {os : List Nat} {id : VariableId}

/-- An entry of a frame is a variable of the function. -/
theorem exists_of_mem (h : Sees l s f i t u frames outer os) {name : String}
    (hmem : (name, id) ∈ frames.flatten) : ∃ v, u.Owns s.id id v ∧ t.Owns s.id id v := by
  obtain ⟨v, hv, _⟩ := h.tracks.owned _ hmem
  exact ⟨v, hv, hv.grow h.grows.vars⟩

theorem owns_of_mem (h : Sees l s f i t u frames outer os) {name : String}
    (hmem : (name, id) ∈ frames.flatten) {v : Variable} (hv : t.getVariable? id = some v) :
    u.Owns s.id id v := by
  obtain ⟨w, hu, hw⟩ := h.exists_of_mem hmem
  obtain rfl := Option.some.inj (hw.1.symm.trans hv)
  exact hu

/-- What has an entry is declared in front, or its declaration has begun. -/
theorem lt_or_begun_of_mem (h : Sees l s f i t u frames outer os) (hi : s.start < i)
    {name : String} (hmem : (name, id) ∈ frames.flatten) {v : Variable}
    (hv : t.getVariable? id = some v) : v.nameToken < i ∨ t.Begun v i := by
  have hu := h.owns_of_mem hmem hv
  cases hrole : v.role with
  | «local» => exact .inr (h.begun id v hu hrole)
  | argument => exact .inl (Nat.lt_trans (h.arguments id v hu hrole).1 hi)
  | member => exact absurd hrole hu.2.2

/-- What is found is an own local, an own argument, or a member. -/
theorem exists_of_find? (h : Sees l s f i t u frames outer os) {name : String}
    (hfind : Frame.find? (frames ++ outer) name = some id) :
    ∃ v, t.getVariable? id = some v ∧
      (v.role ≠ .member → (name, id) ∈ frames.flatten ∧ v.scope = s.id) ∧
      (v.role = .argument → id ∈ f.arguments) := by
  rcases Frame.cases_of_find? h.around hfind with hmem | ⟨v, hv, hmember⟩
  · obtain ⟨v, hu, hv⟩ := h.exists_of_mem hmem
    exact ⟨v, hv.1, fun _ => ⟨hmem, hv.2.1⟩, fun harg => (h.arguments id v hu harg).2⟩
  · refine ⟨v, h.grows.vars _ _ hv, fun hrole => absurd hmember hrole, fun harg => ?_⟩
    rw [hmember] at harg
    cases harg

/-- What stands in front is there. -/
theorem owns_of_lt (h : Sees l s f i t u frames outer os) {v : Variable} (hv : t.Owns s.id id v)
    (hlt : v.nameToken < i) : u.Owns s.id id v :=
  ⟨(h.grows.later id v hv.1).resolve_right (by omega), hv.2⟩

/-- If a variable that is there belongs to an open block, the latest one of its name is found, which
is the function's own. -/
theorem exists_find?_of_encloses (h : Sees l s f i t u frames outer os)
    (hs : SymbolTable.IsBody l s) {v : Variable} (hv : u.Owns s.id id v)
    (hblock : v.role = .local → ∃ o, l.Innermost o v.nameToken ∧ l.Encloses o i) :
    ∃ found w, Frame.find? (frames ++ outer) v.name = some found ∧ id ≤ found ∧
      t.Owns s.id found w := by
  obtain ⟨found, hfound, hle, hmem⟩ :=
    h.tracks.exists_find? (h.tracks.mem_of_encloses hs hv hblock) outer
  obtain ⟨w, _, hw⟩ := h.exists_of_mem hmem
  exact ⟨found, w, hfound, hle, hw⟩

/-- If a declaration is in sight, the latest one is found, which is the function's own. -/
theorem exists_find? (h : Sees l s f i t u frames outer os) (hs : SymbolTable.IsBody l s)
    {v : Variable} (hv : t.Owns s.id id v) (hsight : l.InSight v i) :
    ∃ found w, Frame.find? (frames ++ outer) v.name = some found ∧ id ≤ found ∧
      t.Owns s.id found w :=
  h.exists_find?_of_encloses hs (h.owns_of_lt hv hsight.1) hsight.2

end Sees

/-- The variable at the place `id` is declared at the token `i`, as a local of the function with the
scope `s` or as a member. -/
def SymbolTable.DeclaredAt (t : SymbolTable) (s : Scope) (i : Nat) (id : VariableId) : Prop :=
  ∃ v, t.getVariable? id = some v ∧ v.nameToken = i ∧
    (v.role = .member ∨ v.role = .local ∧ v.scope = s.id)

theorem SymbolTable.DeclaredAt.grow {t u : SymbolTable} {s : Scope} {i : Nat} {id : VariableId}
    (h : t.DeclaredAt s i id) (hg : t.Grows u) : u.DeclaredAt s i id := by
  obtain ⟨v, hv, hrest⟩ := h
  exact ⟨v, hg id v hv, hrest⟩

namespace Entered

variable {l : Listing} {s : Scope} {f : Function} {r r' : Resolver} {base : Frame}
  {outer : List Frame} {steps : List Body.Step} {i : Nat} {id : VariableId}

/-- A token that is bound while the body is followed is declared there, or it is mentioned. -/
theorem cases_of_get? (h : Entered l s f r base outer)
    (hfollows : Resolver.Follows l s.id steps r r') (hi : s.start ≤ i)
    (hb : r'.table.bindings.get? i = some id) :
    r'.table.DeclaredAt s i id ∨ .mention i ∈ steps := by
  rcases hfollows.bindings i id hb with hb | hm | ⟨d, _, x, _, rfl, hv⟩
  · obtain ⟨v, hv, hname, hmember⟩ := h.ahead i id hi hb
    exact .inl ⟨v, hfollows.grows.vars _ _ hv, hname, .inl hmember⟩
  · exact .inr hm
  · exact .inl ⟨_, hv, rfl, .inr ⟨rfl, rfl⟩⟩

/-- All arguments are there when the body begins. -/
theorem argument_of_owns (h : Entered l s f r base outer)
    (hfollows : Resolver.Follows l s.id steps r r') {v : Variable}
    (hv : r'.table.Owns s.id id v) (harg : v.role = .argument) :
    v.nameToken < s.start ∧ id ∈ f.arguments := by
  rcases hfollows.vars id v hv.1 with hold | ⟨_, _, x, _, rfl⟩
  · obtain ⟨_, hlt, _, hmem⟩ := h.owned id v ⟨hold, hv.2⟩
    exact ⟨hlt, hmem⟩
  · cases harg

end Entered

namespace Ran

variable {l : Listing} {s : Scope} {f : Function} {t : SymbolTable} {i : Nat} {id : VariableId}

/-- What a body declares is in the table, and bound where it is declared. -/
theorem exists_of_declare_mem (h : Ran l s f t) {d : Declaration}
    (hd : .declare d ∈ Body.steps l s.stop (s.start + 1) true) {x : Declarator}
    (hx : x ∈ d.declarators) :
    ∃ id, t.Owns s.id id (x.toVariable l id .local s.id) := by
  obtain ⟨r, base, outer, _, hgrows⟩ := h.run
  obtain ⟨id, hv⟩ := (Resolver.follows_followBody l s.id outer r [] base _).entered d hd x hx
  exact ⟨id, hgrows.vars _ _ hv, rfl, by simp [Declarator.toVariable]⟩

/-- Every local that is declared in a body comes from a declaration there. -/
theorem exists_declare_of_local (h : Ran l s f t) {v : Variable} (hv : t.Owns s.id id v)
    (hlocal : v.role = .local) (hbefore : v.nameToken ≤ s.stop) :
    ∃ d, .declare d ∈ Body.steps l s.stop (s.start + 1) true ∧
      ∃ x ∈ d.declarators, v = x.toVariable l id .local s.id := by
  obtain ⟨r, base, outer, hentered, hgrows⟩ := h.run
  have hfinal := (hgrows.later id v hv.1).resolve_right (by omega)
  rcases (Resolver.follows_followBody l s.id outer r [] base _).vars id v hfinal with hold | hnew
  · have harg := (hentered.owned id v ⟨hold, hv.2⟩).1
    rw [hlocal] at harg
    cases harg
  · exact hnew

/-- A bound name in a function body stands where it is declared, as a local of the function or as a
member, or it is mentioned. -/
theorem cases_of_bound (h : Ran l s f t) (hi : s.start < i) (his : i < s.stop)
    (hb : t.bindings.get? i = some id) :
    t.DeclaredAt s i id ∨ .mention i ∈ Body.steps l s.stop (s.start + 1) true := by
  obtain ⟨r, base, outer, hentered, hgrows⟩ := h.run
  have hfollows := Resolver.follows_followBody l s.id outer r [] base
    (Body.steps l s.stop (s.start + 1) true)
  rw [hgrows.before i (by omega)] at hb
  exact (hentered.cases_of_get? hfollows (Nat.le_of_lt hi) hb).imp_left fun hd =>
    hd.grow hgrows.vars

/-- A local that is there where `i` is mentioned was declared in front, so its declaration has
begun. -/
theorem begun_of_owns (h : Ran l s f t) (hl : l.WellFormed) {r r' : Resolver} {base : Frame}
    {outer : List Frame} (hentered : Entered l s f r base outer) {front back : List Body.Step}
    (hsplit : Body.steps l s.stop (s.start + 1) true = front ++ .mention i :: back)
    (hfront : Resolver.Follows l s.id front r r') {v : Variable} (hv : r'.table.Owns s.id id v)
    (hlocal : v.role = .local) : t.Begun v i := by
  rcases hfront.vars id v hv.1 with hold | ⟨d, hd, x, hx, rfl⟩
  · have harg := (hentered.owned id v ⟨hold, hv.2⟩).1
    rw [hlocal] at harg
    cases harg
  · have hmem : .declare d ∈ Body.steps l s.stop (s.start + 1) true :=
      hsplit ▸ List.mem_append_left _ hd
    obtain ⟨id', hv'⟩ := h.exists_of_declare_mem hmem List.mem_cons_self
    exact ⟨rfl, id', _, hv', rfl, Body.typeStart_eq hl hmem List.mem_cons_self hx,
      (Body.lt_of_steps_eq hsplit).1 _ hd _ rfl⟩

/-- A local whose declaration has begun where `i` is mentioned is there: a declaration that is still
to come would begin behind. -/
theorem owns_of_begun (h : Ran l s f t) (hl : l.WellFormed) {r final : Resolver}
    {front back : List Body.Step}
    (hsplit : Body.steps l s.stop (s.start + 1) true = front ++ .mention i :: back)
    (hback : Resolver.Follows l s.id back r final)
    (hgrows : final.table.GrowsFrom (s.stop + 1) t) {v : Variable} (hv : t.Owns s.id id v)
    (hstop : v.nameToken ≤ s.stop) (hbegun : t.Begun v i) : r.table.Owns s.id id v := by
  refine ⟨?_, hv.2⟩
  have hi := (Body.within_of_mention_mem
    (hsplit ▸ List.mem_append_right front List.mem_cons_self)).2
  have hfinal := (hgrows.later id v hv.1).resolve_right (by omega)
  refine (hback.vars id v hfinal).resolve_right ?_
  rintro ⟨d, hd, x, hx, rfl⟩
  obtain ⟨_, id', w, hw, hlocal, hsame, hlt⟩ := hbegun
  obtain ⟨d', hd', x', hx', rfl⟩ := h.exists_declare_of_local hw hlocal (by omega)
  obtain rfl := Body.eq_of_typeStart_eq hl hd'
    (hsplit ▸ List.mem_append_right _ (List.mem_cons_of_mem _ hd)) hx' hx hsame
  have hbehind := (Body.lt_of_steps_eq hsplit).2 _ hd _ rfl
  obtain ⟨n, _, _, hreads⟩ := Body.exists_reads_of_declare_mem hd'
  have hle := (Declaration.readFrom_ofTokens? hl hreads x' hx').2
  have hlt : x'.nameToken < i := hlt
  omega

/-- A mentioned name is bound to what it is found to refer to. -/
theorem sees_of_mention (hl : l.WellFormed) (hs : SymbolTable.IsBody l s) (h : Ran l s f t)
    (hm : .mention i ∈ Body.steps l s.stop (s.start + 1) true) :
    ∃ u frames outer os, Sees l s f i t u frames outer os ∧
      (∀ id, t.bindings.get? i = some id →
        t.DeclaredAt s i id ∨ Frame.find? (frames ++ outer) (l.text i) = some id) ∧
      ((Frame.find? (frames ++ outer) (l.text i)).isSome = true →
        (t.bindings.get? i).isSome = true) := by
  obtain ⟨r, base, outer, hentered, hgrows⟩ := h.run
  have hwithin := Body.within_of_mention_mem hm
  obtain ⟨r', front, back, blocks, base', os, hsplit, hfront, htracks, hback, hlater⟩ :=
    Tracks.reaches hl hs outer [] (hentered.tracks hs) hm
  have hlater := hlater.trans (hgrows.mono (by omega))
  have hmention := Resolver.Follows.mention l s.id r' (blocks ++ base' :: outer) i
  have hkeep := hmention.grows.vars.trans hlater.vars
  have hsees : Sees l s f i t (r'.mention l (blocks ++ base' :: outer) i).table
      (blocks ++ [base']) outer os := {
    tracks := htracks.of_vars (Resolver.vars_mention ..)
    around := hentered.around.grow (hfront.grows.trans hmention.grows).vars
    arguments := fun id v hv harg =>
      hentered.argument_of_owns hfront (Resolver.owns_mention.mp hv) harg
    begun := fun id v hv hlocal =>
      h.begun_of_owns hl hentered hsplit hfront (Resolver.owns_mention.mp hv) hlocal
    entered := fun id v hv hstop hbegun =>
      h.owns_of_begun hl hsplit hback hgrows hv hstop hbegun
    grows := hlater }
  have hbindings := hlater.before i (Nat.lt_succ_self i)
  refine ⟨_, _, outer, os, hsees, fun id hb => ?_, fun hfind => ?_⟩
  · rw [hbindings] at hb
    rcases Resolver.cases_of_get?_mention hb with hb | hfind
    · have hcases := hentered.cases_of_get? hfront (by omega) hb
      refine .inl ((hcases.resolve_right fun hm => ?_).grow hkeep)
      exact Nat.lt_irrefl i ((Body.lt_of_steps_eq hsplit).1 _ hm i rfl)
    · right
      rwa [List.append_assoc]
  · rw [List.append_assoc] at hfind
    rw [hbindings]
    refine Resolver.isSome_get?_mention ?_ hfind
    rw [hfront.grows.slots, hentered.slots]
    exact Listing.lt_size_of_isName
      (Bool.and_eq_true_iff.mp (Body.isMention_of_mention_mem hm)).1

/-- **A body binds its own**: a bound name in the body of a function that refers to no member refers
to an argument of the function or to a local that is declared in this body. -/
theorem own_of_bound (hl : l.WellFormed) (hs : SymbolTable.IsBody l s) (h : Ran l s f t)
    (hi : s.start < i) (his : i < s.stop) (hb : t.bindings.get? i = some id) {v : Variable}
    (hv : t.getVariable? id = some v) (hrole : v.role ≠ .member) :
    v.scope = s.id ∧ (v.role = .argument → id ∈ f.arguments) ∧
      (v.role = .local → s.start < v.nameToken ∧ v.nameToken < s.stop) := by
  have declared : t.DeclaredAt s i id → v.scope = s.id ∧ (v.role = .argument → id ∈ f.arguments) ∧
      (v.role = .local → s.start < v.nameToken ∧ v.nameToken < s.stop) := by
    rintro ⟨x, hx, rfl, hcases⟩
    obtain rfl := Option.some.inj (hx.symm.trans hv)
    obtain ⟨hlocal, hscope⟩ := hcases.resolve_left hrole
    refine ⟨hscope, fun harg => ?_, fun _ => ⟨hi, his⟩⟩
    rw [hlocal] at harg
    cases harg
  rcases h.cases_of_bound hi his hb with hdecl | hm
  · exact declared hdecl
  obtain ⟨u, frames, outer, os, hsees, hfind, _⟩ := h.sees_of_mention hl hs hm
  rcases hfind id hb with hdecl | hfind
  · exact declared hdecl
  obtain ⟨x, hx, hown, harg⟩ := hsees.exists_of_find? hfind
  obtain rfl := Option.some.inj (hx.symm.trans hv)
  obtain ⟨hmem, hscope⟩ := hown hrole
  refine ⟨hscope, harg, fun hlocal => ?_⟩
  obtain ⟨o, hstart, hoi, ⟨⟨_, hlt, c, hc, hlast⟩, _⟩, _⟩ :=
    hsees.tracks.locals id _ (hsees.owns_of_mem hmem hv) hlocal
  have hnested := (hl.nested_iff hs.closes hc).mp ⟨hstart, by omega⟩
  omega

end Ran

end StackEscape
