import StackEscape.Proofs.Outline.Regions
import StackEscape.Proofs.Symbol.Runs

/-!
# The tree of scopes

The scopes of a symbol table form a tree in the order of the source: each one but the first is a
pair of braces strictly inside an earlier one, and nothing is inside a function. `Grown` is the
invariant of name resolution that says so of the scopes in front of a token, and `Owned` the one
that ties functions to their scopes.
-/

namespace StackEscape

/-- An entry of an array with one more is an old one or the new one. -/
theorem cases_of_getElem?_push {α : Type} {xs : Array α} {x y : α} {i : Nat}
    (h : (xs.push x)[i]? = some y) : (i < xs.size ∧ xs[i]? = some y) ∨ i = xs.size ∧ x = y := by
  rw [Array.getElem?_push] at h
  split at h
  · next hi => exact .inr ⟨hi, Option.some.inj h⟩
  · exact .inl ⟨(Array.getElem?_eq_some_iff.mp h).1, h⟩

/-- Functions and function scopes name each other, in the same order. -/
structure Owned (scopes : Array Scope) (functions : Array Function) : Prop where
  isSome_function : ∀ (id : Nat) (s : Scope), scopes[id]? = some s →
    (s.function.isSome = true ↔ s.kind = .function)
  /-- A function scope belongs to the function that names it. -/
  function : ∀ (id : Nat) (s : Scope) (f : FunctionId), scopes[id]? = some s →
    s.function = some f → ∃ g : Function, functions[f]? = some g ∧ g.scope = id
  /-- A function names the scope that belongs to it. -/
  scope : ∀ (f : Nat) (g : Function), functions[f]? = some g →
    ∃ s : Scope, scopes[g.scope]? = some s ∧ s.function = some f
  increasing : ∀ (f f' : Nat) (g g' : Function), functions[f]? = some g →
    functions[f']? = some g' → f < f' → g.scope < g'.scope

/-- That the scopes of a table form a tree, and that functions belong to its leaves. -/
structure SymbolTable.ScopeTree (l : Listing) (t : SymbolTable) : Prop where
  numbered : ∀ id s, t.getScope? id = some s → s.id = id
  root : ∃ s, t.getScope? 0 = some s ∧ s.kind = .global ∧ s.start = 0 ∧ s.stop = l.size ∧
    s.parent = none
  braces : ∀ id s, 0 < id → t.getScope? id = some s →
    s.kind ≠ .global ∧ l.text s.start = "\x7b" ∧ l.link? s.start = some s.stop ∧ s.start < s.stop
  parent : ∀ id s, 0 < id → t.getScope? id = some s → ∃ j p, s.parent = some j ∧ j < id ∧
    t.getScope? j = some p ∧ p.start < s.start ∧ s.stop < p.stop
  ordered : ∀ id id' s s', t.getScope? id = some s → t.getScope? id' = some s' → id < id' →
    s.start < s'.start
  /-- Two scopes are apart, or one is strictly inside the other. -/
  apart : ∀ id id' s s', t.getScope? id = some s → t.getScope? id' = some s' → id ≠ id' →
    s.stop < s'.start ∨ s'.stop < s.start ∨ (s.start < s'.start ∧ s'.stop < s.stop) ∨
      (s'.start < s.start ∧ s.stop < s'.stop)
  leaf : ∀ id id' s s', t.getScope? id = some s → s.kind = .function →
    t.getScope? id' = some s' → ¬ (s.start < s'.start ∧ s'.stop < s.stop)
  functions : Owned t.scopes t.functions

/-! ## Scopes in front of a token -/

/-- The scopes that have been entered up to the token at `i`. -/
structure Grown (l : Listing) (i : Nat) (scopes : Array Scope) : Prop where
  numbered : ∀ (id : Nat) (s : Scope), scopes[id]? = some s → s.id = id
  root : ∃ s : Scope, scopes[0]? = some s ∧ s.kind = .global ∧ s.start = 0 ∧ s.stop = l.size ∧
    s.parent = none
  braces : ∀ (id : Nat) (s : Scope), 0 < id → scopes[id]? = some s →
    s.kind ≠ .global ∧ l.text s.start = "\x7b" ∧ l.closing? s.start = some s.stop
  parent : ∀ (id : Nat) (s : Scope), 0 < id → scopes[id]? = some s →
    ∃ (j : Nat) (p : Scope), s.parent = some j ∧ j < id ∧ scopes[j]? = some p ∧
      p.start < s.start ∧ s.stop < p.stop
  ordered : ∀ (id id' : Nat) (s s' : Scope), scopes[id]? = some s → scopes[id']? = some s' →
    id < id' → s.start < s'.start ∧ (s.kind = .function → s.stop < s'.start)
  before : ∀ (id : Nat) (s : Scope), scopes[id]? = some s →
    s.start ≤ i ∧ (s.kind = .function → s.stop ≤ i)

/-- The scope at the place `scope` is around the region between the tokens at `i` and `stop`. -/
def Around (scopes : Array Scope) (scope : ScopeId) (i stop : Nat) : Prop :=
  ∃ s : Scope, scopes[scope]? = some s ∧ s.start ≤ i ∧ stop ≤ s.stop

theorem Around.mono {scopes scopes' : Array Scope} {scope i j stop stop' : Nat}
    (h : Around scopes scope i stop) (hk : Scope.Keeps scopes scopes') (hij : i ≤ j)
    (hs : stop' ≤ stop) : Around scopes' scope j stop' := by
  obtain ⟨s, hget, hstart, hstop⟩ := h
  exact ⟨s, hk _ _ hget, Nat.le_trans hstart hij, Nat.le_trans hs hstop⟩

namespace Grown

variable {l : Listing} {i j : Nat} {scopes : Array Scope}

theorem mono (h : Grown l i scopes) (hij : i ≤ j) : Grown l j scopes := by
  refine { h with before := fun id s hs => ?_ }
  obtain ⟨hstart, hstop⟩ := h.before id s hs
  exact ⟨Nat.le_trans hstart hij, fun hf => Nat.le_trans (hstop hf) hij⟩

theorem size_pos (h : Grown l i scopes) : 0 < scopes.size := by
  obtain ⟨s, hs, _⟩ := h.root
  exact (Array.getElem?_eq_some_iff.mp hs).1

/-- Of two scopes the later one stands behind the earlier one or strictly inside it. -/
theorem behind_or_inside (h : Grown l i scopes) (hl : l.WellFormed) {id id' : Nat} {s s' : Scope}
    (hs : scopes[id]? = some s) (hs' : scopes[id']? = some s') (hlt : id < id') :
    s.stop < s'.start ∨ (s.start < s'.start ∧ s'.stop < s.stop) := by
  have hstart := (h.ordered id id' s s' hs hs' hlt).1
  have hclose' := (h.braces id' s' (Nat.zero_lt_of_lt hlt) hs').2.2
  rcases Nat.eq_zero_or_pos id with rfl | hpos
  · -- the first scope is around everything
    obtain ⟨root, hroot, _, _, hstop, _⟩ := h.root
    obtain rfl := Option.some.inj (hroot.symm.trans hs)
    rw [hstop]
    exact .inr ⟨hstart, (hl.pair_of_closing? hclose').1⟩
  · have hclose := (h.braces id s hpos hs).2.2
    by_cases hinside : s'.start ≤ s.stop
    · have hnested := (hl.nested_iff hclose hclose').mp ⟨Nat.le_of_lt hstart, hinside⟩
      refine .inr ⟨hstart, Nat.lt_of_le_of_ne hnested.2 fun he => ?_⟩
      have hsame := hl.closing?_injective hclose (he ▸ hclose')
      omega
    · exact .inl (Nat.not_le.mp hinside)

/-- A pair of braces behind `i` that is entered as a scope inside the one around it. -/
theorem push (h : Grown l i scopes) {s : Scope} {scope stop : Nat} (hid : s.id = scopes.size)
    (hkind : s.kind ≠ .global) (hb : l.BracesBetween i stop s.start s.stop)
    (hparent : s.parent = some scope) (ha : Around scopes scope i stop) (hij : s.start ≤ j)
    (hfunction : s.kind = .function → s.stop ≤ j) : Grown l j (scopes.push s) := by
  have hkeep := Scope.Keeps.push scopes s
  obtain ⟨p, hp, hpstart, hpstop⟩ := ha
  have hsize := h.size_pos
  have hstarts := hb.starts
  have hstops := hb.stops
  refine ⟨?_, ?_, ?_, ?_, ?_, ?_⟩
  · intro id x hx
    rcases cases_of_getElem?_push hx with ⟨_, hx⟩ | ⟨rfl, rfl⟩
    · exact h.numbered id x hx
    · exact hid
  · obtain ⟨root, hroot, hrest⟩ := h.root
    exact ⟨root, hkeep _ _ hroot, hrest⟩
  · intro id x hpos hx
    rcases cases_of_getElem?_push hx with ⟨_, hx⟩ | ⟨rfl, rfl⟩
    · exact h.braces id x hpos hx
    · exact ⟨hkind, hb.brace, hb.closes⟩
  · intro id x hpos hx
    rcases cases_of_getElem?_push hx with ⟨_, hx⟩ | ⟨rfl, rfl⟩
    · obtain ⟨k, q, hq, hlt, hget, hrest⟩ := h.parent id x hpos hx
      exact ⟨k, q, hq, hlt, hkeep _ _ hget, hrest⟩
    · exact ⟨scope, p, hparent, (Array.getElem?_eq_some_iff.mp hp).1, hkeep _ _ hp, by omega,
        by omega⟩
  · intro id id' x x' hx hx' hlt
    rcases cases_of_getElem?_push hx' with ⟨hid', hx'⟩ | ⟨rfl, rfl⟩
    · rcases cases_of_getElem?_push hx with ⟨_, hx⟩ | ⟨rfl, rfl⟩
      · exact h.ordered id id' x x' hx hx' hlt
      · omega
    · rcases cases_of_getElem?_push hx with ⟨_, hx⟩ | ⟨rfl, rfl⟩
      · obtain ⟨hxi, hxstop⟩ := h.before id x hx
        exact ⟨by omega, fun hf => Nat.lt_of_le_of_lt (hxstop hf) hstarts⟩
      · omega
  · intro id x hx
    rcases cases_of_getElem?_push hx with ⟨_, hx⟩ | ⟨rfl, rfl⟩
    · exact (h.mono (by omega)).before id x hx
    · exact ⟨hij, hfunction⟩

end Grown

/-! ## Functions and their scopes -/

namespace Owned

variable {scopes : Array Scope} {functions : Array Function}

/-- Two functions have two scopes. -/
theorem eq_of_scope (h : Owned scopes functions) {f f' : Nat} {g g' : Function}
    (hg : functions[f]? = some g) (hg' : functions[f']? = some g') (hs : g.scope = g'.scope) :
    f = f' := by
  rcases Nat.lt_trichotomy f f' with hlt | he | hlt
  · exact absurd hs (Nat.ne_of_lt (h.increasing f f' g g' hg hg' hlt))
  · exact he
  · exact absurd hs (Nat.ne_of_gt (h.increasing f' f g' g hg' hg hlt))

/-- A scope that is no function. -/
theorem push (h : Owned scopes functions) {s : Scope} (hkind : s.kind ≠ .function)
    (hnone : s.function = none) : Owned (scopes.push s) functions := by
  refine ⟨?_, ?_, ?_, h.increasing⟩
  · intro id x hx
    rcases cases_of_getElem?_push hx with ⟨_, hx⟩ | ⟨rfl, rfl⟩
    · exact h.isSome_function id x hx
    · rw [hnone]
      exact ⟨nofun, fun hf => absurd hf hkind⟩
  · intro id x f hx hf
    rcases cases_of_getElem?_push hx with ⟨_, hx⟩ | ⟨rfl, rfl⟩
    · exact h.function id x f hx hf
    · rw [hnone] at hf
      cases hf
  · intro f g hg
    obtain ⟨x, hx, hf⟩ := h.scope f g hg
    exact ⟨x, Scope.Keeps.push scopes s _ _ hx, hf⟩

/-- A function and its scope. -/
theorem pushFunction (h : Owned scopes functions) {s : Scope} {g : Function}
    (hkind : s.kind = .function) (hs : s.function = some functions.size)
    (hg : g.scope = scopes.size) : Owned (scopes.push s) (functions.push g) := by
  have hnew : (functions.push g)[functions.size]? = some g := Array.getElem?_push_size
  have hscope : (scopes.push s)[scopes.size]? = some s := Array.getElem?_push_size
  have hlt : ∀ (f : Nat) (x : Function), functions[f]? = some x → x.scope < scopes.size := by
    intro f x hx
    obtain ⟨y, hy, _⟩ := h.scope f x hx
    exact (Array.getElem?_eq_some_iff.mp hy).1
  refine ⟨?_, ?_, ?_, ?_⟩
  · intro id x hx
    rcases cases_of_getElem?_push hx with ⟨_, hx⟩ | ⟨rfl, rfl⟩
    · exact h.isSome_function id x hx
    · rw [hs]
      exact ⟨fun _ => hkind, fun _ => rfl⟩
  · intro id x f hx hf
    rcases cases_of_getElem?_push hx with ⟨_, hx⟩ | ⟨rfl, rfl⟩
    · obtain ⟨y, hy, hid⟩ := h.function id x f hx hf
      exact ⟨y, (Array.getElem?_push_lt (Array.getElem?_eq_some_iff.mp hy).1).trans
        ((Array.getElem?_eq_getElem _).symm.trans hy), hid⟩
    · obtain rfl := Option.some.inj (hs.symm.trans hf)
      exact ⟨g, hnew, hg⟩
  · intro f x hx
    rcases cases_of_getElem?_push hx with ⟨_, hx⟩ | ⟨rfl, rfl⟩
    · obtain ⟨y, hy, hf⟩ := h.scope f x hx
      exact ⟨y, Scope.Keeps.push scopes s _ _ hy, hf⟩
    · rw [hg]
      exact ⟨s, hscope, hs⟩
  · intro f f' x x' hx hx' hff
    rcases cases_of_getElem?_push hx' with ⟨hf', hx'⟩ | ⟨rfl, rfl⟩
    · rcases cases_of_getElem?_push hx with ⟨_, hx⟩ | ⟨rfl, rfl⟩
      · exact h.increasing f f' x x' hx hx' hff
      · omega
    · rcases cases_of_getElem?_push hx with ⟨_, hx⟩ | ⟨rfl, rfl⟩
      · rw [hg]
        exact hlt f x hx
      · omega

end Owned

/-! ## Entering an outline -/

namespace Resolver

theorem functions_mention (l : Listing) (frames : List Frame) (r : Resolver) (token : Nat) :
    (r.mention l frames token).table.functions = r.table.functions := by
  unfold mention
  repeat' split
  all_goals rfl

theorem functions_followBody (l : Listing) (scope : ScopeId) (outer : List Frame) (r : Resolver)
    (blocks : List Frame) (base : Frame) (steps : List Body.Step) :
    (r.followBody l scope outer blocks base steps).table.functions = r.table.functions := by
  fun_induction followBody l scope outer r blocks base steps with
  | case1 => rfl
  | case2 _ _ _ _ ih => exact ih
  | case3 _ _ _ _ ih => exact ih
  | case4 _ _ _ _ _ ih => rw [ih, functions_mention]
  | case5 r base d steps r' base' hd ih => rw [ih, ← functions_declare l .local scope r base, hd]
  | case6 r base d steps block blocks r' block' hd ih =>
    rw [ih, ← functions_declare l .local scope r block, hd]

theorem functions_addFunction (l : Listing) (r : Resolver) (parent : ScopeId) (frames : List Frame)
    (heading : Heading) (body : List Body.Step) :
    (r.addFunction l parent frames heading body).table.functions =
      r.table.functions.push (r.functionOf heading) := by
  rw [addFunction_eq, functions_followBody, functions_opened]

theorem functions_addMembers (r : Resolver) (name : String) (members : Frame) :
    (r.addMembers name members).table.functions = r.table.functions := by
  unfold addMembers
  split <;> rfl

/-- Entering an outline adds its braces behind the scopes that are there. -/
theorem grown_enter {l : Listing} {o : Outline} {i stop m : Nat} {r : Resolver} {scope : ScopeId}
    (outer : List Frame) (frame : Frame) (hb : o.Between l i stop)
    (h : Grown l i r.table.scopes) (ha : Around r.table.scopes scope i stop) (him : i ≤ m)
    (hsm : stop ≤ m) : Grown l m (r.enter l scope outer frame o).1.table.scopes ∧
      Scope.Keeps r.table.scopes (r.enter l scope outer frame o).1.table.scopes := by
  induction o generalizing i stop m r scope outer frame with
  | done => exact ⟨h.mono him, .refl _⟩
  | block kind name opener closer inside after ihin ihout =>
    obtain ⟨hb, hin, hout⟩ := hb
    have hstarts := hb.starts
    have hstops := hb.stops
    have hlt := Listing.lt_of_closing? hb.closes
    -- the region inside is entered with the new scope around it, the one behind with the old
    have hinside : ∀ kind : ScopeKind, kind ≠ .global → kind ≠ .function → ∀ entered,
        enter l r.table.scopes.size (frame :: outer)
          (r.addScope kind name opener closer (some scope) none).1 [] inside = entered →
        Grown l closer entered.1.table.scopes ∧
          Scope.Keeps r.table.scopes entered.1.table.scopes := by
      rintro kind hglobal hfunction _ rfl
      have hkeep := Scope.Keeps.push r.table.scopes
        ⟨r.table.scopes.size, kind, name, opener, closer, some scope, none⟩
      obtain ⟨hin, hinkeep⟩ := ihin (r := (r.addScope kind name opener closer (some scope) none).1)
        (frame :: outer) [] hin
        (h.push rfl hglobal hb rfl ha (Nat.le_refl opener) fun hf => absurd hf hfunction)
        ⟨_, Array.getElem?_push_size, Nat.le_refl opener, Nat.le_refl closer⟩ (Nat.le_of_lt hlt)
        (Nat.le_refl closer)
      exact ⟨hin, hkeep.trans hinkeep⟩
    have hbehind : ∀ r' : Resolver, Grown l closer r'.table.scopes →
        Scope.Keeps r.table.scopes r'.table.scopes →
        Grown l m (r'.enter l scope outer frame after).1.table.scopes ∧
          Scope.Keeps r.table.scopes (r'.enter l scope outer frame after).1.table.scopes := by
      intro r' hgrown hkeep
      obtain ⟨hout, houtkeep⟩ := ihout outer frame hout hgrown
        (ha.mono hkeep (by omega) (Nat.le_refl stop)) (by omega) hsm
      exact ⟨hout, hkeep.trans houtkeep⟩
    cases kind with
    | namespaceBlock =>
      obtain ⟨hin, hkeep⟩ := hinside .namespaceBlock (by decide) (by decide) _ rfl
      exact hbehind _ hin hkeep
    | classBody =>
      obtain ⟨hin, hkeep⟩ := hinside .classBody (by decide) (by decide) _ rfl
      refine hbehind _ ?_ ?_
      · rw [scopes_addMembers]
        exact hin
      · rw [scopes_addMembers]
        exact hkeep
  | linkage inside after ihin ihout =>
    obtain ⟨k, hik, hk, hin, hout⟩ := hb
    obtain ⟨hin, hkeep⟩ := ihin outer frame hin h (ha.mono (.refl _) (Nat.le_refl i) hk) hik
      (Nat.le_refl k)
    obtain ⟨hout, houtkeep⟩ := ihout outer _ hout hin (ha.mono hkeep hik (Nat.le_refl stop))
      (Nat.le_trans hk hsm) hsm
    exact ⟨hout, hkeep.trans houtkeep⟩
  | function heading body after ih =>
    obtain ⟨hb, hout⟩ := hb
    have hstarts := hb.starts
    have hstops := hb.stops
    have hlt := Listing.lt_of_closing? hb.closes
    have hscopes := scopes_addFunction l r scope (frame :: outer) heading body
    have hkeep := Scope.Keeps.push r.table.scopes (r.scopeOf scope heading)
    have hgrown := h.push (j := heading.bodyClose) (s := r.scopeOf scope heading) rfl nofun hb rfl
      ha (Nat.le_of_lt hlt) fun _ => Nat.le_refl _
    rw [← hscopes] at hkeep hgrown
    obtain ⟨hout, houtkeep⟩ := ih outer frame hout hgrown
      (ha.mono hkeep (by omega) (Nat.le_refl stop)) (by omega) hsm
    exact ⟨hout, hkeep.trans houtkeep⟩
  | declaration d after ih =>
    have hscopes := scopes_declare l .member scope r frame d.declarators
    rw [← hscopes] at h ha ⊢
    exact ih outer _ hb h ha him hsm

/-- Entering an outline keeps functions and their scopes together. -/
theorem owned_enter {l : Listing} {o : Outline} {r : Resolver} (scope : ScopeId)
    (outer : List Frame) (frame : Frame) (h : Owned r.table.scopes r.table.functions) :
    Owned (r.enter l scope outer frame o).1.table.scopes
      (r.enter l scope outer frame o).1.table.functions := by
  induction o generalizing r scope outer frame with
  | done => exact h
  | block kind name opener closer inside after ihin ihout =>
    cases kind with
    | namespaceBlock =>
      refine ihout scope outer frame (ihin _ _ _ ?_)
      exact h.push nofun rfl
    | classBody =>
      refine ihout scope outer frame ?_
      rw [scopes_addMembers, functions_addMembers]
      refine ihin _ _ _ ?_
      exact h.push nofun rfl
  | linkage inside after ihin ihout => exact ihout scope outer _ (ihin scope outer frame h)
  | function heading body after ih =>
    refine ih scope outer frame ?_
    rw [scopes_addFunction, functions_addFunction]
    exact h.pushFunction rfl rfl rfl
  | declaration d after ih =>
    refine ih scope outer _ ?_
    rw [scopes_declare, functions_declare]
    exact h

end Resolver

namespace SymbolTable

/-- What name resolution ensures of scopes makes them a tree. -/
theorem ScopeTree.of_grown {l : Listing} (hl : l.WellFormed) {t : SymbolTable} {i : Nat}
    (h : Grown l i t.scopes) (hf : Owned t.scopes t.functions) : t.ScopeTree l := by
  refine ⟨h.numbered, h.root, ?_, h.parent, ?_, ?_, ?_, hf⟩
  · intro id s hpos hs
    obtain ⟨hkind, hbrace, hclose⟩ := h.braces id s hpos hs
    exact ⟨hkind, hbrace, (Option.filter_eq_some_iff.mp hclose).1, Listing.lt_of_closing? hclose⟩
  · intro id id' s s' hs hs' hlt
    exact (h.ordered id id' s s' hs hs' hlt).1
  · intro id id' s s' hs hs' hne
    rcases Nat.lt_or_gt_of_ne hne with hlt | hlt
    · rcases h.behind_or_inside hl hs hs' hlt with hbehind | hinside
      · exact .inl hbehind
      · exact .inr (.inr (.inl hinside))
    · rcases h.behind_or_inside hl hs' hs hlt with hbehind | hinside
      · exact .inr (.inl hbehind)
      · exact .inr (.inr (.inr hinside))
  · rintro id id' s s' hs hkind hs' ⟨hstart, hstop⟩
    have hlt : s'.start ≤ s'.stop := by
      rcases Nat.eq_zero_or_pos id' with rfl | hpos
      · obtain ⟨root, hroot, _, hzero, _⟩ := h.root
        obtain rfl := Option.some.inj (hroot.symm.trans hs')
        omega
      · exact Nat.le_of_lt (Listing.lt_of_closing? (h.braces id' s' hpos hs').2.2)
    rcases Nat.lt_trichotomy id id' with hid | rfl | hid
    · have := (h.ordered id id' s s' hs hs' hid).2 hkind
      omega
    · obtain rfl := Option.some.inj (hs.symm.trans hs')
      omega
    · have := (h.ordered id' id s' s hs' hs hid).1
      omega

def globalScope (l : Listing) : Scope := ⟨0, .global, "", 0, l.size, none, none⟩

theorem eq_global {l : Listing} {id : Nat} {s : Scope} (h : #[globalScope l][id]? = some s) :
    id = 0 ∧ s = globalScope l := by
  obtain ⟨hlt, rfl⟩ := Array.getElem?_eq_some_iff.mp h
  obtain rfl : id = 0 := Nat.lt_one_iff.mp hlt
  exact ⟨rfl, rfl⟩

theorem grown_global (l : Listing) : Grown l 0 #[globalScope l] := by
  refine ⟨?_, ⟨globalScope l, rfl, rfl, rfl, rfl, rfl⟩, ?_, ?_, ?_, ?_⟩
  · intro id s hs
    obtain ⟨rfl, rfl⟩ := eq_global hs
    rfl
  · intro id s hpos hs
    exact absurd (eq_global hs).1 (Nat.ne_of_gt hpos)
  · intro id s hpos hs
    exact absurd (eq_global hs).1 (Nat.ne_of_gt hpos)
  · intro id id' s s' _ hs' hlt
    exact absurd (eq_global hs').1 (Nat.ne_of_gt (Nat.zero_lt_of_lt hlt))
  · intro id s hs
    obtain ⟨rfl, rfl⟩ := eq_global hs
    exact ⟨Nat.le_refl 0, nofun⟩

theorem owned_global (l : Listing) : Owned #[globalScope l] #[] := by
  refine ⟨?_, ?_, nofun, nofun⟩
  · intro id s hs
    obtain ⟨rfl, rfl⟩ := eq_global hs
    exact ⟨nofun, nofun⟩
  · intro id s f hs hf
    obtain ⟨rfl, rfl⟩ := eq_global hs
    cases hf

/-- **Scopes form a tree.** -/
theorem scopeTree_ofListing {l : Listing} (hl : l.WellFormed) : (ofListing l).ScopeTree l := by
  have hgrown := grown_global l
  have howned := owned_global l
  refine .of_grown hl (i := l.size) ?_ ?_
  · exact (Resolver.grown_enter [] [] hl.between_outline hgrown
      ⟨globalScope l, rfl, Nat.le_refl 0, Nat.le_refl l.size⟩ (Nat.zero_le _) (Nat.le_refl _)).1
  · exact Resolver.owned_enter 0 [] [] howned

end SymbolTable

end StackEscape
