import StackEscape.Proofs.Outline.Headings
import StackEscape.Symbol.Resolve

/-!
# Function scopes

The function scopes of a symbol table are the function bodies of the outline, in the same order.
Only entering a namespace, a class or a function adds a scope; declaring and binding names adds
none. Hence function scopes are linked pairs of braces that stand one behind the other.
-/

namespace StackEscape

namespace Resolver

/-! ## What leaves the scopes alone -/

@[simp] theorem scopes_addVariable (l : Listing) (r : Resolver) (role : Role) (scope : ScopeId)
    (d : Declarator) : (r.addVariable l role scope d).1.table.scopes = r.table.scopes := rfl

@[simp] theorem scopes_declare (l : Listing) (role : Role) (scope : ScopeId) (r : Resolver)
    (frame : Frame) (ds : List Declarator) :
    (declare l role scope r frame ds).1.table.scopes = r.table.scopes := by
  induction ds generalizing r frame with
  | nil => rfl
  | cons d ds ih => rw [declare, ih, scopes_addVariable]

@[simp] theorem scopes_addMembers (r : Resolver) (name : String) (members : Frame) :
    (r.addMembers name members).table.scopes = r.table.scopes := by
  unfold addMembers
  split <;> rfl

@[simp] theorem scopes_mention (l : Listing) (frames : List Frame) (r : Resolver) (token : Nat) :
    (r.mention l frames token).table.scopes = r.table.scopes := by
  unfold mention
  repeat' split
  all_goals rfl

@[simp] theorem scopes_followBody (l : Listing) (scope : ScopeId) (outer : List Frame)
    (r : Resolver) (blocks : List Frame) (base : Frame) (steps : List Body.Step) :
    (r.followBody l scope outer blocks base steps).table.scopes = r.table.scopes := by
  fun_induction followBody l scope outer r blocks base steps with
  | case1 => rfl
  | case2 _ _ _ _ ih => exact ih
  | case3 _ _ _ _ ih => exact ih
  | case4 _ _ _ _ _ ih => rw [ih, scopes_mention]
  | case5 r base d steps r' base' hd ih => rw [ih, ← scopes_declare l .local scope r base, hd]
  | case6 r base d steps block blocks r' block' hd ih =>
    rw [ih, ← scopes_declare l .local scope r block, hd]

/-! ## What adds one -/

def bodies (scopes : Array Scope) : List (Nat × Nat) :=
  (scopes.toList.filter Scope.isFunction).map fun s => (s.start, s.stop)

theorem bodies_push (scopes : Array Scope) (s : Scope) :
    bodies (scopes.push s) = bodies scopes ++ if s.isFunction then [(s.start, s.stop)] else [] := by
  unfold bodies
  rw [Array.toList_push, List.filter_append, List.map_append]
  cases h : s.isFunction <;> simp [h]

theorem bodies_addFunction (l : Listing) (r : Resolver) (parent : ScopeId) (frames : List Frame)
    (heading : Heading) (body : List Body.Step) :
    bodies (r.addFunction l parent frames heading body).table.scopes =
      bodies r.table.scopes ++ [(heading.bodyOpen, heading.bodyClose)] := by
  simp only [addFunction, scopes_followBody, scopes_declare, addScope]
  exact bodies_push _ _

/-- Entering an outline adds its function bodies, in order. -/
theorem bodies_enter (l : Listing) (scope : ScopeId) (outer : List Frame) (r : Resolver)
    (frame : Frame) (o : Outline) :
    bodies (r.enter l scope outer frame o).1.table.scopes =
      bodies r.table.scopes ++ o.headings.map fun h => (h.bodyOpen, h.bodyClose) := by
  induction o generalizing scope outer r frame with
  | done => simp [enter, Outline.headings]
  | block kind name opener closer inside after ihin ihout =>
    cases kind with
    | namespaceBlock =>
      simp only [enter, ihout, ihin, Outline.headings, List.map_append, List.append_assoc]
      rw [addScope, bodies_push]
      simp [Scope.isFunction]
    | classBody =>
      simp only [enter, ihout, scopes_addMembers, ihin, Outline.headings, List.map_append,
        List.append_assoc]
      rw [addScope, bodies_push]
      simp [Scope.isFunction]
  | linkage inside after ihin ihout =>
    simp only [enter, ihout, ihin, Outline.headings, List.map_append, List.append_assoc]
  | function heading body after ih =>
    simp only [enter, ih, bodies_addFunction, Outline.headings, List.map_cons, List.append_assoc,
      List.singleton_append]
  | declaration d after ih => simp only [enter, ih, scopes_declare, Outline.headings]

end Resolver

namespace SymbolTable

theorem bodies_ofListing (l : Listing) :
    Resolver.bodies (ofListing l).scopes =
      l.outline.headings.map fun h => (h.bodyOpen, h.bodyClose) := by
  simp only [ofListing, resolveTypes, Resolver.bodies_enter]
  rfl

/-- A function scope is the body of a function: a linked pair of braces. -/
structure IsBody (l : Listing) (s : Scope) : Prop where
  brace : l.text s.start = "\x7b"
  closes : l.closing? s.start = some s.stop

theorem isBody_of_mem {l : Listing} (hl : l.WellFormed) {s : Scope}
    (hs : s ∈ (ofListing l).functionScopes) : IsBody l s := by
  have hm : (s.start, s.stop) ∈ Resolver.bodies (ofListing l).scopes :=
    List.mem_map.mpr ⟨s, hs, rfl⟩
  rw [bodies_ofListing] at hm
  obtain ⟨heading, hmem, he⟩ := List.mem_map.mp hm
  obtain ⟨hstart, hstop⟩ := Prod.mk.inj he
  have hw := hl.ordered_headings.1 heading hmem
  exact ⟨hstart ▸ hw.brace, hstart ▸ hstop ▸ hw.closes⟩

/-- **Function scopes are apart**: each ends before the next one begins. -/
theorem ordered_functionScopes {l : Listing} (hl : l.WellFormed) :
    (ofListing l).functionScopes.Pairwise fun a b => a.stop < b.start := by
  have h : (Resolver.bodies (ofListing l).scopes).Pairwise fun a b => a.2 < b.1 := by
    rw [bodies_ofListing, List.pairwise_map]
    exact hl.ordered_headings.2
  exact List.pairwise_map.mp h

end SymbolTable

end StackEscape
