import StackEscape.Proofs.Outline.Progress
import StackEscape.Proofs.Symbol.Runs

/-!
# What name resolution may bind

Name resolution binds the tokens that an outline declares or mentions and no others, and those that
the outline of a range declares or mentions stand in the range. So what is bound outside a range is
the same before it is gone through and behind.
-/

namespace StackEscape

/-! ## The tokens of an outline -/

theorem Declarator.siblings_le (l : Listing) (stop : Nat) (first : Declarator) (j : Nat) :
    ∀ d ∈ siblings l stop first j, d.nameToken ≤ stop := by
  fun_induction siblings l stop first j with
  | case1 => exact List.forall_mem_nil _
  | case2 j comma hcomma name _ marks ih =>
    exact List.forall_mem_cons.mpr ⟨Listing.passWords_le hcomma.1, ih⟩
  | case3 => exact List.forall_mem_nil _

/-- The names that a declaration declares stand in the range that it is read in. -/
theorem Declaration.within_of_fenced {l : Listing} (hl : l.WellFormed) {terminators : List String}
    {i stop : Nat} (h : l.Fenced i stop) {d : Declaration}
    (hread : ofTokens? l terminators i stop = some d) :
    ∀ x ∈ d.declarators, i ≤ x.nameToken ∧ x.nameToken < stop := by
  obtain ⟨hfirst, hothers⟩ := first_of_ofTokens? hread
  intro x hx
  refine ⟨Nat.le_of_lt (readFrom_ofTokens? hl hread x hx).1.behind, ?_⟩
  refine h.lt_of_isName ?_ (named_ofTokens? hl hread x hx).isName
  rcases List.mem_cons.mp hx with rfl | hx
  · obtain ⟨types, hr⟩ := Declarator.reads_of_ofTokens? hfirst
    exact Nat.le_of_lt hr.inside
  · rw [hothers] at hx
    exact Declarator.siblings_le l stop d.first _ x hx

/-- What the walk through a body binds stands in the range of the body. -/
theorem Body.binds_of_fenced {l : Listing} (hl : l.WellFormed) {i stop : Nat}
    (h : l.Fenced i stop) (fresh : Bool) :
    ∀ s ∈ steps l stop i fresh, s.Binds fun t => i ≤ t ∧ t < stop := by
  intro s hs
  cases s with
  | enterBlock => trivial
  | leaveBlock => trivial
  | mention token => exact within_of_mention_mem hs
  | declare d =>
    obtain ⟨x, hix, _, hreads⟩ := exists_reads_of_declare_mem hs
    intro y hy
    have hwithin := Declaration.within_of_fenced hl (h.mono hix) hreads y hy
    omega

namespace Outline

def Binds (P : Nat → Prop) : Outline → Prop
  | .done => True
  | .block _ _ _ _ inside after => inside.Binds P ∧ after.Binds P
  | .linkage inside after => inside.Binds P ∧ after.Binds P
  | .function heading body after =>
    (∀ d ∈ heading.parameters, P d.nameToken) ∧ (∀ s ∈ body, s.Binds P) ∧ after.Binds P
  | .declaration d after => (∀ x ∈ d.declarators, P x.nameToken) ∧ after.Binds P

theorem Binds.mono {P P' : Nat → Prop} (hP : ∀ t, P t → P' t) {o : Outline} (h : o.Binds P) :
    o.Binds P' := by
  induction o with
  | done => trivial
  | block _ _ _ _ _ _ ihin ihout => exact ⟨ihin h.1, ihout h.2⟩
  | linkage _ _ ihin ihout => exact ⟨ihin h.1, ihout h.2⟩
  | function _ _ _ ih =>
    exact ⟨fun d hd => hP _ (h.1 d hd), fun s hs => (h.2.1 s hs).mono hP, ih h.2.2⟩
  | declaration _ _ ih => exact ⟨fun x hx => hP _ (h.1 x hx), ih h.2⟩

/-- What the walk through a range finds binds tokens of the range. -/
theorem Walk.binds {file source : String} {l : Listing}
    (hl : Listing.ofSource file source = .ok l) {stop i n : Nat} {o : Outline}
    (h : Walk l stop i o n) (hf : l.Fenced i stop) : o.Binds fun t => i ≤ t ∧ t < stop := by
  induction h with
  | done => trivial
  | skip _ hnext _ _ ih =>
    exact (ih (hf.mono (Nat.le_of_lt hnext))).mono fun t ht => ⟨by omega, ht.2⟩
  | block hbraces hnext _ _ _ ihin ihout =>
    obtain ⟨hstarts, hopen, hstops⟩ := hbraces.order
    refine ⟨(ihin (hbraces.fenced hl)).mono fun t ht => ?_,
      (ihout (hf.mono (by omega))).mono fun t ht => ?_⟩
    · exact ⟨by omega, by omega⟩
    · exact ⟨by omega, ht.2⟩
  | linkage hbraces _ _ _ ihin ihout =>
    obtain ⟨hstarts, hopen, hstops⟩ := hbraces.order
    refine ⟨(ihin (hbraces.fenced hl)).mono fun t ht => ?_,
      (ihout (hf.mono (by omega))).mono fun t ht => ?_⟩
    · exact ⟨by omega, by omega⟩
    · exact ⟨by omega, ht.2⟩
  | @function stop i _ _ heading body _ hbraces hc hbody _ ih =>
    obtain ⟨hstarts, hopen, hstops⟩ := hbraces.order
    have hread : Heading.ofTokens? l i stop = some heading := by
      have hfound := Construct.found_ofTokens l stop i
      rwa [hc] at hfound
    have hsteps := Body.binds_of_fenced (Listing.wellFormed_ofSource hl) (hbraces.fenced hl) true
    rw [← hbody.eq_steps] at hsteps
    refine ⟨fun d hd => ?_, fun s hs => (hsteps s hs).mono fun t ht => ?_,
      (ih (hf.mono (by omega))).mono fun t ht => ?_⟩
    · have hwithin := Heading.within_of_mem_parameters hread d hd
      exact ⟨by omega, by omega⟩
    · exact ⟨by omega, by omega⟩
    · exact ⟨by omega, ht.2⟩
  | @declaration stop i _ _ d _ _ hnext hc _ ih =>
    have hread : Declaration.ofTokens? l Declaration.memberTerminators i stop = some d := by
      have hfound := Construct.found_ofTokens l stop i
      rwa [hc] at hfound
    exact ⟨Declaration.within_of_fenced (Listing.wellFormed_ofSource hl) hf hread,
      (ih (hf.mono (Nat.le_of_lt hnext))).mono fun t ht => ⟨by omega, ht.2⟩⟩

end Outline

/-! ## What is bound -/

namespace Resolver

/-- That on the way from `r` to `r'` only tokens with the property `P` are bound. -/
def BindsOnly (P : Nat → Prop) (r r' : Resolver) : Prop :=
  ∀ t, ¬ P t → r'.table.bindings.get? t = r.table.bindings.get? t

section
variable {P : Nat → Prop} {l : Listing} {r r' r'' : Resolver}

theorem BindsOnly.refl (P : Nat → Prop) (r : Resolver) : BindsOnly P r r := fun _ _ => rfl

theorem BindsOnly.trans (h : BindsOnly P r r') (h' : BindsOnly P r' r'') : BindsOnly P r r'' :=
  fun t ht => (h' t ht).trans (h t ht)

theorem bindsOnly_declare (role : Role) (scope : ScopeId) (frame : Frame) {ds : List Declarator}
    (hds : ∀ d ∈ ds, P d.nameToken) : BindsOnly P r (r.declare l role scope frame ds).1 := by
  induction ds generalizing r frame with
  | nil => exact .refl P r
  | cons d ds ih =>
    obtain ⟨hd, hds⟩ := List.forall_mem_cons.mp hds
    have hadd : BindsOnly P r (r.addVariable l role scope d).1 := by
      intro t ht
      refine Bindings.get?_bind_of_ne ?_
      rintro rfl
      exact ht hd
    exact hadd.trans (ih _ hds)

theorem bindsOnly_addMembers (r : Resolver) (name : String) (members : Frame) :
    BindsOnly P r (r.addMembers name members) := by
  unfold addMembers
  split
  · exact .refl P r
  · exact fun _ _ => rfl

theorem bindsOnly_mention (frames : List Frame) {token : Nat} (ht : P token) :
    BindsOnly P r (r.mention l frames token) := by
  unfold mention
  split
  · exact .refl P r
  · split
    · intro t hnot
      refine Bindings.get?_bind_of_ne ?_
      rintro rfl
      exact hnot ht
    · exact .refl P r

/-- Following a body binds the tokens that its steps bind. -/
theorem bindsOnly_followBody (scope : ScopeId) (outer blocks : List Frame) (base : Frame)
    {steps : List Body.Step} (hs : ∀ s ∈ steps, s.Binds P) :
    BindsOnly P r (r.followBody l scope outer blocks base steps) := by
  fun_induction followBody l scope outer r blocks base steps with
  | case1 => exact .refl P _
  | case2 _ _ _ _ ih => exact ih (List.forall_mem_cons.mp hs).2
  | case3 _ _ _ _ ih => exact ih (List.forall_mem_cons.mp hs).2
  | case4 _ _ _ _ _ ih =>
    obtain ⟨hm, hs⟩ := List.forall_mem_cons.mp hs
    exact (bindsOnly_mention _ hm).trans (ih hs)
  | case5 r base d steps r' base' hr ih =>
    obtain ⟨hd, hs⟩ := List.forall_mem_cons.mp hs
    have hdeclare := bindsOnly_declare (l := l) (r := r) .local scope base hd
    rw [hr] at hdeclare
    exact hdeclare.trans (ih hs)
  | case6 r base d steps block blocks r' block' hr ih =>
    obtain ⟨hd, hs⟩ := List.forall_mem_cons.mp hs
    have hdeclare := bindsOnly_declare (l := l) (r := r) .local scope block hd
    rw [hr] at hdeclare
    exact hdeclare.trans (ih hs)

theorem bindsOnly_addFunction (parent : ScopeId) (frames : List Frame) {heading : Heading}
    (hp : ∀ d ∈ heading.parameters, P d.nameToken) {body : List Body.Step}
    (hb : ∀ s ∈ body, s.Binds P) : BindsOnly P r (r.addFunction l parent frames heading body) := by
  have harguments : BindsOnly P r (r.withArguments l parent heading).1 :=
    bindsOnly_declare .argument r.table.scopes.size [] hp
  exact harguments.trans (bindsOnly_followBody (r := r.opened l parent heading) _ _ _ _ hb)

/-- Entering an outline binds the tokens that the outline binds. -/
theorem bindsOnly_enter (scope : ScopeId) (outer : List Frame) (frame : Frame) {o : Outline}
    (ho : o.Binds P) : BindsOnly P r (r.enter l scope outer frame o).1 := by
  induction o generalizing scope outer r frame with
  | done => exact .refl P r
  | block kind name opener closer inside after ihin ihout =>
    cases kind with
    | namespaceBlock =>
      have hin := ihin (r := (r.addScope .namespaceBlock name opener closer (some scope) none).1)
        r.table.scopes.size (frame :: outer) [] ho.1
      exact hin.trans (ihout scope outer frame ho.2)
    | classBody =>
      have hin := ihin (r := (r.addScope .classBody name opener closer (some scope) none).1)
        r.table.scopes.size (frame :: outer) [] ho.1
      refine hin.trans (BindsOnly.trans ?_ (ihout scope outer frame ho.2))
      exact bindsOnly_addMembers _ name _
  | linkage inside after ihin ihout =>
    exact (ihin scope outer frame ho.1).trans (ihout scope outer _ ho.2)
  | function heading body after ih =>
    exact (bindsOnly_addFunction scope (frame :: outer) ho.1 ho.2.1).trans
      (ih scope outer frame ho.2.2)
  | declaration d after ih =>
    exact (bindsOnly_declare .member scope frame ho.1).trans (ih scope outer _ ho.2)

end

end Resolver

end StackEscape
