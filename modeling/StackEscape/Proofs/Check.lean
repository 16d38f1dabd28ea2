import StackEscape.Proofs.Escape.Places

/-!
# What the check finds

The findings of the assignment pass come first, those of the three passes over returns follow. No
token is reported twice: what the passes look for begins with different tokens, or is looked for in
functions that return different things.
-/

namespace StackEscape

variable {p : Program} {b : Bool}

namespace Return

/-- What the passes over returns find, one pass after the other. -/
def findings (p : Program) : List Finding :=
  arrayPass p ++ referencePass p (stringFunctions p) ++ cStringPass p (stringFunctions p)

/-- The rules whose findings the passes over returns report. -/
def rules : List Rule :=
  [.returnLocalVariable, .returnReference, .returnTempReference, .returnTempPointer]

theorem Reports.mono {some all : List Rule} {i : Nat} {next : String} {f : Finding}
    (h : Reports p some i next f) (hsub : some ⊆ all) : Reports p all f.anchor next f := by
  obtain rfl := h.anchor
  exact { h with rule := hsub h.rule }

theorem reports_of_mem {f : Finding} (hf : f ∈ findings p) :
    ∃ next, Reports p rules f.anchor next f := by
  rcases List.mem_append.mp hf with hf | hf
  · rcases List.mem_append.mp hf with hf | hf
    · obtain ⟨_, _, _, _, _, _, hi⟩ := mem_passOver hf
      exact ⟨_, (reports_localArray hi).mono (by decide)⟩
    · obtain ⟨_, _, _, _, _, _, hi⟩ := mem_passOver hf
      obtain ⟨next, hr⟩ := reports_reference hi
      exact ⟨next, hr.mono (by decide)⟩
  · obtain ⟨_, _, _, _, _, _, hi⟩ := mem_passOver hf
    exact ⟨_, (reports_cString hi).mono (by decide)⟩

/-! ## Passes that share no token -/

section Apart

variable {wanted wanted' : ReturnCategory → Bool} {look look' : Nat → Option Finding}
variable {temporaries : List String} {f g : Finding}

/-- Passes over functions of different categories. A token stands in one function body only. -/
theorem anchor_ne_of_wanted (hp : p.WellFormed)
    (hlook : ∀ i f, look i = some f → f.anchor = i)
    (hlook' : ∀ i f, look' i = some f → f.anchor = i)
    (hwanted : ∀ c, wanted c = true → wanted' c = false)
    (hf : f ∈ passOver p wanted look) (hg : g ∈ passOver p wanted' look') :
    f.anchor ≠ g.anchor := by
  obtain ⟨s, hs, hreturns, i, hstart, hstop, hi⟩ := mem_passOver hf
  obtain ⟨s', hs', hreturns', j, hstart', hstop', hj⟩ := mem_passOver hg
  rw [hlook i f hi, hlook' j g hj]
  rintro rfl
  obtain rfl := hp.scope_unique hs hs' ⟨hstart, Nat.le_of_lt hstop⟩ ⟨hstart', Nat.le_of_lt hstop'⟩
  cases h : p.symbols.functionOf? s with
  | none => rw [h] at hreturns; cases hreturns
  | some function =>
    rw [h] at hreturns hreturns'
    rw [Option.any_some, hwanted _ hreturns] at hreturns'
    cases hreturns'

theorem anchor_of_reference {i : Nat} (h : reference p temporaries i = some f) : f.anchor = i := by
  obtain ⟨_, hr⟩ := reports_reference h
  exact hr.anchor

theorem array_ne_reference (hp : p.WellFormed) (hf : f ∈ arrayPass p)
    (hg : g ∈ referencePass p temporaries) : f.anchor ≠ g.anchor := by
  refine anchor_ne_of_wanted hp (fun _ _ h => (reports_localArray h).anchor)
    (fun _ _ => anchor_of_reference) (fun c hc => ?_) hf hg
  cases c <;> first | rfl | cases hc

theorem reference_ne_cString (hp : p.WellFormed) (hf : f ∈ referencePass p temporaries)
    (hg : g ∈ cStringPass p temporaries) : f.anchor ≠ g.anchor := by
  refine anchor_ne_of_wanted hp (fun _ _ => anchor_of_reference)
    (fun _ _ h => (reports_cString h).anchor) (fun c hc => ?_) hf hg
  cases c <;> first | rfl | cases hc

/-- Both passes may look at one function, but one of them wants a `;` and the other one a call. -/
theorem array_ne_cString (hf : f ∈ arrayPass p) (hg : g ∈ cStringPass p temporaries) :
    f.anchor ≠ g.anchor := by
  obtain ⟨_, _, _, i, _, _, hi⟩ := mem_passOver hf
  obtain ⟨_, _, _, j, _, _, hj⟩ := mem_passOver hg
  have hr := reports_localArray hi
  have hr' := reports_cString hj
  rw [hr.anchor, hr'.anchor]
  rintro rfl
  have hnext := hr.next
  rw [hr'.next] at hnext
  exact absurd hnext (by decide)

end Apart

theorem anchor_ne_findings (hp : p.WellFormed) :
    (findings p).Pairwise fun f g => f.anchor ≠ g.anchor := by
  have hne : ∀ {fs : List Finding}, p.Holds fs → fs.Pairwise fun f g => f.anchor ≠ g.anchor :=
    fun h => h.increasing.imp Nat.ne_of_lt
  refine List.pairwise_append.mpr ⟨List.pairwise_append.mpr ⟨hne (holds_arrayPass hp),
    hne (holds_referencePass hp _), fun f hf g hg => array_ne_reference hp hf hg⟩,
    hne (holds_cStringPass hp _), ?_⟩
  intro f hf g hg
  rcases List.mem_append.mp hf with hf | hf
  · exact array_ne_cString hf hg
  · exact reference_ne_cString hp hf hg

end Return

/-- Where the assignment pass reports a `return`, an `&` follows, and not a name. -/
theorem Assignment.anchor_ne (hp : p.WellFormed) {f g : Finding} (hf : f ∈ pass p b)
    (hg : g ∈ Return.findings p) : f.anchor ≠ g.anchor := by
  obtain ⟨_, _, hr⟩ := reports_of_mem_pass hp hf
  obtain ⟨_, hr'⟩ := Return.reports_of_mem hg
  intro he
  rw [← he] at hr'
  exact hp.listing.text_ne_of_isName hr'.name (by decide) (hr.returns hr'.returns)

namespace Check

theorem findings_eq (p : Program) (b : Bool) :
    autoVariables.findings p b = Assignment.pass p b ++ Return.findings p := by
  simp only [autoVariables, Return.findings, List.append_assoc]

/-- What none of the passes over returns may report is found by a rule of the assignment pass. -/
theorem exists_hit_of_rule {f : Finding} (hf : f ∈ autoVariables.findings p b)
    (hrule : f.rule ∉ Return.rules) :
    ∃ i h, Assignment.hit? p b i = some h ∧ f ∈ h.finding := by
  rw [findings_eq] at hf
  rcases List.mem_append.mp hf with hf | hf
  · exact Assignment.exists_hit_of_mem_pass hf
  · obtain ⟨_, hr⟩ := Return.reports_of_mem hf
    exact absurd hr.rule hrule

theorem lt_size_of_mem (hp : p.WellFormed) {f : Finding} (hf : f ∈ autoVariables.findings p b) :
    f.anchor < p.listing.size := by
  rw [findings_eq] at hf
  rcases List.mem_append.mp hf with hf | hf
  · exact (Assignment.holds_pass hp b).lt_size hp hf
  · obtain ⟨_, hr⟩ := Return.reports_of_mem hf
    exact Listing.lt_size_of_text hr.returns (by decide)

/-- **The check reports no token twice.** -/
theorem anchor_ne (hp : p.WellFormed) (b : Bool) :
    (autoVariables.findings p b).Pairwise fun f g => f.anchor ≠ g.anchor := by
  rw [findings_eq]
  exact List.pairwise_append.mpr ⟨(Assignment.holds_pass hp b).increasing.imp Nat.ne_of_lt,
    Return.anchor_ne_findings hp, fun f hf g hg => Assignment.anchor_ne hp hf hg⟩

end Check

end StackEscape
