import StackEscape.Check
import StackEscape.Proofs.Escape.Hits

/-!
# Where the passes report

Every pass goes through the function bodies in the order of the source, and through each body from
its opening brace on. The assignment pass jumps; the passes over returns look at every token. In
both cases the anchors of the findings increase and stay between the braces, and in the assignment
pass no end of a statement is jumped over unless it stands in square brackets.
-/

namespace StackEscape

variable {p : Program}

/-- Findings in the order of the source, between the braces of a scope. -/
structure Scope.Holds (s : Scope) (fs : List Finding) : Prop where
  increasing : fs.Pairwise fun f g => f.anchor < g.anchor
  between : ∀ f ∈ fs, s.start < f.anchor ∧ f.anchor < s.stop

/-- Findings in the order of the source, each between the braces of a function. -/
structure Program.Holds (p : Program) (fs : List Finding) : Prop where
  increasing : fs.Pairwise fun f g => f.anchor < g.anchor
  between : ∀ f ∈ fs, ∃ s ∈ p.symbols.functionScopes, s.start < f.anchor ∧ f.anchor < s.stop

/-- What is found in one function after the other is in the order of the source. -/
theorem Program.WellFormed.holds_flatMap (hp : p.WellFormed) {scopes : List Scope}
    {found : Scope → List Finding} (hsub : scopes.Sublist p.symbols.functionScopes)
    (hfound : ∀ s ∈ scopes, s.Holds (found s)) : p.Holds (scopes.flatMap found) := by
  refine ⟨List.pairwise_flatMap.mpr ⟨fun s hs => (hfound s hs).increasing, ?_⟩, ?_⟩
  · refine List.Pairwise.imp_of_mem ?_ (hp.apart.sublist hsub)
    intro a b ha hb hab f hf g hg
    have := (hfound _ ha).between f hf
    have := (hfound _ hb).between g hg
    omega
  · intro f hf
    obtain ⟨s, hs, hmem⟩ := List.mem_flatMap.mp hf
    exact ⟨s, hsub.subset hs, (hfound s hs).between f hmem⟩

/-- Every finding is at a token. -/
theorem Program.Holds.lt_size {fs : List Finding} (hp : p.WellFormed) (h : p.Holds fs)
    {f : Finding} (hf : f ∈ fs) : f.anchor < p.listing.size := by
  obtain ⟨s, hs, _, hstop⟩ := h.between f hf
  exact Nat.lt_trans hstop (hp.listing.pair_of_closing? (hp.bodies s hs).closes).1

/-! ## The assignment pass -/

namespace Assignment

variable {b : Bool} {stop i : Nat}

/-- What is found is reported by a rule that applies. -/
theorem exists_hit_of_mem {f : Finding} (hf : f ∈ findings p b stop i) :
    ∃ j h, i ≤ j ∧ j < stop ∧ hit? p b j = some h ∧ f ∈ h.finding := by
  fun_induction findings p b stop i with
  | case1 i hi h hh ih =>
    rcases List.mem_append.mp hf with hf | hf
    · exact ⟨i, h, Nat.le_refl i, hi, hh, Option.mem_toList.mp hf⟩
    · obtain ⟨j, h', hij, hj⟩ := ih hf
      exact ⟨j, h', by omega, hj⟩
  | case2 i hi hh ih =>
    obtain ⟨j, h', hij, hj⟩ := ih hf
    exact ⟨j, h', by omega, hj⟩
  | case3 => exact absurd hf List.not_mem_nil

/-- What a rule makes of a token is found, if no rule that applies in front jumps over the token. -/
theorem mem_findings_of_reached {t : Nat} (hit : i ≤ t) (ht : t < stop)
    (hreached : ∀ j h, hit? p b j = some h → j < t → j + h.advance < t) {h : Hit}
    (hh : hit? p b t = some h) {f : Finding} (hf : f ∈ h.finding) : f ∈ findings p b stop i := by
  fun_induction findings p b stop i with
  | case1 i hi h' hh' ih =>
    refine List.mem_append.mpr ?_
    rcases Nat.eq_or_lt_of_le hit with rfl | hlt
    · obtain rfl := Option.some.inj (hh'.symm.trans hh)
      exact .inl (Option.mem_toList.mpr hf)
    · exact .inr (ih (hreached i h' hh' hlt))
  | case2 i hi hh' ih =>
    rcases Nat.eq_or_lt_of_le hit with rfl | hlt
    · cases hh'.symm.trans hh
    · exact ih hlt
  | case3 => omega

/-- **No statement is jumped over.** What a rule makes of the end of a statement is found, unless
the end stands in square brackets. -/
theorem mem_findings (hp : p.WellFormed) {t : Nat} (hit : i ≤ t) (ht : t < stop)
    (hboundary : IsBoundary (p.listing.text t)) (hsquare : ¬ p.InSquare t) {h : Hit}
    (hh : hit? p b t = some h) {f : Finding} (hf : f ∈ h.finding) : f ∈ findings p b stop i := by
  refine mem_findings_of_reached hit ht (fun j h' hh' hjt => ?_) hh hf
  refine Nat.lt_of_not_le fun hle => hsquare ?_
  exact (fits_hit? hp hh').passes t hjt hle hboundary

/-- The scan goes on behind the anchor of what it reports. -/
theorem increasing_findings (hp : p.WellFormed) (b : Bool) (stop i : Nat) :
    (findings p b stop i).Pairwise (fun f g => f.anchor < g.anchor) ∧
      ∀ f ∈ findings p b stop i, i ≤ f.anchor := by
  fun_induction findings p b stop i with
  | case1 i hi h hh ih =>
    obtain ⟨hpair, hge⟩ := ih
    have hreports := (fits_hit? hp hh).reports
    refine ⟨List.pairwise_append.mpr ⟨?_, hpair, ?_⟩, ?_⟩
    · cases h.finding <;> simp
    · intro f hf g hg
      have := (hreports f (Option.mem_toList.mp hf)).before
      have := hge g hg
      omega
    · intro f hf
      rcases List.mem_append.mp hf with hf | hf
      · exact (hreports f (Option.mem_toList.mp hf)).behind
      · have := hge f hf
        omega
  | case2 i hi hh ih => exact ⟨ih.1, fun f hf => Nat.le_of_succ_le (ih.2 f hf)⟩
  | case3 => exact ⟨.nil, fun f hf => absurd hf List.not_mem_nil⟩

/-- In one function, the braces of the body are never passed. -/
theorem holds_findings (hp : p.WellFormed) {s : Scope} (hs : s ∈ p.symbols.functionScopes)
    (b : Bool) : s.Holds (findings p b s.stop s.start) := by
  obtain ⟨hpair, hge⟩ := increasing_findings hp b s.stop s.start
  refine ⟨hpair, ?_⟩
  intro f hf
  have hbody := hp.bodies s hs
  obtain ⟨j, h, hij, hj, hh, hmem⟩ := exists_hit_of_mem hf
  have hr := (fits_hit? hp hh).reports f hmem
  have hbehind := hr.behind
  constructor
  · refine Nat.lt_of_le_of_ne (hge f hf) fun he => ?_
    obtain rfl : s.start = j := by omega
    have hbrace := hr.here he.symm
    rw [hbody.brace] at hbrace
    exact absurd hbrace (by decide)
  · refine Nat.not_le.mp fun hle => hr.plain s.stop hj hle ?_
    exact .inr (.inr (hp.listing.text_close_brace hbody.closes hbody.brace))

theorem holds_pass (hp : p.WellFormed) (b : Bool) : p.Holds (pass p b) :=
  hp.holds_flatMap (.refl _) fun _ hs => holds_findings hp hs b

/-- What the pass finds is reported by a rule that applies in the body of a function. -/
theorem exists_hit_of_mem_pass {f : Finding} (hf : f ∈ pass p b) :
    ∃ j h, hit? p b j = some h ∧ f ∈ h.finding := by
  obtain ⟨s, _, hf⟩ := List.mem_flatMap.mp hf
  obtain ⟨j, h, _, _, hh, hmem⟩ := exists_hit_of_mem hf
  exact ⟨j, h, hh, hmem⟩

theorem reports_of_mem_pass (hp : p.WellFormed) {f : Finding} (hf : f ∈ pass p b) :
    ∃ j advance, Reports p b j advance f := by
  obtain ⟨j, h, hh, hmem⟩ := exists_hit_of_mem_pass hf
  exact ⟨j, h.advance, (fits_hit? hp hh).reports f hmem⟩

end Assignment

/-! ## The passes over returns -/

namespace Return

variable {i : Nat} {f : Finding}

/-- What a pass over returns reports at `i`: a certain finding about a `return`, followed by a name
and the token `next`. -/
structure Reports (p : Program) (rules : List Rule) (i : Nat) (next : String) (f : Finding) :
    Prop where
  anchor : f.anchor = i
  rule : f.rule ∈ rules
  sure : f.confidence = .definite
  returns : p.listing.text i = "return"
  name : p.listing.isName (i + 1) = true
  next : p.listing.text (i + 2) = next

theorem Reports.of_name {rule : Rule} {message : String} (h : namePattern.matchesAt p i = true)
    {rules : List Rule} (hrule : rule ∈ rules) :
    Reports p rules i ";" (.definite i rule message) := by
  obtain ⟨hreturn, hname, hnext⟩ := name_matches.mp h
  exact ⟨rfl, hrule, rfl, hreturn, hname, hnext⟩

theorem Reports.of_call {temporaries : List String} {rule : Rule} {message : String}
    (h : returnsTemporary p temporaries i = true) {rules : List Rule} (hrule : rule ∈ rules) :
    Reports p rules i "(" (.definite i rule message) := by
  obtain ⟨hreturn, hname, hnext⟩ := call_matches.mp (Bool.and_eq_true_iff.mp h).1
  exact ⟨rfl, hrule, rfl, hreturn, hname, hnext⟩

theorem reports_localArray (h : localArray p i = some f) :
    Reports p [.returnLocalVariable] i ";" f := by
  unfold localArray at h
  split at h
  · next hc =>
    obtain rfl := Option.some.inj h
    exact .of_name (Bool.and_eq_true_iff.mp hc).1 (by decide)
  · cases h

theorem reports_reference {temporaries : List String} (h : reference p temporaries i = some f) :
    ∃ next, Reports p [.returnReference, .returnTempReference] i next f := by
  unfold reference at h
  split at h
  · next hname =>
    split at h
    · obtain rfl := Option.some.inj h
      exact ⟨_, .of_name hname (by decide)⟩
    · cases h
  · split at h
    · next hcall =>
      obtain rfl := Option.some.inj h
      exact ⟨_, .of_call hcall (by decide)⟩
    · cases h

theorem reports_cString {temporaries : List String} (h : cString p temporaries i = some f) :
    Reports p [.returnTempPointer] i "(" f := by
  unfold cString at h
  split at h
  · next hcall =>
    obtain rfl := Option.some.inj h
    exact .of_call hcall (by decide)
  · cases h

variable {wanted : ReturnCategory → Bool} {look : Nat → Option Finding}

/-- What a pass over the functions of some category finds. -/
theorem mem_passOver (hf : f ∈ passOver p wanted look) :
    ∃ s ∈ p.symbols.functionScopes, (p.symbols.functionOf? s).any (wanted ·.returns) = true ∧
      ∃ i, s.start ≤ i ∧ i < s.stop ∧ look i = some f := by
  obtain ⟨s, hs, hf⟩ := List.mem_flatMap.mp hf
  obtain ⟨hs, hwanted⟩ := List.mem_filter.mp hs
  obtain ⟨i, hi, hlook⟩ := List.mem_filterMap.mp hf
  obtain ⟨hstart, hstop⟩ := List.mem_range'_1.mp hi
  exact ⟨s, hs, hwanted, i, hstart, by omega, hlook⟩

/-- A pass finds what it looks for at every token of such functions. -/
theorem mem_passOver_of_look {s : Scope} (hs : s ∈ p.symbols.functionScopes)
    (hwanted : (p.symbols.functionOf? s).any (wanted ·.returns) = true) (hstart : s.start ≤ i)
    (hstop : i < s.stop) (hlook : look i = some f) : f ∈ passOver p wanted look := by
  refine List.mem_flatMap.mpr ⟨s, List.mem_filter.mpr ⟨hs, hwanted⟩, ?_⟩
  exact List.mem_filterMap.mpr ⟨i, List.mem_range'_1.mpr ⟨hstart, by omega⟩, hlook⟩

/-- A `return` stands behind the brace that opens the body. -/
theorem Reports.start_lt (hp : p.WellFormed) {s : Scope} (hs : s ∈ p.symbols.functionScopes)
    {rules : List Rule} {next : String} (h : Reports p rules i next f) (hstart : s.start ≤ i) :
    s.start < i := by
  refine Nat.lt_of_le_of_ne hstart ?_
  rintro rfl
  have hreturn := h.returns
  rw [(hp.bodies s hs).brace] at hreturn
  exact absurd hreturn (by decide)

/-- A pass that reports a `return` where it finds one is in the order of the source. -/
theorem holds_passOver (hp : p.WellFormed) (wanted : ReturnCategory → Bool)
    (hlook : ∀ i f, look i = some f → ∃ rules next, Reports p rules i next f) :
    p.Holds (passOver p wanted look) := by
  refine hp.holds_flatMap List.filter_sublist ?_
  intro s hs
  have hanchor : ∀ i f, look i = some f → f.anchor = i := by
    intro i f h
    obtain ⟨_, _, hr⟩ := hlook i f h
    exact hr.anchor
  refine ⟨List.pairwise_filterMap.mpr ?_, ?_⟩
  · refine List.Pairwise.imp ?_ List.pairwise_lt_range'
    intro i j hlt f hf g hg
    rw [hanchor _ f hf, hanchor _ g hg]
    exact hlt
  · intro f hf
    obtain ⟨i, hi, hf⟩ := List.mem_filterMap.mp hf
    obtain ⟨hstart, hstop⟩ := List.mem_range'_1.mp hi
    obtain ⟨_, _, hr⟩ := hlook i f hf
    rw [hanchor i f hf]
    exact ⟨hr.start_lt hp (List.mem_filter.mp hs).1 hstart, by omega⟩

theorem holds_arrayPass (hp : p.WellFormed) : p.Holds (arrayPass p) :=
  holds_passOver hp _ fun _ _ h => ⟨_, _, reports_localArray h⟩

theorem holds_referencePass (hp : p.WellFormed) (temporaries : List String) :
    p.Holds (referencePass p temporaries) :=
  holds_passOver hp _ fun _ _ h => ⟨_, reports_reference h⟩

theorem holds_cStringPass (hp : p.WellFormed) (temporaries : List String) :
    p.Holds (cStringPass p temporaries) :=
  holds_passOver hp _ fun _ _ h => ⟨_, _, reports_cString h⟩

end Return

end StackEscape
