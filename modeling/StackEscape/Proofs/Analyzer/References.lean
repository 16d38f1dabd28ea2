import StackEscape.Proofs.Analyzer.Exits

/-!
# Locals returned by reference

A function that returns a reference and names a local in a `return` is reported there once, exactly
if the storage of the local ends with the function. If the local is constructed from an argument,
the argument has to be such a local as well, and one of four tokens has to stand behind it. A member
access is one of the four, although what is constructed then depends on the member.
-/

namespace StackEscape

variable {p : Program} {t i : Nat} {b : Bool} {file source : String}

namespace Program

/-- What stands at `t` is `return NAME ;`, in the body of a function that returns a reference. -/
structure ReturnsByReference (p : Program) (t : Nat) : Prop where
  within : ∃ s ∈ p.symbols.functionScopes, s.start ≤ t ∧ t < s.stop ∧
    (p.symbols.functionOf? s).any (·.returns.returnsReference) = true
  returns : p.listing.text t = "return"
  names : p.listing.isName (t + 1) = true
  ends : p.listing.text (t + 2) = ";"

instance (p : Program) (t : Nat) : Decidable (p.ReturnsByReference t) :=
  decidable_of_iff ((∃ s ∈ p.symbols.functionScopes, s.start ≤ t ∧ t < s.stop ∧
      (p.symbols.functionOf? s).any (·.returns.returnsReference) = true) ∧
      p.listing.text t = "return" ∧ p.listing.isName (t + 1) = true ∧ p.listing.text (t + 2) = ";")
    ⟨fun ⟨h₁, h₂, h₃, h₄⟩ => ⟨h₁, h₂, h₃, h₄⟩, fun ⟨h₁, h₂, h₃, h₄⟩ => ⟨h₁, h₂, h₃, h₄⟩⟩

/-- The name at `i` stands for a local that is neither static nor a reference. If a parenthesis
opens behind the name in its declaration, `NAME ( x`, then `x` stands for such a local as well, and
the token behind `x` is one of `ends`. -/
def StandsForLocal (p : Program) (ends : List String) (i : Nat) : Prop :=
  ∃ v ∈ p.variableAt? i, v.isLocal = true ∧ v.isStatic = false ∧ v.isReference = false ∧
    (p.listing.text (v.nameToken + 1) = "(" →
      p.automaticAt (v.nameToken + 2) = true ∧ p.listing.text (v.nameToken + 3) ∈ ends)

instance (p : Program) (ends : List String) (i : Nat) : Decidable (p.StandsForLocal ends i) :=
  inferInstanceAs (Decidable (∃ v ∈ _, _))

end Program

namespace Return

/-- Whatever is bound is a name, as the pattern for the argument wants it. -/
theorem initializer_automatic (hp : p.WellFormed) :
    (initializerPattern.matchesAt p i && p.automaticAt i) = true ↔
      p.automaticAt i = true ∧ p.listing.text (i + 1) ∈ argumentEnds := by
  rw [Bool.and_eq_true, initializer_matches]
  constructor
  · rintro ⟨⟨_, hends⟩, hauto⟩
    exact ⟨hauto, hends⟩
  · rintro ⟨hauto, hends⟩
    exact ⟨⟨hp.isName_of_holds hauto, hends⟩, hauto⟩

theorem namesLocal_iff (hp : p.WellFormed) :
    namesLocal p i = true ↔ p.StandsForLocal argumentEnds i := by
  have hauto : p.automaticAt i =
      (p.variableAt? i).any fun v => v.isLocal && !v.isStatic && !v.isReference := rfl
  unfold namesLocal Program.StandsForLocal
  rw [hauto]
  cases hv : p.variableAt? i with
  | none => simp
  | some v =>
    by_cases hopen : p.listing.text (v.nameToken + 1) = "("
    · simp [Variable.constructorArgument?, hopen, initializer_automatic hp, and_assoc]
    · simp [Variable.constructorArgument?, hopen, and_assoc]

variable {temporaries : List String}

/-- The reference pass finds the locals that are returned by name. -/
theorem returnsByReference_of_mem (hp : p.WellFormed) {x : Finding}
    (hx : x ∈ referencePass p temporaries) (hrule : x.rule = .returnReference) :
    p.ReturnsByReference x.anchor ∧ p.StandsForLocal argumentEnds (x.anchor + 1) := by
  obtain ⟨s, hs, hwanted, i, hstart, hstop, hlook⟩ := mem_passOver hx
  unfold reference at hlook
  split at hlook
  · next hname =>
    obtain ⟨hlocal, he⟩ := Option.ite_none_right_eq_some.mp hlook
    obtain rfl := Option.some.inj he
    obtain ⟨hreturns, hnames, hends⟩ := name_matches.mp hname
    have hr : p.ReturnsByReference i := ⟨⟨s, hs, hstart, hstop, hwanted⟩, hreturns, hnames, hends⟩
    exact ⟨hr, (namesLocal_iff hp).mp hlocal⟩
  · obtain ⟨_, he⟩ := Option.ite_none_right_eq_some.mp hlook
    obtain rfl := Option.some.inj he
    cases hrule

theorem mem_referencePass (temporaries : List String) (hp : p.WellFormed)
    (hr : p.ReturnsByReference t) (hlocal : p.StandsForLocal argumentEnds (t + 1)) :
    .definite t .returnReference Message.returnReference ∈ referencePass p temporaries := by
  obtain ⟨s, hs, hstart, hstop, hwanted⟩ := hr.within
  refine mem_passOver_of_look hs hwanted hstart hstop ?_
  rw [reference, if_pos (name_matches.mpr ⟨hr.returns, hr.names, hr.ends⟩),
    if_pos ((namesLocal_iff hp).mpr hlocal)]

end Return

namespace Check

/-- Only the reference pass reports locals returned by reference. -/
theorem mem_referencePass_of_rule (hp : p.WellFormed) {x : Finding}
    (hx : x ∈ autoVariables.findings p b) (hrule : x.rule = .returnReference) :
    x ∈ Return.referencePass p (Return.stringFunctions p) := by
  rw [findings_eq] at hx
  rcases List.mem_append.mp hx with hx | hx
  · obtain ⟨_, _, hr⟩ := Assignment.reports_of_mem_pass hp hx
    have hmem := hr.rule
    rw [hrule] at hmem
    exact absurd hmem (by decide)
  rcases List.mem_append.mp hx with hx | hx
  · rcases List.mem_append.mp hx with hx | hx
    · obtain ⟨_, _, _, _, _, _, hlook⟩ := Return.mem_passOver hx
      have hmem := (Return.reports_localArray hlook).rule
      rw [hrule] at hmem
      exact absurd hmem (by decide)
    · exact hx
  · obtain ⟨_, _, _, _, _, _, hlook⟩ := Return.mem_passOver hx
    have hmem := (Return.reports_cString hlook).rule
    rw [hrule] at hmem
    exact absurd hmem (by decide)

end Check

namespace Analyzer

/-- **Locals returned by reference.** With nothing suppressed, a finding about a local returned by
reference stands at a `return NAME ;` of a function that returns a reference. Each such statement is
reported once if the name stands for a local that is neither static nor a reference, and that is
constructed, if at all, from another such local with `)`, `;`, `(` or `.` behind it. Otherwise the
statement is not reported. -/
theorem countP_returnsByReference (h : Program.ofSource file source = .ok p) (inconclusive : Bool) :
    ∃ fs : List Finding,
      (standard ⟨inconclusive, []⟩).analyzeSource file source =
        .ok (fs.map (Finding.toDiagnostic p)) ∧
      (∀ x ∈ fs, x.rule = .returnReference → p.ReturnsByReference x.anchor) ∧
      ∀ t, p.ReturnsByReference t →
        (fs.map (Finding.toDiagnostic p)).countP
          (Diagnostic.isAt .returnReference (p.listing.location t)) =
            if p.StandsForLocal [")", ";", "(", "."] (t + 1) then 1 else 0 := by
  have hp := Program.wellFormed_ofSource h
  refine ⟨_, analyzeSource_standard h _, fun x hx hrule => ?_, fun t hr => ?_⟩
  · have hfound := Check.mem_referencePass_of_rule hp (List.mem_filter.mp hx).1 hrule
    exact (Return.returnsByReference_of_mem hp hfound hrule).1
  · split
    · next hlocal =>
      have hmem := Return.mem_referencePass (Return.stringFunctions p) hp hr hlocal
      refine countP_of_mem hp (f := .definite t .returnReference Message.returnReference) ?_
      rw [Check.findings_eq]
      exact List.mem_append_right _ (List.mem_append_left _ (List.mem_append_right _ hmem))
    · next hlocal =>
      refine countP_eq_zero hp (Listing.lt_size_of_text hr.returns (by decide)) ?_
      rintro x hx hrule rfl
      have hfound := Check.mem_referencePass_of_rule hp hx hrule
      exact hlocal (Return.returnsByReference_of_mem hp hfound hrule).2

/-- Two locals, the second of which is constructed from a parameter. -/
def returnsConstructed : String :=
  "int&f(int a){int x;int v(x);int w(a);if(a)return v;return w;}"

theorem countP_returnsByReference_constructed :
    ∃ p, Program.ofSource "a.cpp" returnsConstructed = .ok p ∧
      ∃ fs : List Finding,
        (standard ⟨false, []⟩).analyzeSource "a.cpp" returnsConstructed =
          .ok (fs.map (Finding.toDiagnostic p)) ∧
        (∀ x ∈ fs, x.rule = .returnReference → p.ReturnsByReference x.anchor) ∧
        (fs.map (Finding.toDiagnostic p)).countP
          (Diagnostic.isAt .returnReference (p.listing.location 27)) = 1 ∧
        (fs.map (Finding.toDiagnostic p)).countP
          (Diagnostic.isAt .returnReference (p.listing.location 30)) = 0 := by
  obtain ⟨p, hp, hreturns, hlocal, hreturns', hlocal'⟩ :
      ∃ p, Program.ofSource "a.cpp" returnsConstructed = .ok p ∧
        p.ReturnsByReference 27 ∧ p.StandsForLocal [")", ";", "(", "."] 28 ∧
        p.ReturnsByReference 30 ∧ ¬ p.StandsForLocal [")", ";", "(", "."] 31 :=
    Program.exists_of_any (by decide +kernel)
  obtain ⟨fs, hfs, hfound, hcount⟩ := countP_returnsByReference hp false
  have hreported := hcount 27 hreturns
  have habstains := hcount 30 hreturns'
  rw [if_pos hlocal] at hreported
  rw [if_neg hlocal'] at habstains
  exact ⟨p, hp, fs, hfs, hfound, hreported, habstains⟩

/-- A local that is constructed from a member of another one is reported. -/
theorem constructedFromMember_reported :
    ∃ p, Program.ofSource "test.cpp" "int&f(){S x;int v(x.y);return v;}" = .ok p ∧
      p.ReturnsByReference 17 ∧ ¬ p.StandsForLocal [")", ";", "("] 18 ∧
      ∃ ds, (standard ⟨false, []⟩).analyzeSource "test.cpp" "int&f(){S x;int v(x.y);return v;}" =
          .ok ds ∧
        ds.countP (Diagnostic.isAt .returnReference (p.listing.location 17)) = 1 := by
  obtain ⟨p, hp, hreturns, hlocal, hreported⟩ :
      ∃ p, Program.ofSource "test.cpp" "int&f(){S x;int v(x.y);return v;}" = .ok p ∧
        p.ReturnsByReference 17 ∧ ¬ p.StandsForLocal [")", ";", "("] 18 ∧
        ((standard ⟨false, []⟩).analyzeProgram p).countP
          (Diagnostic.isAt .returnReference (p.listing.location 17)) = 1 :=
    Program.exists_of_any (by decide +kernel)
  exact ⟨p, hp, hreturns, hlocal, _, analyzeSource_of_ok hp _, hreported⟩

end Analyzer

end StackEscape
