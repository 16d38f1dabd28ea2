import StackEscape.Proofs.Analyzer.Exits
import StackEscape.Proofs.Program.History
import StackEscape.Proofs.Symbol.Register

/-!
# Returned addresses of parameters

A statement that returns the address of an argument is reported unless a `&` stands right in front
of the name of the argument. That is not the same as a reference: in `int && r` and `int & const r`
the mark is there and goes unnoticed.
-/

namespace StackEscape

variable {p : Program} {t i : Nat} {v : Variable} {b : Bool} {file source : String}

namespace Program

/-- What stands at `t` returns the address of the argument `v`: `return & v ;`. -/
structure ReturnsArgument (p : Program) (t : Nat) (v : Variable) : Prop where
  returns : p.listing.text t = "return"
  takes : p.listing.text (t + 1) = "&"
  names : p.variableAt? (t + 2) = some v
  argument : v.role = .argument
  ends : p.listing.text (t + 3) = ";"

instance (p : Program) (t : Nat) (v : Variable) : Decidable (p.ReturnsArgument t v) :=
  decidable_of_iff (p.listing.text t = "return" ∧ p.listing.text (t + 1) = "&" ∧
      p.variableAt? (t + 2) = some v ∧ v.role = .argument ∧ p.listing.text (t + 3) = ";")
    ⟨fun ⟨h₁, h₂, h₃, h₄, h₅⟩ => ⟨h₁, h₂, h₃, h₄, h₅⟩,
      fun ⟨h₁, h₂, h₃, h₄, h₅⟩ => ⟨h₁, h₂, h₃, h₄, h₅⟩⟩

/-- A `&` right in front of a declared name makes a reference. -/
theorem isReference_of_text (h : ofSource file source = .ok p) {id : VariableId}
    (hv : p.symbols.getVariable? id = some v) (hmark : p.text v.typeEnd = "&") :
    v.isReference = true := by
  obtain ⟨_, hsymbols⟩ := listing_of_ofSource h
  obtain ⟨t, ht, hregistered⟩ := SymbolTable.registered_ofListing p.listing
  rw [hsymbols, ht] at hv
  obtain ⟨w, hw, rfl⟩ := SymbolTable.exists_of_resolveTypes hv
  rw [Variable.typeEnd, t.nameToken_typed] at hmark
  rw [t.isReference_typed]
  exact (hregistered.vars id w hw).reference hmark

end Program

namespace Assignment

/-- What the rule reports is the returned address of an argument without a `&` in front of its
name. -/
theorem exists_argument_of_mem {h : Hit} (hh : returnOfArgument p b i = some h) {f : Finding}
    (hf : f ∈ h.finding) :
    ∃ v, p.ReturnsArgument i v ∧ p.text v.typeEnd ≠ "&" ∧ f.anchor = i := by
  obtain ⟨hc, he⟩ := Option.ite_none_right_eq_some.mp hh
  obtain rfl := Option.some.inj he
  obtain ⟨hvalue, rfl⟩ := mem_findingIf.mp hf
  obtain ⟨hreturn, htakes, _, hends⟩ := returnAddress_matches.mp (Bool.and_eq_true_iff.mp hc).1
  obtain ⟨v, hv, hvalue⟩ := (Option.any_eq_true _ _).mp hvalue
  obtain ⟨hargument, hmark⟩ := Bool.and_eq_true_iff.mp hvalue
  exact ⟨v, ⟨hreturn, htakes, hv, of_decide_eq_true hargument, hends⟩, bne_iff_ne.mp hmark, rfl⟩

/-- A returned address of an argument is left to the rule that is meant for it. -/
theorem hit?_of_returnsArgument (hp : p.WellFormed) (hr : p.ReturnsArgument t v) (b : Bool) :
    hit? p b t = some ⟨0, findingIf (p.text v.typeEnd != "&")
      (.definite t .returnAddressOfFunctionParameter
        (Message.returnParameterAddress (p.text (t + 2))))⟩ := by
  obtain ⟨h₁, h₂, h₃, h₄, h₅, h₆⟩ :=
    unmatched_of_not_boundary b (show ¬ IsBoundary (p.listing.text t) by rw [hr.returns]; decide)
  obtain ⟨id, hid, _⟩ := Option.bind_eq_some_iff.mp hr.names
  have hname := hp.isName_of_bound hid
  have hmatch : returnAddressPattern.matchesAt p t = true :=
    returnAddress_matches.mpr ⟨hr.returns, hr.takes, hname, hr.ends⟩
  have h₇ : returnOfLocal p b t = none := by
    refine if_neg fun hc => ?_
    rcases Bool.or_eq_true_iff.mp hc with hc | hc
    · have hauto : p.automaticAt (t + 2) = false := by
        change (p.variableAt? (t + 2)).any _ = false
        simp [hr.names, Variable.isLocal, hr.argument]
      rw [hauto, Bool.and_false] at hc
      cases hc
    · obtain ⟨helement, _⟩ := Bool.and_eq_true_iff.mp (Bool.and_eq_true_iff.mp hc).1
      have hopen := (returnElement_matches.mp helement).2.2.2
      rw [hr.ends] at hopen
      exact absurd hopen (by decide)
  have hvalue : (p.variableAt? (t + 2)).any (isValueArgument p) = (p.text v.typeEnd != "&") := by
    simp [hr.names, isValueArgument, Variable.isArgument, hr.argument]
  have h₈ : returnOfArgument p b t = some ⟨0, findingIf (p.text v.typeEnd != "&")
      (.definite t .returnAddressOfFunctionParameter
        (Message.returnParameterAddress (p.text (t + 2))))⟩ := by
    unfold returnOfArgument
    rw [if_pos (Bool.and_eq_true_iff.mpr ⟨hmatch, by rw [hid]; rfl⟩), hvalue]
  simp only [hit?, matchers, List.findSome?_cons, h₁, h₂, h₃, h₄, h₅, h₆, h₇, h₈]

end Assignment

/-- A finding about a parameter stands at a statement that returns its address. -/
theorem Check.exists_argument_of_mem {f : Finding} (hf : f ∈ autoVariables.findings p b)
    (hrule : f.rule = .returnAddressOfFunctionParameter) :
    ∃ v, p.ReturnsArgument f.anchor v ∧ p.text v.typeEnd ≠ "&" := by
  obtain ⟨i, h, hh, hmem⟩ := exists_hit_of_rule hf (by rw [hrule]; decide)
  have hcases := Assignment.rule_of_hit? hh hmem
  simp only [hrule, reduceCtorEq, false_and, true_and, or_false, false_or] at hcases
  obtain ⟨v, hr, hmark, rfl⟩ := Assignment.exists_argument_of_mem hcases hmem
  exact ⟨v, hr, hmark⟩

namespace Analyzer

/-- Where a `&` stands in front of the name of the argument, no finding is about it. -/
theorem countP_argument_eq_zero (hp : p.WellFormed) (hr : p.ReturnsArgument t v)
    (hmark : p.text v.typeEnd = "&") :
    ((findings ⟨b, []⟩ p).map (Finding.toDiagnostic p)).countP
      (Diagnostic.isAt .returnAddressOfFunctionParameter (p.listing.location t)) = 0 := by
  refine countP_eq_zero hp (Listing.lt_size_of_text hr.returns (by decide)) fun x hx hrule ht => ?_
  obtain ⟨w, hw, hne⟩ := Check.exists_argument_of_mem hx hrule
  rw [ht] at hw
  obtain rfl := Option.some.inj (hw.names.symm.trans hr.names)
  exact hne hmark

/-- **Returned addresses of parameters** are reported by the token in front of the name. With any
settings, a finding about a parameter stands at a statement that returns the address of an argument
without a `&` in front of its name. If nothing is suppressed, each such statement outside of square
brackets is reported once, and none about an argument with a `&` there, which is a reference. -/
theorem countP_returnsArgument (h : Program.ofSource file source = .ok p) (settings : Settings) :
    ∃ fs : List Finding,
      (standard settings).analyzeSource file source = .ok (fs.map (Finding.toDiagnostic p)) ∧
      (∀ x ∈ fs, x.rule = .returnAddressOfFunctionParameter →
        ∃ v, p.ReturnsArgument x.anchor v ∧ p.text v.typeEnd ≠ "&") ∧
      ∀ s ∈ p.symbols.functionScopes, ∀ t v, s.start ≤ t → t < s.stop → ¬ p.InSquare t →
        p.BeginsStatement t → p.ReturnsArgument t v →
          (p.text v.typeEnd = "&" → v.isReference = true) ∧
            (settings.suppressed = [] →
              (fs.map (Finding.toDiagnostic p)).countP
                (Diagnostic.isAt .returnAddressOfFunctionParameter (p.listing.location t)) =
                  if p.text v.typeEnd = "&" then 0 else 1) := by
  have hp := Program.wellFormed_ofSource h
  refine ⟨_, analyzeSource_standard h settings, fun x hx hrule => ?_,
    fun s hs t v hstart hstop hsquare hbegins hr => ⟨fun hmark => ?_, fun hnone => ?_⟩⟩
  · exact Check.exists_argument_of_mem (List.mem_filter.mp hx).1 hrule
  · obtain ⟨id, _, hv⟩ := Option.bind_eq_some_iff.mp hr.names
    exact Program.isReference_of_text h hv hmark
  · obtain ⟨b, _⟩ := settings
    obtain rfl := hnone
    by_cases hmark : p.text v.typeEnd = "&"
    · rw [if_pos hmark]
      exact countP_argument_eq_zero hp hr hmark
    · rw [if_neg hmark]
      have hopens := Assignment.Opens.of_return hr.returns hr.takes hbegins
      exact countP_of_hit hp hs hstart hstop
        (fun j hit hhit => Assignment.lt_of_hit? hp hopens hsquare hhit)
        (Assignment.hit?_of_returnsArgument hp hr b)
        (Assignment.mem_findingIf.mpr ⟨bne_iff_ne.mpr hmark, rfl⟩)

/-- The address of an argument that is passed by value, and one of a reference. -/
def returnsBoth : String := "int*f(int x,int&r,int c){if(c)return&x;return&r;}"

theorem countP_returnsArgument_both :
    ∃ p, Program.ofSource "a.cpp" returnsBoth = .ok p ∧
      ∃ fs : List Finding,
        (standard ⟨false, []⟩).analyzeSource "a.cpp" returnsBoth =
          .ok (fs.map (Finding.toDiagnostic p)) ∧
        (∀ x ∈ fs, x.rule = .returnAddressOfFunctionParameter →
          ∃ v, p.ReturnsArgument x.anchor v ∧ p.text v.typeEnd ≠ "&") ∧
        (fs.map (Finding.toDiagnostic p)).countP
          (Diagnostic.isAt .returnAddressOfFunctionParameter (p.listing.location 19)) = 1 ∧
        (fs.map (Finding.toDiagnostic p)).countP
          (Diagnostic.isAt .returnAddressOfFunctionParameter (p.listing.location 23)) = 0 := by
  obtain ⟨p, hp, ⟨s, hs, hstart, hstop⟩, ⟨v, _, hsquare, hbegins, hv, hmark⟩,
      w, _, hsquare', hbegins', hw, hmark'⟩ :
      ∃ p, Program.ofSource "a.cpp" returnsBoth = .ok p ∧
        (∃ s ∈ p.symbols.functionScopes, s.start ≤ 19 ∧ 23 < s.stop) ∧
        (∃ v ∈ p.symbols.vars, ¬ p.InSquare 19 ∧ p.BeginsStatement 19 ∧ p.ReturnsArgument 19 v ∧
          p.text v.typeEnd ≠ "&") ∧
        ∃ v ∈ p.symbols.vars, ¬ p.InSquare 23 ∧ p.BeginsStatement 23 ∧ p.ReturnsArgument 23 v ∧
          p.text v.typeEnd = "&" :=
    Program.exists_of_any (by decide +kernel)
  obtain ⟨fs, hfs, hfound, hcount⟩ := countP_returnsArgument hp ⟨false, []⟩
  have hvalue := (hcount s hs 19 v hstart (Nat.lt_trans (by decide) hstop) hsquare hbegins hv).2 rfl
  have hreference :=
    (hcount s hs 23 w (Nat.le_trans hstart (by decide)) hstop hsquare' hbegins' hw).2 rfl
  rw [if_neg hmark] at hvalue
  rw [if_pos hmark'] at hreference
  exact ⟨p, hp, fs, hfs, hfound, hvalue, hreference⟩

/-- The address of a parameter that is an rvalue reference is reported. -/
theorem rvalueReference_reported :
    ∃ p x v, Program.ofSource "test.cpp" "int*f(int&&r){return&r;}" = .ok p ∧
      (standard ⟨false, []⟩).analyzeSource "test.cpp" "int*f(int&&r){return&r;}" =
        .ok [Finding.toDiagnostic p x] ∧
      x.rule = .returnAddressOfFunctionParameter ∧ p.ReturnsArgument x.anchor v ∧
      v.isReference = true := by
  obtain ⟨p, hp, hfindings, v, _, hr, hreference⟩ :
      ∃ p, Program.ofSource "test.cpp" "int*f(int&&r){return&r;}" = .ok p ∧
        findings ⟨false, []⟩ p = [.definite 9 .returnAddressOfFunctionParameter
          (Message.returnParameterAddress "r")] ∧
        ∃ v ∈ p.symbols.vars, p.ReturnsArgument 9 v ∧ v.isReference = true :=
    Program.exists_of_any (by decide +kernel)
  refine ⟨p, .definite 9 .returnAddressOfFunctionParameter (Message.returnParameterAddress "r"), v,
    hp, ?_, rfl, hr, hreference⟩
  rw [analyzeSource_standard hp, hfindings]
  rfl

end Analyzer

end StackEscape
