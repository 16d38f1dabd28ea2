import StackEscape.Proofs.Analyzer
import StackEscape.Proofs.Check
import StackEscape.Proofs.Escape.Lockstep

/-!
# What the flag for uncertain findings changes

Admitting uncertain findings adds some of one rule to a report and leaves the others as they are,
in the same order.
-/

namespace StackEscape

variable {p : Program} {b : Bool} {file source : String}

namespace Check

theorem isCertain_of_mem_returns {f : Finding} (hf : f ∈ Return.findings p) :
    f.isCertain = true := by
  obtain ⟨_, hr⟩ := Return.reports_of_mem hf
  exact decide_eq_true hr.sure

/-- Without the flag, the check finds what it finds with it and is certain of. -/
theorem findings_false (hp : p.WellFormed) :
    autoVariables.findings p false =
      (autoVariables.findings p true).filter Finding.isCertain := by
  rw [findings_eq, findings_eq, List.filter_append, ← Assignment.pass_false hp]
  congr 1
  exact (List.filter_eq_self.mpr fun _ => isCertain_of_mem_returns).symm

/-- Only one rule has findings that are uncertain. -/
theorem rule_of_uncertain (hp : p.WellFormed) {f : Finding}
    (hf : f ∈ autoVariables.findings p b) (hc : f.isCertain = false) : f.rule = .autoVariables := by
  rw [findings_eq] at hf
  rcases List.mem_append.mp hf with hf | hf
  · obtain ⟨_, _, hr⟩ := Assignment.reports_of_mem_pass hp hf
    cases hconf : f.confidence with
    | definite => rw [Finding.isCertain, hconf] at hc; cases hc
    | inconclusive => exact (hr.unsure hconf).2
  · rw [isCertain_of_mem_returns hf] at hc
    cases hc

end Check

namespace Analyzer

theorem isInconclusive_toDiagnostic (p : Program) (f : Finding) :
    (f.toDiagnostic p).isInconclusive = !f.isCertain := by
  cases h : f.confidence <;>
    simp [Diagnostic.isInconclusive, Finding.toDiagnostic, Finding.isCertain, h]

/-- The settings that let a finding through do not look at the flag. -/
theorem findings_false (hp : p.WellFormed) (suppressed : List Rule) :
    findings ⟨false, suppressed⟩ p = (findings ⟨true, suppressed⟩ p).filter Finding.isCertain := by
  unfold findings
  rw [Check.findings_false hp, List.filter_filter, List.filter_filter]
  congr 1
  funext f
  exact Bool.and_comm _ _

/-- **The flag only adds findings.** Without it no finding is inconclusive; with it the inconclusive
ones have the one rule, and the other ones are what is found without it. -/
theorem inconclusive_only_adds (h : Program.ofSource file source = .ok p)
    (suppressed : List Rule) :
    ∃ off on, (standard ⟨false, suppressed⟩).analyzeSource file source = .ok off ∧
      (standard ⟨true, suppressed⟩).analyzeSource file source = .ok on ∧
      (∀ d ∈ off, d.isInconclusive = false) ∧
      (∀ d ∈ on, d.isInconclusive = true → d.rule = .autoVariables) ∧
      on.filter (fun d => !d.isInconclusive) = off := by
  have hp := Program.wellFormed_ofSource h
  refine ⟨_, _, analyzeSource_standard h _, analyzeSource_standard h _, ?_, ?_, ?_⟩
  · intro d hd
    obtain ⟨f, hf, rfl⟩ := List.mem_map.mp hd
    rw [findings_false hp] at hf
    rw [isInconclusive_toDiagnostic, (List.mem_filter.mp hf).2]
    rfl
  · intro d hd hi
    obtain ⟨f, hf, rfl⟩ := List.mem_map.mp hd
    rw [isInconclusive_toDiagnostic, Bool.not_eq_true'] at hi
    exact Check.rule_of_uncertain hp (List.mem_filter.mp hf).1 hi
  · rw [List.filter_map, findings_false hp]
    congr 2
    funext f
    simp only [Function.comp_apply, isInconclusive_toDiagnostic, Bool.not_not]

/-- An uncertain escape before a certain one. -/
def mixedEscapes : String := "void f(S*q,int*&p){int v;q->x=&v;p=&v;}"

theorem inconclusive_only_adds_mixed :
    ∃ off on, (standard ⟨false, []⟩).analyzeSource "mixed.cpp" mixedEscapes = .ok off ∧
      (standard ⟨true, []⟩).analyzeSource "mixed.cpp" mixedEscapes = .ok on ∧
      (∀ d ∈ off, d.isInconclusive = false) ∧
      (∀ d ∈ on, d.isInconclusive = true → d.rule = .autoVariables) ∧
      on.filter (fun d => !d.isInconclusive) = off ∧ off.length = 1 ∧ on.length = 2 := by
  obtain ⟨p, hp, hlength, hlength'⟩ : ∃ p, Program.ofSource "mixed.cpp" mixedEscapes = .ok p ∧
      ((standard ⟨false, []⟩).analyzeProgram p).length = 1 ∧
      ((standard ⟨true, []⟩).analyzeProgram p).length = 2 :=
    Program.exists_of_any (by decide +kernel)
  obtain ⟨off, on, hoff, hon, hcertain, hrule, hfilter⟩ := inconclusive_only_adds hp []
  obtain rfl := Except.ok.inj ((analyzeSource_of_ok hp _).symm.trans hoff)
  obtain rfl := Except.ok.inj ((analyzeSource_of_ok hp _).symm.trans hon)
  exact ⟨_, _, hoff, hon, hcertain, hrule, hfilter, hlength, hlength'⟩

end Analyzer

end StackEscape
