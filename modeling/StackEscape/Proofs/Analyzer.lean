import StackEscape.Analyzer

/-!
# What an analysis reports

A sink hands on what its filters keep, in the order in which it was reported. The standard analyzer
therefore reports the findings of its one check, without those of the suppressed rules.
-/

namespace StackEscape

namespace Sink

/-- Whether a finding reaches the log behind all filters. -/
def admits : Sink → Diagnostic → Bool
  | .log _, _ => true
  | .filter suppressed _ inner, d => !suppressed.contains d.rule && inner.admits d

/-- Reporting leaves the filters as they are. -/
@[simp] theorem admits_report (s : Sink) (d : Diagnostic) : (s.report d).admits = s.admits := by
  funext e
  induction s with
  | log entries => rfl
  | filter suppressed dropped inner ih =>
    unfold report
    split
    · rfl
    · rw [admits, admits, ih]

theorem entries_report (s : Sink) (d : Diagnostic) :
    (s.report d).entries = s.entries ++ [d].filter s.admits := by
  induction s with
  | log entries => rfl
  | filter suppressed dropped inner ih =>
    unfold report
    split
    · next h => simp only [entries, admits, List.filter, h, Bool.not_true, Bool.false_and,
        List.append_nil]
    · next h =>
      rw [Bool.not_eq_true] at h
      simp only [entries, ih, admits, List.filter, h, Bool.not_false, Bool.true_and]

/-- The log grows by what the filters keep. -/
theorem entries_reportAll (s : Sink) (ds : List Diagnostic) :
    (s.reportAll ds).entries = s.entries ++ ds.filter s.admits := by
  induction ds generalizing s with
  | nil => simp [reportAll]
  | cons d ds ih =>
    have hstep : s.reportAll (d :: ds) = (s.report d).reportAll ds := rfl
    rw [hstep, ih, admits_report, entries_report, List.append_assoc, ← List.filter_append]
    rfl

end Sink

def Settings.admits (settings : Settings) (f : Finding) : Bool :=
  !settings.suppressed.contains f.rule

namespace Analyzer

def findings (settings : Settings) (p : Program) : List Finding :=
  (Check.autoVariables.findings p settings.inconclusive).filter settings.admits

theorem analyzeProgram_standard (settings : Settings) (p : Program) :
    (standard settings).analyzeProgram p =
      (findings settings p).map (Finding.toDiagnostic p) := by
  simp only [analyzeProgram, standard, Registry.standard, Registry.run, Registry.findings,
    List.flatMap_singleton, Sink.suppressing, Sink.empty, Sink.entries_reportAll, Sink.entries,
    List.nil_append, List.filter_map, findings]
  congr 2
  funext f
  exact Bool.and_true _

theorem analyzeSource_of_ok {file source : String} {p : Program}
    (h : Program.ofSource file source = .ok p) (a : Analyzer) :
    a.analyzeSource file source = .ok (a.analyzeProgram p) := by
  rw [analyzeSource, h]

/-- What the standard analyzer reports for a source that parses. -/
theorem analyzeSource_standard {file source : String} {p : Program}
    (h : Program.ofSource file source = .ok p) (settings : Settings) :
    (standard settings).analyzeSource file source =
      .ok ((findings settings p).map (Finding.toDiagnostic p)) := by
  rw [analyzeSource_of_ok h, analyzeProgram_standard]

end Analyzer

end StackEscape
