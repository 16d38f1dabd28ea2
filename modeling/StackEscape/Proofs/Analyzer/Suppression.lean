import StackEscape.Proofs.Analyzer.Order

/-!
# Suppressed rules

A filter drops the reports of its rules, counts them and hands on the others in order. No report is
lost on the way: each is dropped by one filter or reaches the log. The passes do not look at the
sink, so suppressing rules takes their findings out of a report and changes nothing else.
-/

namespace StackEscape

namespace Sink

variable {rules : List Rule} {n : Nat} {inner : Sink} {d : Diagnostic}

theorem report_of_mem (h : d.rule ∈ rules) :
    (filter rules n inner).report d = filter rules (n + 1) inner := by
  rw [report, if_pos (List.contains_iff_mem.mpr h)]

theorem report_of_not_mem (h : d.rule ∉ rules) :
    (filter rules n inner).report d = filter rules n (inner.report d) := by
  rw [report, if_neg fun hc => h (List.contains_iff_mem.mp hc)]

theorem reportAll_cons (s : Sink) (d : Diagnostic) (ds : List Diagnostic) :
    s.reportAll (d :: ds) = (s.report d).reportAll ds := rfl

theorem reportAll_log (entries ds : List Diagnostic) :
    (log entries).reportAll ds = log (entries ++ ds) := by
  induction ds generalizing entries with
  | nil => rw [List.append_nil]; rfl
  | cons d ds ih => rw [reportAll_cons, report, ih, List.append_assoc]; rfl

/-- What any number of reports do to a filter and to the sink behind it. -/
theorem reportAll_filter (rules : List Rule) (n : Nat) (inner : Sink) (ds : List Diagnostic) :
    (filter rules n inner).reportAll ds =
      filter rules (n + ds.countP (·.rule ∈ rules))
        (inner.reportAll (ds.filter (·.rule ∉ rules))) := by
  induction ds generalizing n inner with
  | nil => rfl
  | cons d ds ih =>
    by_cases h : d.rule ∈ rules
    · have hcount : (d :: ds).countP (·.rule ∈ rules) = ds.countP (·.rule ∈ rules) + 1 :=
        List.countP_cons_of_pos (decide_eq_true h)
      have hkept : (d :: ds).filter (·.rule ∉ rules) = ds.filter (·.rule ∉ rules) :=
        List.filter_cons_of_neg (by simpa using h)
      rw [reportAll_cons, report_of_mem h, ih, hcount, hkept, Nat.add_right_comm, Nat.add_assoc]
    · have hcount : (d :: ds).countP (·.rule ∈ rules) = ds.countP (·.rule ∈ rules) :=
        List.countP_cons_of_neg (by simpa using h)
      have hkept : (d :: ds).filter (·.rule ∉ rules) = d :: ds.filter (·.rule ∉ rules) :=
        List.filter_cons_of_pos (by simpa using h)
      rw [reportAll_cons, report_of_not_mem h, ih, hcount, hkept, reportAll_cons]

/-! ## No report is lost -/

/-- Number of findings that all filters together dropped. -/
def droppedInAll : Sink → Nat
  | .log _ => 0
  | .filter _ dropped inner => dropped + inner.droppedInAll

theorem accounted_report (s : Sink) (d : Diagnostic) :
    (s.report d).droppedInAll + (s.report d).entries.length =
      s.droppedInAll + s.entries.length + 1 := by
  induction s with
  | log es => simp only [report, droppedInAll, entries, List.length_append, List.length_singleton,
      Nat.zero_add]
  | filter rules n inner ih =>
    by_cases h : d.rule ∈ rules
    · simp only [report_of_mem h, droppedInAll, entries]
      omega
    · simp only [report_of_not_mem h, droppedInAll, entries]
      omega

/-- Behind any number of filters, each report is counted once or kept. -/
theorem accounted_reportAll (s : Sink) (ds : List Diagnostic) :
    (s.reportAll ds).droppedInAll + (s.reportAll ds).entries.length =
      s.droppedInAll + s.entries.length + ds.length := by
  induction ds generalizing s with
  | nil => rfl
  | cons d ds ih =>
    have hstep := accounted_report s d
    rw [reportAll_cons, ih, hstep, List.length_cons]
    omega

end Sink

theorem Settings.admits_iff {settings : Settings} {f : Finding} :
    settings.admits f = true ↔ f.rule ∉ settings.suppressed := by
  rw [Settings.admits, Bool.not_eq_true', ← Bool.not_eq_true, List.contains_iff_mem]

namespace Analyzer

/-- Whether a finding is let through is decided by its rule, which its final form keeps. -/
theorem findings_suppressing (settings : Settings) (p : Program) :
    (findings settings p).map (Finding.toDiagnostic p) =
      ((findings { settings with suppressed := [] } p).map (Finding.toDiagnostic p)).filter
        (·.rule ∉ settings.suppressed) := by
  have hall : findings { settings with suppressed := [] } p =
      Check.autoVariables.findings p settings.inconclusive :=
    List.filter_eq_self.mpr fun _ _ => rfl
  rw [hall, List.filter_map, findings]
  congr 2
  funext f
  exact Bool.eq_iff_iff.mpr (Settings.admits_iff.trans decide_eq_true_iff.symm)

/-- **Suppression is a filter.** With some rules suppressed, an analysis reports what it reports
without, less the findings of these rules. Behind two filters, the log grows by the reports whose
rule is in neither set; the outer filter counts those in its own set, the inner one those that are
left for it, and together with the growth of the log these are all of the reports. -/
theorem suppression_filters :
    (∀ {file source : String} {p : Program}, Program.ofSource file source = .ok p →
      ∀ settings : Settings, ∃ ds,
        (standard { settings with suppressed := [] }).analyzeSource file source = .ok ds ∧
        (standard settings).analyzeSource file source =
          .ok (ds.filter (·.rule ∉ settings.suppressed))) ∧
    ∀ (entries reports : List Diagnostic) (inner outer : List Rule),
      let s := (Sink.suppressing outer (.suppressing inner (.log entries))).reportAll reports
      s.entries = entries ++ reports.filter (fun d => d.rule ∉ outer ∧ d.rule ∉ inner) ∧
      s.dropped = reports.countP (·.rule ∈ outer) ∧
      s.inner.dropped = reports.countP (fun d => d.rule ∈ inner ∧ d.rule ∉ outer) ∧
      s.dropped + s.inner.dropped + (s.entries.length - entries.length) = reports.length := by
  constructor
  · intro file source p h settings
    refine ⟨_, analyzeSource_standard h _, ?_⟩
    rw [analyzeSource_standard h, findings_suppressing]
  · intro entries reports inner outer s
    have hs : s = .filter outer (0 + reports.countP (·.rule ∈ outer))
        (.filter inner (0 + (reports.filter (·.rule ∉ outer)).countP (·.rule ∈ inner))
          (.log (entries ++ (reports.filter (·.rule ∉ outer)).filter (·.rule ∉ inner)))) := by
      simp only [s, Sink.suppressing, Sink.reportAll_filter, Sink.reportAll_log]
    have hkept : s.entries =
        entries ++ reports.filter (fun d => d.rule ∉ outer ∧ d.rule ∉ inner) := by
      simp only [hs, Sink.entries, List.filter_filter, Bool.decide_and, Bool.and_comm]
    have hall := Sink.accounted_reportAll
      (Sink.suppressing outer (.suppressing inner (.log entries))) reports
    refine ⟨hkept, ?_, ?_, ?_⟩
    · simp only [hs, Sink.dropped, Nat.zero_add]
    · simp only [hs, Sink.inner, Sink.dropped, Nat.zero_add, List.countP_filter, Bool.decide_and]
    · change s.droppedInAll + s.entries.length = _ at hall
      rw [hkept] at hall ⊢
      rw [hs] at hall ⊢
      simp only [Sink.droppedInAll, Sink.suppressing, Sink.entries, Sink.dropped, Sink.inner,
        List.length_append] at hall ⊢
      omega

/-- Of two findings, the rule of one is suppressed. -/
theorem suppression_filters_two :
    ∃ ds, (standard ⟨false, []⟩).analyzeSource "two.cpp" twoEscapes = .ok ds ∧
      (standard ⟨false, [.returnLocalVariable]⟩).analyzeSource "two.cpp" twoEscapes =
        .ok (ds.filter (·.rule ∉ [Rule.returnLocalVariable])) ∧
      ds.map Diagnostic.rule = [.autoVariables, .returnLocalVariable] := by
  obtain ⟨p, hp, hrules⟩ : ∃ p, Program.ofSource "two.cpp" twoEscapes = .ok p ∧
      ((standard ⟨false, []⟩).analyzeProgram p).map Diagnostic.rule =
        [.autoVariables, .returnLocalVariable] :=
    Program.exists_of_any (by decide +kernel)
  obtain ⟨ds, hds, hfilter⟩ := suppression_filters.1 hp ⟨false, [.returnLocalVariable]⟩
  obtain rfl := Except.ok.inj ((analyzeSource_of_ok hp _).symm.trans hds)
  exact ⟨_, hds, hfilter, hrules⟩

end Analyzer

end StackEscape
