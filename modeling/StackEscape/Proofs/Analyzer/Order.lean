import StackEscape.Proofs.Analyzer
import StackEscape.Proofs.Check

/-!
# The order of reports

The passes report one after the other, and each reports in the order of the source. Suppressing
rules changes neither, and as no token is reported twice, no place is.
-/

namespace StackEscape

variable {p : Program} {file source : String}

/-! ## Segments -/

/-- The findings that one pass contributes to a report. -/
structure Program.Segment (p : Program) (rules : List Rule) (fs : List Finding) : Prop where
  rules : ∀ f ∈ fs, f.rule ∈ rules
  increasing : fs.Pairwise fun f g => f.anchor < g.anchor
  located : fs.Pairwise fun f g =>
    (f.toDiagnostic p).location.position.Precedes (g.toDiagnostic p).location.position
  between : ∀ f ∈ fs, ∃ s ∈ p.symbols.functionScopes, SymbolTable.IsBody p.listing s ∧
    s.start < f.anchor ∧ f.anchor < s.stop

theorem Program.Holds.segment {rules : List Rule} {fs : List Finding} (h : p.Holds fs)
    (hp : p.WellFormed) (hrules : ∀ f ∈ fs, f.rule ∈ rules) : p.Segment rules fs := by
  refine ⟨hrules, h.increasing, ?_, ?_⟩
  · exact h.increasing.imp_of_mem fun _ hg hlt =>
      hp.listing.location_precedes hlt (h.lt_size hp hg)
  · intro f hf
    obtain ⟨s, hs, hf⟩ := h.between f hf
    exact ⟨s, hs, hp.bodies s hs, hf⟩

/-- What is left of a segment when some findings are dropped. -/
theorem Program.Segment.filter {rules : List Rule} {fs : List Finding} (h : p.Segment rules fs)
    (keep : Finding → Bool) : p.Segment rules (fs.filter keep) :=
  ⟨fun f hf => h.rules f (List.mem_filter.mp hf).1, h.increasing.filter keep,
    h.located.filter keep, fun f hf => h.between f (List.mem_filter.mp hf).1⟩

/-- All findings of a segment are counted by its own rules, and none by those of another one. -/
theorem Program.Segment.countP_own {rules : List Rule} {fs : List Finding}
    (h : p.Segment rules fs) : (fs.map Finding.rule).countP rules.contains = fs.length := by
  rw [List.countP_eq_length.mpr, List.length_map]
  intro r hr
  obtain ⟨f, hf, rfl⟩ := List.mem_map.mp hr
  exact List.contains_iff_mem.mpr (h.rules f hf)

theorem Program.Segment.countP_other {rules others : List Rule} {fs : List Finding}
    (h : p.Segment rules fs) (hapart : ∀ r ∈ rules, r ∉ others) :
    (fs.map Finding.rule).countP others.contains = 0 := by
  refine List.countP_eq_zero.mpr fun r hr hmem => ?_
  obtain ⟨f, hf, rfl⟩ := List.mem_map.mp hr
  exact hapart f.rule (h.rules f hf) (List.contains_iff_mem.mp hmem)

theorem Assignment.segment_pass (hp : p.WellFormed) (b : Bool) :
    p.Segment Assignment.rules (Assignment.pass p b) := by
  refine (holds_pass hp b).segment hp ?_
  intro f hf
  obtain ⟨_, _, hr⟩ := reports_of_mem_pass hp hf
  exact hr.rule

namespace Return

theorem segment_arrayPass (hp : p.WellFormed) :
    p.Segment [.returnLocalVariable] (arrayPass p) := by
  refine (holds_arrayPass hp).segment hp ?_
  intro f hf
  obtain ⟨_, _, _, _, _, _, hi⟩ := mem_passOver hf
  exact (reports_localArray hi).rule

theorem segment_referencePass (hp : p.WellFormed) (temporaries : List String) :
    p.Segment [.returnReference, .returnTempReference] (referencePass p temporaries) := by
  refine (holds_referencePass hp temporaries).segment hp ?_
  intro f hf
  obtain ⟨_, _, _, _, _, _, hi⟩ := mem_passOver hf
  obtain ⟨_, hr⟩ := reports_reference hi
  exact hr.rule

theorem segment_cStringPass (hp : p.WellFormed) (temporaries : List String) :
    p.Segment [.returnTempPointer] (cStringPass p temporaries) := by
  refine (holds_cStringPass hp temporaries).segment hp ?_
  intro f hf
  obtain ⟨_, _, _, _, _, _, hi⟩ := mem_passOver hf
  exact (reports_cString hi).rule

end Return

/-- **The order of reports is fixed.** A report consists of the findings of four passes, one pass
after the other. Each pass has rules of its own, reports in the order of the source, and stays
between the braces of functions. -/
theorem Analyzer.analyzeSource_segments (h : Program.ofSource file source = .ok p)
    (settings : Settings) :
    ∃ first second third fourth : List Finding,
      (standard settings).analyzeSource file source =
        .ok ((first ++ second ++ third ++ fourth).map (Finding.toDiagnostic p)) ∧
      p.Segment [.autoVariables, .returnAddressOfAutoVariable, .returnAddressOfFunctionParameter,
        .autovarInvalidDeallocation] first ∧
      p.Segment [.returnLocalVariable] second ∧
      p.Segment [.returnReference, .returnTempReference] third ∧
      p.Segment [.returnTempPointer] fourth := by
  have hp := Program.wellFormed_ofSource h
  refine ⟨_, _, _, _, ?_, (Assignment.segment_pass hp settings.inconclusive).filter settings.admits,
    (Return.segment_arrayPass hp).filter settings.admits,
    (Return.segment_referencePass hp (Return.stringFunctions p)).filter settings.admits,
    (Return.segment_cStringPass hp (Return.stringFunctions p)).filter settings.admits⟩
  simp only [analyzeSource_standard h, findings, Check.autoVariables, List.filter_append]

/-- How long the segments of a report are is told by the rules of its findings. -/
theorem Analyzer.lengths_of_segments {first second third fourth : List Finding}
    (h1 : p.Segment [.autoVariables, .returnAddressOfAutoVariable,
      .returnAddressOfFunctionParameter, .autovarInvalidDeallocation] first)
    (h2 : p.Segment [.returnLocalVariable] second)
    (h3 : p.Segment [.returnReference, .returnTempReference] third)
    (h4 : p.Segment [.returnTempPointer] fourth) :
    let rules := (first ++ second ++ third ++ fourth).map Finding.rule
    first.length = rules.countP [.autoVariables, .returnAddressOfAutoVariable,
      .returnAddressOfFunctionParameter, .autovarInvalidDeallocation].contains ∧
    second.length = rules.countP [.returnLocalVariable].contains ∧
    third.length = rules.countP [.returnReference, .returnTempReference].contains ∧
    fourth.length = rules.countP [.returnTempPointer].contains := by
  simp only [List.map_append, List.countP_append]
  refine ⟨?_, ?_, ?_, ?_⟩
  · rw [h1.countP_own, h2.countP_other (by decide), h3.countP_other (by decide),
      h4.countP_other (by decide)]
    rfl
  · rw [h1.countP_other (by decide), h2.countP_own, h3.countP_other (by decide),
      h4.countP_other (by decide), Nat.zero_add]
    rfl
  · rw [h1.countP_other (by decide), h2.countP_other (by decide), h3.countP_own,
      h4.countP_other (by decide), Nat.zero_add]
    rfl
  · rw [h1.countP_other (by decide), h2.countP_other (by decide), h3.countP_other (by decide),
      h4.countP_own, Nat.zero_add]

/-- Two functions, each with a finding of another pass. -/
def Analyzer.twoEscapes : String := "void f(int*&p){int v;p=&v;}char*g(){char b[2];return b;}"

theorem Analyzer.analyzeSource_segments_two :
    ∃ p, Program.ofSource "two.cpp" twoEscapes = .ok p ∧
      ∃ first second third fourth : List Finding,
        (standard ⟨false, []⟩).analyzeSource "two.cpp" twoEscapes =
          .ok ((first ++ second ++ third ++ fourth).map (Finding.toDiagnostic p)) ∧
        p.Segment [.autoVariables, .returnAddressOfAutoVariable,
          .returnAddressOfFunctionParameter, .autovarInvalidDeallocation] first ∧
        p.Segment [.returnLocalVariable] second ∧
        p.Segment [.returnReference, .returnTempReference] third ∧
        p.Segment [.returnTempPointer] fourth ∧
        first.length = 1 ∧ second.length = 1 ∧ third.length = 0 ∧ fourth.length = 0 := by
  obtain ⟨p, hp, hrules⟩ : ∃ p, Program.ofSource "two.cpp" twoEscapes = .ok p ∧
      ((standard ⟨false, []⟩).analyzeProgram p).map Diagnostic.rule =
        [.autoVariables, .returnLocalVariable] := Program.exists_of_any (by decide +kernel)
  obtain ⟨first, second, third, fourth, hreport, h1, h2, h3, h4⟩ :=
    analyzeSource_segments hp ⟨false, []⟩
  rw [Except.ok.inj ((analyzeSource_of_ok hp _).symm.trans hreport), List.map_map] at hrules
  have hlengths := lengths_of_segments h1 h2 h3 h4
  rw [show (first ++ second ++ third ++ fourth).map Finding.rule =
    [.autoVariables, .returnLocalVariable] from hrules] at hlengths
  exact ⟨p, hp, first, second, third, fourth, hreport, h1, h2, h3, h4, hlengths⟩

/-! ## One finding at a token -/

/-- **At most one finding at a place.** No two findings of a report have the same location. -/
theorem Analyzer.nodup_locations (h : Program.ofSource file source = .ok p) (settings : Settings) :
    ∃ ds, (standard settings).analyzeSource file source = .ok ds ∧
      (ds.map Diagnostic.location).Nodup := by
  have hp := Program.wellFormed_ofSource h
  refine ⟨_, analyzeSource_standard h settings, ?_⟩
  rw [List.map_map, List.nodup_iff_pairwise_ne, List.pairwise_map]
  refine List.Pairwise.filter _ ((Check.anchor_ne hp _).imp_of_mem fun hf hg hne heq => hne ?_)
  exact hp.listing.location_injective (Check.lt_size_of_mem hp hf) (Check.lt_size_of_mem hp hg) heq

theorem Analyzer.nodup_locations_two :
    ∃ ds, (standard ⟨false, []⟩).analyzeSource "two.cpp" twoEscapes = .ok ds ∧
      ds.length = 2 ∧ (ds.map Diagnostic.location).Nodup := by
  obtain ⟨p, hp, hlength⟩ : ∃ p, Program.ofSource "two.cpp" twoEscapes = .ok p ∧
      ((standard ⟨false, []⟩).analyzeProgram p).length = 2 :=
    Program.exists_of_any (by decide +kernel)
  obtain ⟨ds, hds, hnodup⟩ := nodup_locations hp ⟨false, []⟩
  obtain rfl := Except.ok.inj ((analyzeSource_of_ok hp _).symm.trans hds)
  exact ⟨_, hds, hlength, hnodup⟩

end StackEscape
