import StackEscape.Proofs.Analyzer
import StackEscape.Proofs.Escape.Blame

/-!
# Findings blame the function they are in

Every finding is anchored in the body of one function, and blames the locals and the arguments of
that function only.
-/

namespace StackEscape

variable {p : Program} {f : Function} {s : Scope} {x : Finding} {b : Bool}

/-- A finding that is anchored in the body of a function and blames only variables of that
function. -/
structure Program.BlamesOwn (p : Program) (x : Finding) (s : Scope) (f : Function) : Prop where
  keeps : p.Keeps s f
  within : s.start < x.anchor ∧ x.anchor < s.stop
  blames : x.Blames p f

/-- What the assignment pass finds in the body of a function blames the function. -/
theorem Assignment.blames_findings (hp : p.WellFormed) (hk : p.Keeps s f)
    (hx : x ∈ findings p b s.stop s.start) : p.BlamesOwn x s f := by
  have hwithin := (holds_findings hp hk.isFunction.mem b).between x hx
  obtain ⟨j, h, _, _, hh, hmem⟩ := exists_hit_of_mem hx
  exact ⟨hk, hwithin, blames_hit? hp hk hh hmem hwithin⟩

namespace Return

variable {wanted : ReturnCategory → Bool} {look : Nat → Option Finding}

/-- A pass over returns blames the functions that it looks at. -/
theorem blames_passOver (hp : p.WellFormed)
    (hkeeps : ∀ s ∈ p.symbols.functionScopes, ∃ f, p.Keeps s f)
    (hreports : ∀ i x, look i = some x → ∃ rules next, Reports p rules i next x)
    (hblames : ∀ s f i x, p.Keeps s f → look i = some x →
      s.start < x.anchor ∧ x.anchor < s.stop → x.Blames p f)
    (hx : x ∈ passOver p wanted look) : ∃ s f, p.BlamesOwn x s f := by
  obtain ⟨s, hs, _, i, hstart, hstop, hlook⟩ := mem_passOver hx
  obtain ⟨f, hk⟩ := hkeeps s hs
  obtain ⟨_, _, hr⟩ := hreports i x hlook
  have hwithin : s.start < x.anchor ∧ x.anchor < s.stop := by
    rw [hr.anchor]
    exact ⟨hr.start_lt hp hs hstart, hstop⟩
  exact ⟨s, f, hk, hwithin, hblames s f i x hk hlook hwithin⟩

theorem blames_findings (hp : p.WellFormed)
    (hkeeps : ∀ s ∈ p.symbols.functionScopes, ∃ f, p.Keeps s f) (hx : x ∈ findings p) :
    ∃ s f, p.BlamesOwn x s f := by
  rcases List.mem_append.mp hx with hx | hx
  · rcases List.mem_append.mp hx with hx | hx
    · exact blames_passOver hp hkeeps (fun _ _ h => ⟨_, _, reports_localArray h⟩)
        (fun _ _ _ _ hk h hwithin => blames_localArray hp hk h hwithin) hx
    · exact blames_passOver hp hkeeps (fun _ _ h => ⟨_, reports_reference h⟩)
        (fun _ _ _ _ hk h hwithin => blames_reference hp hk h hwithin) hx
  · exact blames_passOver hp hkeeps (fun _ _ h => ⟨_, _, reports_cString h⟩)
      (fun _ _ _ _ _ h _ => blames_cString h) hx

end Return

/-- Whatever the check finds blames the function it is in. -/
theorem Check.blames_findings (hp : p.WellFormed)
    (hkeeps : ∀ s ∈ p.symbols.functionScopes, ∃ f, p.Keeps s f)
    (hx : x ∈ autoVariables.findings p b) : ∃ s f, p.BlamesOwn x s f := by
  rw [findings_eq] at hx
  rcases List.mem_append.mp hx with hx | hx
  · obtain ⟨s, hs, hx⟩ := List.mem_flatMap.mp hx
    obtain ⟨f, hk⟩ := hkeeps s hs
    exact ⟨s, f, Assignment.blames_findings hp hk hx⟩
  · exact Return.blames_findings hp hkeeps hx

/-- **Findings blame the function they are in.** Each finding of a report is anchored in the body of
a function, and in whatever function body it is anchored, it is about locals and arguments of that
function. -/
theorem Analyzer.blames_of_mem {file source : String} (h : Program.ofSource file source = .ok p)
    (settings : Settings) :
    ∃ fs : List Finding,
      (standard settings).analyzeSource file source = .ok (fs.map (Finding.toDiagnostic p)) ∧
      ∀ x ∈ fs, (∃ s f, p.IsFunction s f ∧ s.start < x.anchor ∧ x.anchor < s.stop) ∧
        ∀ s f, p.IsFunction s f → s.start < x.anchor → x.anchor < s.stop → x.Blames p f := by
  have hp := Program.wellFormed_ofSource h
  refine ⟨_, analyzeSource_standard h settings, fun x hx => ?_⟩
  obtain ⟨s, f, hown⟩ := Check.blames_findings hp (fun s hs => Program.exists_keeps h hs)
    (List.mem_filter.mp hx).1
  refine ⟨⟨s, f, hown.keeps.isFunction, hown.within⟩, fun s' f' hf' hstart hstop => ?_⟩
  obtain rfl := hp.scope_unique hown.keeps.isFunction.mem hf'.mem
    ⟨Nat.le_of_lt hown.within.1, Nat.le_of_lt hown.within.2⟩
    ⟨Nat.le_of_lt hstart, Nat.le_of_lt hstop⟩
  obtain rfl := Option.some.inj (hown.keeps.isFunction.function.symm.trans hf'.function)
  exact hown.blames

/-- Two functions with locals of one name, one of which a finding is about. -/
def Analyzer.sharedName : String := "int&g(){int v;return v;}void f(int*&p){int v;p=&v;}"

theorem Analyzer.blames_of_mem_shared :
    ∃ p, Program.ofSource "a.cpp" sharedName = .ok p ∧
      ∃ fs : List Finding, fs.length = 2 ∧
        (standard ⟨false, []⟩).analyzeSource "a.cpp" sharedName =
          .ok (fs.map (Finding.toDiagnostic p)) ∧
        ∀ x ∈ fs, (∃ s f, p.IsFunction s f ∧ s.start < x.anchor ∧ x.anchor < s.stop) ∧
          ∀ s f, p.IsFunction s f → s.start < x.anchor → x.anchor < s.stop → x.Blames p f := by
  obtain ⟨p, hp, hlength⟩ : ∃ p, Program.ofSource "a.cpp" sharedName = .ok p ∧
      ((standard ⟨false, []⟩).analyzeProgram p).length = 2 :=
    Program.exists_of_any (by decide +kernel)
  obtain ⟨fs, hfs, hblames⟩ := blames_of_mem hp ⟨false, []⟩
  have hdiagnostics := Except.ok.inj ((analyzeSource_of_ok hp _).symm.trans hfs)
  refine ⟨p, hp, fs, ?_, hfs, hblames⟩
  rw [← hlength, hdiagnostics, List.length_map]

end StackEscape
