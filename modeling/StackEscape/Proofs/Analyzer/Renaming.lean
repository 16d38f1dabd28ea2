import StackEscape.Proofs.Analyzer
import StackEscape.Proofs.Renaming.Escape

/-!
# Renaming and layout do not change an analysis

Two sources whose tokens correspond under a renaming are both rejected, or have the same findings at
the same tokens. With the map that renames nothing, this says that blanks, comments and line breaks
never matter.
-/

namespace StackEscape

variable {ρ : String → String} {p p' : Program} {source source' : String} {ts ts' : List Token}

/-- Renamed sources are rejected together, or their programs are renamed. -/
theorem Program.cases_renamed (hscan : Lexeme.scan .start true source.toList = .ok ts)
    (hscan' : Lexeme.scan .start true source'.toList = .ok ts') (h : Renames ρ ts ts')
    (file file' : String) :
    (∃ fault fault', ofSource file source = .error fault ∧ ofSource file' source' = .error fault') ∨
      ∃ p p' σ, ofSource file source = .ok p ∧ ofSource file' source' = .ok p' ∧ p.Renamed σ p' ∧
        ∀ i, p.listing.isName i = true → σ (p.text i) = ρ (p.text i) := by
  unfold ofSource
  rcases Listing.cases_renamed hscan hscan' h file file' with
    ⟨fault, fault', he, he'⟩ | ⟨l, l', σ, hl, hl', hr, hagree⟩
  · exact .inl ⟨fault, fault', by rw [he]; rfl, by rw [he']; rfl⟩
  · refine .inr ⟨resolve l, resolve l', σ, by rw [hl]; rfl, by rw [hl']; rfl, ?_, hagree⟩
    exact ⟨hr, SymbolTable.renamed_ofListing hr (Listing.wellFormed_ofSource hl)⟩

namespace Analyzer

/-- Suppressing rules leaves the findings of renamed programs in correspondence. -/
theorem renamed_findings (h : p.Renamed ρ p') (settings : Settings) :
    List.Forall₂ (Finding.Renamed ρ p) (findings settings p) (findings settings p') := by
  refine List.rel_filter (fun x y hxy => ?_) (Check.renamed_findings h settings.inconclusive)
  simp only [Settings.admits, hxy.rule]

/-- **Renaming and layout do not change an analysis.** If the tokens of a source are those of
another one with the names renamed, both are rejected, or they have as many findings, of the same
rules, at the same tokens, with the same messages but for the name of a returned parameter. -/
theorem analyzeSource_renamed (hscan : Lexeme.scan .start true source.toList = .ok ts)
    (hscan' : Lexeme.scan .start true source'.toList = .ok ts') (h : Renames ρ ts ts')
    (file file' : String) (settings : Settings) :
    (∃ fault fault', (standard settings).analyzeSource file source = .error fault ∧
      (standard settings).analyzeSource file' source' = .error fault') ∨
    ∃ p p' : Program, Program.ofSource file source = .ok p ∧
      Program.ofSource file' source' = .ok p' ∧
      ∃ fs fs' : List Finding,
        (standard settings).analyzeSource file source = .ok (fs.map (Finding.toDiagnostic p)) ∧
        (standard settings).analyzeSource file' source' = .ok (fs'.map (Finding.toDiagnostic p')) ∧
        List.Forall₂ (fun x y => x.Renamed ρ p y ∧
          (y.toDiagnostic p').severity = (x.toDiagnostic p).severity) fs fs' := by
  rcases Program.cases_renamed hscan hscan' h file file' with
    ⟨fault, fault', he, he'⟩ | ⟨p, p', σ, hp, hp', hr, hagree⟩
  · refine .inl ⟨.source fault, .source fault', ?_, ?_⟩
    · rw [analyzeSource, he]
    · rw [analyzeSource, he']
  · refine .inr ⟨p, p', hp, hp', _, _, analyzeSource_standard hp settings,
      analyzeSource_standard hp' settings, (renamed_findings hr settings).imp fun x y hxy => ?_⟩
    exact ⟨hxy.congr hagree, rfl⟩

/-! ## Two layouts of one source -/

/-- A returned parameter and an array that is returned behind it. -/
def compactSource : String := "int*f(int p){return&p;}char*g(){char a[2];return a;}"

/-- The same with other names, another number and another layout. -/
def spaciousSource : String :=
  "int *first(int q) \x7b // of a parameter\n  return &q;\n\x7d\n" ++
    "char *g() \x7b char f[/* bytes */ 0x10]; return f; \x7d"

/-- What becomes of the names in the compact source. -/
def spaciousName (w : String) : String :=
  if w = "f" then "first" else if w = "p" then "q" else if w = "a" then "f" else w

theorem analyzeSource_renamed_spacious :
    ∃ ts ts', Lexeme.scan .start true compactSource.toList = .ok ts ∧
      Lexeme.scan .start true spaciousSource.toList = .ok ts' ∧ Renames spaciousName ts ts' ∧
      ∃ p p' : Program, Program.ofSource "a.cpp" compactSource = .ok p ∧
        Program.ofSource "b.cpp" spaciousSource = .ok p' ∧
        ∃ fs fs' : List Finding, fs.length = 2 ∧
          (standard ⟨false, []⟩).analyzeSource "a.cpp" compactSource =
            .ok (fs.map (Finding.toDiagnostic p)) ∧
          (standard ⟨false, []⟩).analyzeSource "b.cpp" spaciousSource =
            .ok (fs'.map (Finding.toDiagnostic p')) ∧
          List.Forall₂ (fun x y => x.Renamed spaciousName p y ∧
            (y.toDiagnostic p').severity = (x.toDiagnostic p).severity) fs fs' := by
  obtain ⟨ts, ts', hscan, hscan', hrenames⟩ : ∃ ts ts',
      Lexeme.scan .start true compactSource.toList = .ok ts ∧
        Lexeme.scan .start true spaciousSource.toList = .ok ts' ∧ Renames spaciousName ts ts' :=
    Renames.exists_of_any (by decide +kernel)
  obtain ⟨p, hp, hlength⟩ : ∃ p, Program.ofSource "a.cpp" compactSource = .ok p ∧
      ((standard ⟨false, []⟩).analyzeProgram p).length = 2 :=
    Program.exists_of_any (by decide +kernel)
  rcases analyzeSource_renamed hscan hscan' hrenames "a.cpp" "b.cpp" ⟨false, []⟩ with
    ⟨fault, _, he, _⟩ | ⟨q, p', hq, hp', fs, fs', hfs, hfs', hsame⟩
  · rw [analyzeSource_of_ok hp] at he
    cases he
  · obtain rfl := Except.ok.inj (hp.symm.trans hq)
    have hdiagnostics := Except.ok.inj ((analyzeSource_of_ok hp _).symm.trans hfs)
    refine ⟨ts, ts', hscan, hscan', hrenames, p, p', hp, hp', fs, fs', ?_, hfs, hfs', hsame⟩
    rw [← hlength, hdiagnostics, List.length_map]

end Analyzer

end StackEscape
