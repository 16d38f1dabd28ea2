import StackEscape.Proofs.Analyzer.Exits
import StackEscape.Proofs.Escape.Operands

/-!
# What a reported deallocation is about

A reported deallocation names a local array, and the array is not indexed right behind its name.
That does not make it the operand: where the operand of `delete` goes on to a member of the array,
or behind parentheses to an element, the statement is reported like one that deallocates the array.
-/

namespace StackEscape

variable {p : Program} {b : Bool} {file source : String}

/-- A reported deallocation is one that the rule applies to. -/
theorem Check.exists_takes_of_mem (hp : p.WellFormed) {x : Finding}
    (hx : x ∈ autoVariables.findings p b) (hrule : x.rule = .autovarInvalidDeallocation) :
    ∃ t, Assignment.Takes p t x.anchor ∧ p.automaticArrayAt x.anchor = true := by
  obtain ⟨t, h, hh, hmem⟩ := exists_hit_of_rule hx (by rw [hrule]; decide)
  have hcases := Assignment.rule_of_hit? hh hmem
  simp only [hrule, reduceCtorEq, false_and, true_and, false_or] at hcases
  exact ⟨t, Assignment.exists_takes_of_mem hp hcases hmem⟩

namespace Analyzer

/-- **What a reported deallocation is about.** With any settings, a finding about a deallocation
names a local array that no `[` follows, and behind the array and the parentheses that close what
was opened in front of it, the operand goes on to an element or a member only in the shapes that
`ReachesInto` lists. If nothing is suppressed, each statement outside of square brackets that
deallocates in one of these shapes is reported once. -/
theorem deallocated_operands (h : Program.ofSource file source = .ok p) (settings : Settings) :
    ∃ fs : List Finding,
      (standard settings).analyzeSource file source = .ok (fs.map (Finding.toDiagnostic p)) ∧
      (∀ x ∈ fs, x.rule = .autovarInvalidDeallocation →
        p.automaticArrayAt x.anchor = true ∧ p.listing.text (x.anchor + 1) ≠ "[" ∧
          ∃ t n, p.Frees t x.anchor ∧ p.Behind t x.anchor n ∧
            (p.listing.text n = "[" ∨ p.listing.text n = "." ↔ p.ReachesInto t x.anchor)) ∧
      ∀ s ∈ p.symbols.functionScopes, ∀ t a, s.start ≤ t → t < s.stop → ¬ p.InSquare t →
        p.BeginsStatement t → p.Deallocates t a → p.ReachesInto t a →
          settings.suppressed = [] →
            (fs.map (Finding.toDiagnostic p)).countP
              (Diagnostic.isAt .autovarInvalidDeallocation (p.listing.location a)) = 1 := by
  have hp := Program.wellFormed_ofSource h
  refine ⟨_, analyzeSource_standard h settings, fun x hx hrule => ?_,
    fun s hs t a hstart hstop hsquare hbegins hd _ hnone => ?_⟩
  · obtain ⟨t, htakes, harray⟩ := Check.exists_takes_of_mem hp (List.mem_filter.mp hx).1 hrule
    obtain ⟨n, hn⟩ := htakes.exists_behind hp
    exact ⟨harray, htakes.whole, t, n, htakes.frees, hn, htakes.reaches_iff hp hn⟩
  · obtain ⟨b, _⟩ := settings
    obtain rfl := hnone
    have hopens := hd.opens hp hbegins
    exact countP_of_hit hp hs hstart hstop
      (fun j hit hhit => Assignment.lt_of_hit? hp hopens hsquare hhit)
      (Assignment.hit?_of_deallocates hp hd b) rfl

/-- An array that is freed, and an element of one that is deleted. -/
def freesBoth : String := "void f(){char*a[4];char b[2];free(b);delete(a)[1];}"

theorem deallocated_operands_both :
    ∃ p, Program.ofSource "a.cpp" freesBoth = .ok p ∧
      ∃ fs : List Finding, fs.length = 2 ∧
        (standard ⟨false, []⟩).analyzeSource "a.cpp" freesBoth =
          .ok (fs.map (Finding.toDiagnostic p)) ∧
        (∀ x ∈ fs, x.rule = .autovarInvalidDeallocation →
          p.automaticArrayAt x.anchor = true ∧ p.listing.text (x.anchor + 1) ≠ "[" ∧
            ∃ t n, p.Frees t x.anchor ∧ p.Behind t x.anchor n ∧
              (p.listing.text n = "[" ∨ p.listing.text n = "." ↔ p.ReachesInto t x.anchor)) ∧
        p.Deallocates 23 25 ∧ p.ReachesInto 23 25 ∧
        (fs.map (Finding.toDiagnostic p)).countP
          (Diagnostic.isAt .autovarInvalidDeallocation (p.listing.location 25)) = 1 := by
  obtain ⟨p, hp, hlength, ⟨s, hs, hstart, hstop⟩, hsquare, hbegins, harray, hopen, hwhole,
      hreaches⟩ :
      ∃ p, Program.ofSource "a.cpp" freesBoth = .ok p ∧
        ((standard ⟨false, []⟩).analyzeProgram p).length = 2 ∧
        (∃ s ∈ p.symbols.functionScopes, s.start ≤ 23 ∧ 23 < s.stop) ∧ ¬ p.InSquare 23 ∧
        p.BeginsStatement 23 ∧ p.automaticArrayAt 25 = true ∧ p.listing.text 24 = "(" ∧
        p.listing.text 26 ≠ "[" ∧ p.ReachesInto 23 25 :=
    Program.exists_of_any (by decide +kernel)
  obtain ⟨fs, hfs, hfound, hcount⟩ := deallocated_operands hp ⟨false, []⟩
  have hdiagnostics := Except.ok.inj ((analyzeSource_of_ok hp _).symm.trans hfs)
  have hdeallocates : p.Deallocates 23 25 :=
    .delete hreaches.1 (.inl rfl) (.inr ⟨hopen, rfl⟩) harray hwhole
  refine ⟨p, hp, fs, ?_, hfs, hfound, hdeallocates, hreaches,
    hcount s hs 23 25 hstart hstop hsquare hbegins hdeallocates hreaches rfl⟩
  rw [← hlength, hdiagnostics, List.length_map]

/-- An element of an array of pointers is reported, unlike the one in `delete a[1];`. -/
theorem deallocatedElement_reported :
    ∃ p x t n, Program.ofSource "test.cpp" "void f(){char*a[4];delete(a)[1];}" = .ok p ∧
      (standard ⟨false, []⟩).analyzeSource "test.cpp" "void f(){char*a[4];delete(a)[1];}" =
        .ok [Finding.toDiagnostic p x] ∧
      x.rule = .autovarInvalidDeallocation ∧ p.Frees t x.anchor ∧ p.Behind t x.anchor n ∧
      p.listing.text n = "[" := by
  obtain ⟨p, hp, hfindings, hfrees, hbehind, hindex⟩ :
      ∃ p, Program.ofSource "test.cpp" "void f(){char*a[4];delete(a)[1];}" = .ok p ∧
        findings ⟨false, []⟩ p =
          [.definite 14 .autovarInvalidDeallocation Message.deallocation] ∧
        p.Frees 12 14 ∧ p.Behind 12 14 16 ∧ p.listing.text 16 = "[" :=
    Program.exists_of_any (by decide +kernel)
  refine ⟨p, .definite 14 .autovarInvalidDeallocation Message.deallocation, 12, 16, hp, ?_, rfl,
    hfrees, hbehind, hindex⟩
  rw [analyzeSource_standard hp, hfindings]
  rfl

end Analyzer

end StackEscape
