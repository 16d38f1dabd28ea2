import StackEscape.Proofs.Analyzer.Escapes
import StackEscape.Proofs.Escape.Exits

/-!
# Returned addresses and deallocations are reported

A statement that returns the address of a local and one that deallocates a local array are reported
once, whatever stands before them. Unlike with stored addresses, no guard looks at the next
statement.
-/

namespace StackEscape

variable {p : Program} {file source : String}

def Diagnostic.isAt (rule : Rule) (place : Location) (d : Diagnostic) : Bool :=
  d.rule = rule && d.location = place

theorem Diagnostic.isAt_iff {rule : Rule} {place : Location} {d : Diagnostic} :
    d.isAt rule place = true ↔ d.rule = rule ∧ d.location = place := by
  simp [isAt]

namespace Analyzer

/-- What the check finds is reported once. -/
theorem countP_of_mem (hp : p.WellFormed) {b : Bool} {f : Finding}
    (hf : f ∈ Check.autoVariables.findings p b) :
    ((findings ⟨b, []⟩ p).map (Finding.toDiagnostic p)).countP
      (Diagnostic.isAt f.rule (p.listing.location f.anchor)) = 1 := by
  rw [findings_unsuppressed]
  refine Nat.le_antisymm (countP_place_le hp b _ fun d hd => (Diagnostic.isAt_iff.mp hd).2)
    (List.countP_pos_iff.mpr ⟨_, List.mem_map_of_mem hf, Diagnostic.isAt_iff.mpr ⟨rfl, rfl⟩⟩)

/-- What the check does not find is not reported. -/
theorem countP_eq_zero (hp : p.WellFormed) {b : Bool} {rule : Rule} {t : Nat}
    (ht : t < p.listing.size)
    (hnone : ∀ f ∈ Check.autoVariables.findings p b, f.rule = rule → f.anchor ≠ t) :
    ((findings ⟨b, []⟩ p).map (Finding.toDiagnostic p)).countP
      (Diagnostic.isAt rule (p.listing.location t)) = 0 := by
  rw [findings_unsuppressed, List.countP_eq_zero]
  intro d hd hat
  obtain ⟨f, hf, rfl⟩ := List.mem_map.mp hd
  obtain ⟨hrule, hplace⟩ := Diagnostic.isAt_iff.mp hat
  exact hnone f hf hrule (hp.listing.location_injective (Check.lt_size_of_mem hp hf) ht hplace)

/-- What the assignment pass finds at a token that it arrives at is reported once. -/
theorem countP_of_hit (hp : p.WellFormed) {s : Scope} (hs : s ∈ p.symbols.functionScopes) {t : Nat}
    (hstart : s.start ≤ t) (hstop : t < s.stop) {b : Bool}
    (hreached : ∀ j h, Assignment.hit? p b j = some h → j < t → j + h.advance < t)
    {h : Assignment.Hit} (hh : Assignment.hit? p b t = some h) {f : Finding} (hf : f ∈ h.finding) :
    ((findings ⟨b, []⟩ p).map (Finding.toDiagnostic p)).countP
      (Diagnostic.isAt f.rule (p.listing.location f.anchor)) = 1 := by
  refine countP_of_mem hp ?_
  rw [Check.findings_eq]
  refine List.mem_append_left _ (List.mem_flatMap.mpr ⟨s, hs, ?_⟩)
  exact Assignment.mem_findings_of_reached hstart hstop hreached hh hf

/-- **Returned addresses and deallocations are reported once**, wherever a statement may begin
outside of square brackets, and with either value of the flag. -/
theorem countP_exits (h : Program.ofSource file source = .ok p) {s : Scope}
    (hs : s ∈ p.symbols.functionScopes) {t : Nat} (hstart : s.start ≤ t) (hstop : t < s.stop)
    (hsquare : ¬ p.InSquare t) (hbegins : p.BeginsStatement t) (inconclusive : Bool) :
    ∃ ds, (standard ⟨inconclusive, []⟩).analyzeSource file source = .ok ds ∧
      (p.ReturnsAddress t →
        ds.countP (Diagnostic.isAt .returnAddressOfAutoVariable (p.listing.location t)) = 1) ∧
      ∀ name, p.Deallocates t name →
        ds.countP (Diagnostic.isAt .autovarInvalidDeallocation (p.listing.location name)) = 1 := by
  have hp := Program.wellFormed_ofSource h
  refine ⟨_, analyzeSource_standard h _, fun hreturns => ?_, fun name hdeallocates => ?_⟩
  · have hopens := hreturns.opens hbegins
    exact countP_of_hit hp hs hstart hstop
      (fun j hit hhit => Assignment.lt_of_hit? hp hopens hsquare hhit)
      (Assignment.hit?_of_returnsAddress hp hreturns inconclusive) rfl
  · have hopens := hdeallocates.opens hp hbegins
    exact countP_of_hit hp hs hstart hstop
      (fun j hit hhit => Assignment.lt_of_hit? hp hopens hsquare hhit)
      (Assignment.hit?_of_deallocates hp hdeallocates inconclusive) rfl

/-- The case of both in the branches of an `if`, with everything that may stand before the operand
of `delete`. -/
theorem countP_exits_branches :
    ∃ p ds, Program.ofSource "a.cpp"
        "int*f(int c){int v;int a[2];if(c)delete[](a);else return&v;}" = .ok p ∧
      ¬ p.InSquare 21 ∧ p.BeginsStatement 21 ∧ p.Deallocates 21 25 ∧
      ¬ p.InSquare 29 ∧ p.BeginsStatement 29 ∧ p.ReturnsAddress 29 ∧
      (standard ⟨false, []⟩).analyzeSource "a.cpp"
        "int*f(int c){int v;int a[2];if(c)delete[](a);else return&v;}" = .ok ds ∧
      ds.countP (Diagnostic.isAt .autovarInvalidDeallocation (p.listing.location 25)) = 1 ∧
      ds.countP (Diagnostic.isAt .returnAddressOfAutoVariable (p.listing.location 29)) = 1 := by
  obtain ⟨p, hp, ⟨s, hs, hstart, hstop⟩, ⟨hsquare, hbegins, hdelete, hopen, hclose, hparen, harray,
      hend⟩, hsquare', hbegins', hreturn, htakes, hlocal, hends⟩ :
      ∃ p, Program.ofSource "a.cpp"
          "int*f(int c){int v;int a[2];if(c)delete[](a);else return&v;}" = .ok p ∧
        (∃ s ∈ p.symbols.functionScopes, s.start ≤ 21 ∧ 29 < s.stop) ∧
        (¬ p.InSquare 21 ∧ p.BeginsStatement 21 ∧ p.listing.text 21 = "delete" ∧
          p.listing.text 22 = "[" ∧ p.listing.text 23 = "]" ∧ p.listing.text 24 = "(" ∧
          p.automaticArrayAt 25 = true ∧ p.listing.text 26 ≠ "[") ∧
        ¬ p.InSquare 29 ∧ p.BeginsStatement 29 ∧ p.listing.text 29 = "return" ∧
        p.listing.text 30 = "&" ∧ p.automaticAt 31 = true ∧ p.listing.text 32 = ";" :=
    Program.exists_of_any (by decide +kernel)
  have hdeallocates : p.Deallocates 21 25 :=
    .delete hdelete (.inr ⟨hopen, hclose, rfl⟩) (.inr ⟨hparen, rfl⟩) harray hend
  have hreturns : p.ReturnsAddress 29 := .object hreturn htakes hlocal hends
  obtain ⟨ds, hds, -, hcount⟩ :=
    countP_exits hp hs hstart (Nat.lt_trans (by decide) hstop) hsquare hbegins false
  obtain ⟨ds', hds', hcount', -⟩ :=
    countP_exits hp hs (Nat.le_trans hstart (by decide)) hstop hsquare' hbegins' false
  obtain rfl := Except.ok.inj (hds.symm.trans hds')
  exact ⟨p, ds, hp, hsquare, hbegins, hdeallocates, hsquare', hbegins', hreturns, hds,
    hcount 25 hdeallocates, hcount' hreturns⟩

end Analyzer

end StackEscape
