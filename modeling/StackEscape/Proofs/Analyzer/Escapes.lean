import StackEscape.Proofs.Analyzer
import StackEscape.Proofs.Check
import StackEscape.Proofs.Escape.Stores

/-!
# Escapes by assignment are reported

A statement that stores the address of a local in an argument is reported once, whatever stands
before it and whatever the function does behind it, with one exception: the guard against member
accesses reads on into the next statement, and is taken in by a `.` there.
-/

namespace StackEscape

variable {p : Program} {b : Bool} {file source : String}

def Diagnostic.isEscapeAt (place : Location) (d : Diagnostic) : Bool :=
  d.rule = .autoVariables && d.confidence = .definite && d.location = place

namespace Check

/-- Findings about assigned parameters come from the assignment pass, which anchors them behind the
token that a rule applies at. -/
theorem exists_hit_of_mem (hp : p.WellFormed) {f : Finding} (hf : f ∈ autoVariables.findings p b)
    (hrule : f.rule = .autoVariables) :
    ∃ t h, Assignment.hit? p b t = some h ∧ f ∈ h.finding ∧ f.anchor = t + 1 := by
  obtain ⟨t, h, hh, hmem⟩ := exists_hit_of_rule hf (by rw [hrule]; decide)
  exact ⟨t, h, hh, hmem, ((Assignment.fits_hit? hp hh).reports f hmem).assigns hrule⟩

end Check

/-- What holds of no two elements holds of one at most. -/
theorem countP_le_one {α : Type} {l : List α} {q : α → Bool}
    (h : l.Pairwise fun x y => q x = true → q y = false) : l.countP q ≤ 1 := by
  induction l with
  | nil => exact Nat.zero_le 1
  | cons x l ih =>
    obtain ⟨hx, hl⟩ := List.pairwise_cons.mp h
    cases hq : q x with
    | false =>
      rw [List.countP_cons_of_neg (Bool.eq_false_iff.mp hq)]
      exact ih hl
    | true =>
      have hzero : l.countP q = 0 :=
        List.countP_eq_zero.mpr fun y hy => Bool.eq_false_iff.mp (hx y hy hq)
      have hone : (x :: l).countP q = 1 := by rw [List.countP_cons_of_pos hq, hzero]
      exact Nat.le_of_eq hone

namespace Analyzer

theorem findings_unsuppressed (p : Program) (b : Bool) :
    findings ⟨b, []⟩ p = Check.autoVariables.findings p b :=
  List.filter_eq_self.mpr fun _ _ => rfl

/-- No place has two findings. -/
theorem countP_place_le (hp : p.WellFormed) (b : Bool) (place : Location) {q : Diagnostic → Bool}
    (hq : ∀ d, q d = true → d.location = place) :
    ((Check.autoVariables.findings p b).map (Finding.toDiagnostic p)).countP q ≤ 1 := by
  refine countP_le_one (List.pairwise_map.mpr ((Check.anchor_ne hp b).imp_of_mem ?_))
  intro f g hf hg hne hplace
  refine Bool.eq_false_iff.mpr fun hplace' => hne ?_
  exact hp.listing.location_injective (Check.lt_size_of_mem hp hf) (Check.lt_size_of_mem hp hg)
    ((hq _ hplace).trans (hq _ hplace').symm)

/-- No place has two findings about assigned parameters. -/
theorem countP_isEscapeAt_le (hp : p.WellFormed) (b : Bool) (place : Location) :
    ((Check.autoVariables.findings p b).map (Finding.toDiagnostic p)).countP
      (Diagnostic.isEscapeAt place) ≤ 1 := by
  refine countP_place_le hp b place fun d hd => ?_
  simp only [Diagnostic.isEscapeAt, Bool.and_eq_true, decide_eq_true_eq] at hd
  exact hd.2

/-- **Stored addresses are reported once**, except where the guard mistakes the second token of the
next statement for a member access. -/
theorem countP_storesAddress (h : Program.ofSource file source = .ok p) {s : Scope}
    (hs : s ∈ p.symbols.functionScopes) {t v : Nat} (hstart : s.start ≤ t) (hstop : t < s.stop)
    (hboundary : IsBoundary (p.listing.text t)) (hsquare : ¬ p.InSquare t)
    (hstores : p.StoresAddress t v) (inconclusive : Bool) :
    ∃ ds, (standard ⟨inconclusive, []⟩).analyzeSource file source = .ok ds ∧
      ds.countP (Diagnostic.isEscapeAt (p.listing.location (t + 1))) =
        if p.listing.text (v + 3) = "." then 0 else 1 := by
  have hp := Program.wellFormed_ofSource h
  refine ⟨_, analyzeSource_standard h _, ?_⟩
  rw [findings_unsuppressed]
  obtain ⟨advance, hhit⟩ := Assignment.hit?_of_stores hp hboundary hstores inconclusive
  have hanchor : t + 1 < p.listing.size := by
    have := (hp.listing.pair_of_closing? (hp.bodies s hs).closes).1
    omega
  rw [hstores.wholeAddressAt_eq] at hhit
  split
  · next hdot =>
    refine List.countP_eq_zero.mpr ?_
    intro d hd hescape
    obtain ⟨f, hf, rfl⟩ := List.mem_map.mp hd
    simp only [Diagnostic.isEscapeAt, Bool.and_eq_true, decide_eq_true_eq] at hescape
    obtain ⟨⟨hrule, _⟩, hplace⟩ := hescape
    obtain ⟨t', hit, hhit', hmem, hf'⟩ := Check.exists_hit_of_mem hp hf hrule
    -- the finding would have to come from the rule that applies at `t`
    have he := hp.listing.location_injective (Check.lt_size_of_mem hp hf) hanchor hplace
    obtain rfl : t' = t := by omega
    rw [hhit, hdot] at hhit'
    obtain rfl := Option.some.inj hhit'
    cases hmem
  · next hdot =>
    refine Nat.le_antisymm (countP_isEscapeAt_le hp _ _) (List.countP_pos_iff.mpr ?_)
    have hmem : Assignment.certain t ∈ Check.autoVariables.findings p inconclusive := by
      rw [Check.findings_eq]
      refine List.mem_append_left _ (List.mem_flatMap.mpr ⟨s, hs, ?_⟩)
      refine Assignment.mem_findings hp hstart hstop hboundary hsquare hhit ?_
      exact Assignment.mem_findingIf.mpr ⟨bne_iff_ne.mpr hdot, rfl⟩
    refine ⟨_, List.mem_map_of_mem hmem, ?_⟩
    simp [Diagnostic.isEscapeAt, Finding.toDiagnostic, Assignment.certain, Finding.definite]

/-! ## Both cases -/

/-- What is computed of a program to tell that `ref = & v ;` stands behind the token `t`. -/
def StoresReference (t : Nat) (p : Program) : Prop :=
  (∃ s ∈ p.symbols.functionScopes, s.start ≤ t ∧ t < s.stop) ∧ IsBoundary (p.listing.text t) ∧
    ¬ p.InSquare t ∧ p.referenceArgumentAt (t + 1) = true ∧ p.listing.text (t + 2) = "=" ∧
    p.listing.text (t + 3) = "&" ∧ p.automaticAt (t + 4) = true ∧ p.listing.text (t + 5) = ";"

instance (t : Nat) : DecidablePred (StoresReference t) := fun p =>
  inferInstanceAs (Decidable ((∃ s ∈ p.symbols.functionScopes, _) ∧ _))

theorem countP_storesAddress_once :
    ∃ p ds, Program.ofSource "a.cpp" "void f(int*&p){int v;p=&v;}" = .ok p ∧
      IsBoundary (p.listing.text 11) ∧ ¬ p.InSquare 11 ∧ p.StoresAddress 11 15 ∧
      (standard ⟨false, []⟩).analyzeSource "a.cpp" "void f(int*&p){int v;p=&v;}" = .ok ds ∧
      ds.countP (Diagnostic.isEscapeAt (p.listing.location 12)) = 1 := by
  obtain ⟨p, hp, hstores, hnext⟩ :
      ∃ p, Program.ofSource "a.cpp" "void f(int*&p){int v;p=&v;}" = .ok p ∧
        StoresReference 11 p ∧ p.listing.text 18 = "" :=
    Program.exists_of_any (by decide +kernel)
  obtain ⟨⟨s, hs, hstart, hstop⟩, hb, hsquare, target, assigns, takes, value, ends⟩ := hstores
  have haddress : p.StoresAddress 11 15 := .reference target assigns takes value ends
  obtain ⟨ds, hds, hcount⟩ := countP_storesAddress hp hs hstart hstop hb hsquare haddress false
  refine ⟨p, ds, hp, hb, hsquare, haddress, hds, ?_⟩
  rw [hcount, if_neg]
  rw [hnext]
  decide

/-- The next statement is `q -> x = 1 ;`, and the address that is stored before goes unreported. -/
theorem storesAddress_unreported :
    ∃ p s, Program.ofSource "test.cpp" "void f(int*&p,S*q){int v;p=&v;q->x=1;}" = .ok p ∧
      s ∈ p.symbols.functionScopes ∧ s.start ≤ 15 ∧ 15 < s.stop ∧
      IsBoundary (p.listing.text 15) ∧ ¬ p.InSquare 15 ∧ p.StoresAddress 15 19 ∧
      (standard ⟨false, []⟩).analyzeSource "test.cpp" "void f(int*&p,S*q){int v;p=&v;q->x=1;}" =
        .ok [] := by
  obtain ⟨p, hp, hstores, hnone⟩ :
      ∃ p, Program.ofSource "test.cpp" "void f(int*&p,S*q){int v;p=&v;q->x=1;}" = .ok p ∧
        StoresReference 15 p ∧ (standard ⟨false, []⟩).analyzeProgram p = [] :=
    Program.exists_of_any (by decide +kernel)
  obtain ⟨⟨s, hs, hstart, hstop⟩, hb, hsquare, target, assigns, takes, value, ends⟩ := hstores
  refine ⟨p, s, hp, hs, hstart, hstop, hb, hsquare, .reference target assigns takes value ends, ?_⟩
  rw [analyzeSource_of_ok hp, hnone]

end Analyzer

end StackEscape
