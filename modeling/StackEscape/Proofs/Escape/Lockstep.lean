import StackEscape.Proofs.Escape.Places

/-!
# Two scans in lockstep

The flag that admits uncertain findings is read by two rules of the assignment pass only, and these
read it when they have already decided how far to go on. A scan with the flag and one without it
therefore visit the same tokens, and what the second one finds are the certain findings of the
first.
-/

namespace StackEscape

variable {p : Program} {i : Nat}

def Finding.isCertain (f : Finding) : Bool := f.confidence = .definite

namespace Assignment

/-- A hit without its finding, if that is uncertain. -/
def Hit.certainly (h : Hit) : Hit := ⟨h.advance, h.finding.filter Finding.isCertain⟩

/-- Without the flag, the rule makes of a token what it makes of it with the flag, without the
uncertain finding. -/
def Matcher.Lockstep (p : Program) (m : Matcher) : Prop :=
  ∀ i, m p false i = (m p true i).map Hit.certainly

/-- Without the flag, a hit has no uncertain finding to lose. -/
theorem Hit.Fits.certainly_eq {h : Hit} (hfits : h.Fits p false i) : h.certainly = h := by
  obtain ⟨advance, _ | f⟩ := h
  · rfl
  · cases hc : f.confidence with
    | definite => simp [certainly, Option.filter, Finding.isCertain, hc]
    | inconclusive => cases ((hfits.reports f rfl).unsure hc).1

/-- A rule that does not read the flag. -/
theorem Matcher.Lockstep.of_unread {m : Matcher} (hflag : ∀ i, m p false i = m p true i)
    (hfits : ∀ {i h}, m p false i = some h → h.Fits p false i) : m.Lockstep p := by
  intro i
  rw [← hflag]
  cases hm : m p false i with
  | none => rfl
  | some h => rw [Option.map_some, (hfits hm).certainly_eq]

theorem certainly_uncertain (advance : Nat) (condition : Bool) (i : Nat) :
    Hit.certainly ⟨advance, findingIf condition (uncertain i)⟩ = ⟨advance, none⟩ := by
  cases condition <;> rfl

/-- The flag decides whether something is found, but the rule has applied by then. -/
theorem lockstep_toMember (p : Program) : Matcher.Lockstep p toMember := by
  intro i
  unfold toMember
  split
  · rw [Option.map_some, certainly_uncertain]
    rfl
  · rfl

theorem lockstep_arrayToMember (p : Program) : Matcher.Lockstep p arrayToMember := by
  intro i
  unfold arrayToMember
  split
  · rw [Option.map_some, certainly_uncertain]
    rfl
  · rfl

theorem lockstep_of_mem (hp : p.WellFormed) {m : Matcher} (hm : m ∈ matchers) :
    m.Lockstep p := by
  simp only [matchers, List.mem_cons, List.not_mem_nil, or_false] at hm
  rcases hm with rfl | rfl | rfl | rfl | rfl | rfl | rfl | rfl | rfl
  · exact .of_unread (fun _ => rfl) (fits_toReference hp)
  · exact .of_unread (fun _ => rfl) (fits_throughPointer hp)
  · exact lockstep_toMember p
  · exact lockstep_arrayToMember p
  · exact .of_unread (fun _ => rfl) (fits_arrayThroughPointer hp)
  · exact .of_unread (fun _ => rfl) (fits_toElement hp)
  · exact .of_unread (fun _ => rfl) fits_returnOfLocal
  · exact .of_unread (fun _ => rfl) fits_returnOfArgument
  · exact .of_unread (fun _ => rfl) (fits_deallocation hp)

/-! ## The scan -/

/-- The same rule applies with and without the flag, and goes on at the same place. -/
theorem hit?_false (hp : p.WellFormed) (i : Nat) :
    hit? p false i = (hit? p true i).map Hit.certainly := by
  unfold hit?
  rw [List.map_findSome?]
  have hlockstep : ∀ m ∈ matchers, m.Lockstep p := fun _ => lockstep_of_mem hp
  generalize matchers = ms at hlockstep
  induction ms with
  | nil => rfl
  | cons m ms ih =>
    obtain ⟨hm, hms⟩ := List.forall_mem_cons.mp hlockstep
    rw [List.findSome?_cons, List.findSome?_cons, ih hms, hm i]
    rfl

/-- **The scans stay in lockstep.** -/
theorem findings_false (hp : p.WellFormed) (stop i : Nat) :
    findings p false stop i = (findings p true stop i).filter Finding.isCertain := by
  fun_induction findings p true stop i with
  | case1 i hi h hh ih =>
    have hfalse : hit? p false i = some h.certainly := by rw [hit?_false hp, hh, Option.map_some]
    rw [findings, if_pos hi, hfalse]
    change (h.finding.filter _).toList ++ findings p false stop (i + h.advance + 1) = _
    rw [ih, List.filter_append]
    cases h.finding with
    | none => rfl
    | some f => cases hf : f.isCertain <;> simp [Option.filter, hf]
  | case2 i hi hh ih =>
    have hfalse : hit? p false i = none := by rw [hit?_false hp, hh, Option.map_none]
    rw [findings, if_pos hi, hfalse]
    exact ih
  | case3 i hi =>
    rw [findings, if_neg hi]
    rfl

theorem pass_false (hp : p.WellFormed) :
    pass p false = (pass p true).filter Finding.isCertain := by
  unfold pass
  rw [List.filter_flatMap]
  congr 1
  funext s
  exact findings_false hp s.stop s.start

end Assignment

end StackEscape
