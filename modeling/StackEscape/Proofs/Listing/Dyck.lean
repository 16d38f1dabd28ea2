import StackEscape.Listing.Bracket

/-!
# Balanced brackets

A sequence of brackets is balanced if it is a word of the Dyck language of the three pairs. Such
words are told by reading them with a stack: `openAfter` holds the brackets that are still open, and
is lost at the first closing bracket that closes nothing. A sequence is balanced exactly if the
stack is empty in the end, and can be completed to a balanced one exactly if the stack is not lost.
-/

namespace StackEscape.Bracket

def isBracket (w : String) : Bool := isOpener w || isCloser w

/-- The words of the Dyck language of the three pairs of brackets. -/
inductive Dyck : List String → Prop
  | nil : Dyck []
  | pair {o c : String} {inside after : List String} : closerOf? o = some c → Dyck inside →
      Dyck after → Dyck (o :: (inside ++ c :: after))

/-- That a sequence of brackets is the beginning of a balanced one. -/
def Extends (ws : List String) : Prop := ∃ rest, Dyck (ws ++ rest)

/-! ## Pairs -/

section
variable {o c w : String}

theorem isOpener_of_closerOf? (h : closerOf? o = some c) : isOpener o = true := by
  rw [isOpener, h]
  rfl

theorem eq_of_closerOf? (h : closerOf? o = some c) : c = ")" ∨ c = "]" ∨ c = "\x7d" := by
  unfold closerOf? at h
  split at h
  · exact .inl (Option.some.inj h).symm
  split at h
  · exact .inr (.inl (Option.some.inj h).symm)
  split at h
  · exact .inr (.inr (Option.some.inj h).symm)
  · cases h

theorem isCloser_of_closerOf? (h : closerOf? o = some c) : isCloser c = true := by
  rcases eq_of_closerOf? h with rfl | rfl | rfl <;> decide

/-- What closes a pair opens none. -/
theorem isOpener_eq_false (h : isCloser w = true) : isOpener w = false := by
  simp only [isCloser, Bool.or_eq_true, decide_eq_true_eq] at h
  rcases h with (rfl | rfl) | rfl <;> decide

end

/-! ## Reading with a stack -/

/-- The brackets that are open behind a sequence of brackets, the innermost first, `opened` being
those before it; absent if one of its closing brackets does not close the innermost open one. -/
def openAfter (opened : List String) : List String → Option (List String)
  | [] => some opened
  | w :: ws =>
    if isOpener w then openAfter (w :: opened) ws
    else match opened with
      | o :: outer => if closerOf? o = some w then openAfter outer ws else none
      | [] => none

/-- The words that close the open brackets in turn, with balanced words between. -/
inductive Completes : List String → List String → Prop
  | done {ws : List String} : Dyck ws → Completes [] ws
  | close {o c : String} {outer u v : List String} : Dyck u → closerOf? o = some c →
      Completes outer v → Completes (o :: outer) (u ++ c :: v)

section
variable {opened outer ws u v : List String} {o c w : String}

theorem openAfter_opener (h : isOpener w = true) :
    openAfter opened (w :: ws) = openAfter (w :: opened) ws := by
  rw [openAfter.eq_def]
  simp [h]

theorem openAfter_closer (h : closerOf? o = some c) :
    openAfter (o :: outer) (c :: ws) = openAfter outer ws := by
  rw [openAfter]
  simp [isOpener_eq_false (isCloser_of_closerOf? h), h]

/-- A closing bracket is read only if it closes the innermost open one. -/
theorem openAfter_eq_none (hw : isOpener w = false)
    (h : ∀ o ∈ opened.head?, closerOf? o ≠ some w) : openAfter opened (w :: ws) = none := by
  cases opened with
  | nil => simp [openAfter, hw]
  | cons o outer => simp [openAfter, hw, h o rfl]

theorem openAfter_append :
    openAfter opened (u ++ v) = (openAfter opened u).bind fun opened => openAfter opened v := by
  fun_induction openAfter opened u with
  | case1 => rfl
  | case2 opened w ws hw ih => rw [List.cons_append, openAfter_opener hw, ih]
  | case3 w ws hw o outer hpair ih => rw [List.cons_append, openAfter_closer hpair, ih]
  | case4 w ws hw o outer hpair =>
    rw [List.cons_append, openAfter_eq_none (by simpa using hw) (by simpa using hpair)]
    rfl
  | case5 w ws hw =>
    rw [List.cons_append, openAfter_eq_none (by simpa using hw) (by simp)]
    rfl

/-- What is open was opened before or is an opening bracket. -/
theorem isOpener_of_openAfter {still : List String} (h : openAfter opened ws = some still)
    (ho : ∀ o ∈ opened, isOpener o = true) : ∀ o ∈ still, isOpener o = true := by
  fun_induction openAfter opened ws with
  | case1 =>
    obtain rfl := Option.some.inj h
    exact ho
  | case2 opened w ws hw ih => exact ih h (List.forall_mem_cons.mpr ⟨hw, ho⟩)
  | case3 w ws hw o outer hpair ih => exact ih h (List.forall_mem_cons.mp ho).2
  | case4 => cases h
  | case5 => cases h

/-! ## Balanced words -/

theorem Dyck.append (hu : Dyck u) (hv : Dyck v) : Dyck (u ++ v) := by
  induction hu with
  | nil => exact hv
  | @pair o c inside after hpair hin _ _ ih =>
    rw [List.cons_append, List.append_assoc]
    exact .pair hpair hin ih

/-- A balanced word leaves the stack alone. -/
theorem Dyck.openAfter_eq (h : Dyck ws) (opened : List String) :
    openAfter opened ws = some opened := by
  induction h generalizing opened with
  | nil => rfl
  | pair hpair _ _ ihin ihout =>
    rw [openAfter_opener (isOpener_of_closerOf? hpair), openAfter_append, ihin]
    exact (openAfter_closer hpair).trans (ihout opened)

theorem Completes.prepend (hu : Dyck u) (h : Completes opened v) : Completes opened (u ++ v) := by
  cases h with
  | done hv => exact .done (hu.append hv)
  | close hin hpair hout =>
    rw [← List.append_assoc]
    exact .close (hu.append hin) hpair hout

theorem completes_of_openAfter (h : openAfter opened ws = some []) : Completes opened ws := by
  fun_induction openAfter opened ws with
  | case1 opened =>
    obtain rfl := Option.some.inj h
    exact .done .nil
  | case2 opened w ws hw ih =>
    -- the bracket that is opened here is closed first, which makes a pair
    cases ih h with
    | close hin hpair hout =>
      have hword := Dyck.pair hpair hin .nil
      have h := hout.prepend hword
      rwa [List.cons_append, List.append_assoc, List.singleton_append] at h
  | case3 w ws hw o outer hpair ih => exact .close .nil hpair (ih h)
  | case4 => cases h
  | case5 => cases h

theorem dyck_iff : Dyck ws ↔ openAfter [] ws = some [] := by
  constructor
  · intro h
    exact h.openAfter_eq []
  · intro h
    cases completes_of_openAfter h with
    | done h => exact h

/-- Opening brackets are closed by their partners, the innermost first. -/
theorem exists_closers (h : ∀ o ∈ opened, isOpener o = true) :
    ∃ ws, openAfter opened ws = some [] := by
  induction opened with
  | nil => exact ⟨[], rfl⟩
  | cons o outer ih =>
    obtain ⟨ho, houter⟩ := List.forall_mem_cons.mp h
    obtain ⟨c, hc⟩ := Option.isSome_iff_exists.mp ho
    obtain ⟨ws, hws⟩ := ih houter
    exact ⟨c :: ws, (openAfter_closer hc).trans hws⟩

theorem extends_iff : Extends ws ↔ (openAfter [] ws).isSome = true := by
  constructor
  · intro ⟨rest, hrest⟩
    have h := hrest.openAfter_eq []
    rw [openAfter_append] at h
    obtain ⟨opened, hopened, _⟩ := Option.bind_eq_some_iff.mp h
    rw [hopened]
    rfl
  · intro h
    obtain ⟨opened, hopened⟩ := Option.isSome_iff_exists.mp h
    obtain ⟨rest, hrest⟩ := exists_closers (isOpener_of_openAfter hopened (List.forall_mem_nil _))
    refine ⟨rest, dyck_iff.mpr ?_⟩
    rw [openAfter_append, hopened]
    exact hrest

/-- The beginning of what can be completed can be completed. -/
theorem Extends.of_append (h : Extends (u ++ v)) : Extends u := by
  obtain ⟨rest, hrest⟩ := h
  exact ⟨v ++ rest, List.append_assoc u v rest ▸ hrest⟩

end

end StackEscape.Bracket
