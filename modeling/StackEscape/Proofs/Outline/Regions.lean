import StackEscape.Proofs.Outline.Headings

/-!
# Regions of an outline

The braces of an outline nest the way the outline does: `Outline.Between` says that they stand
between two tokens, that those of an inner outline stand between the braces around it, and that what
comes later stands behind them. No heading looks for its brace beyond the region that it belongs to,
since a region ends with a closing brace or with the tokens.
-/

namespace StackEscape

namespace Listing

/-- A linked pair of braces between the tokens at `i` and `stop`. -/
structure BracesBetween (l : Listing) (i stop opener closer : Nat) : Prop where
  starts : i < opener
  brace : l.text opener = "\x7b"
  closes : l.closing? opener = some closer
  stops : closer < stop

theorem seek_le {l : Listing} {targets : List String} {stop i : Nat} (h : i ≤ stop) :
    l.seek targets stop i ≤ stop := by
  fun_induction l.seek targets stop i with
  | case1 => exact h
  | case2 _ hi _ ih => exact ih hi
  | case3 => exact h

theorem templateEndFrom?_le {l : Listing} {stop i j : Nat} {depth : Int}
    (h : l.templateEndFrom? stop i depth = some j) : j ≤ stop := by
  fun_induction l.templateEndFrom? stop i depth with
  | case1 _ _ _ _ _ _ _ ih => exact ih h
  | case2 => cases h
  | case3 => cases h
  | case4 _ _ hi =>
    obtain rfl := Option.some.inj h
    exact hi
  | case5 _ _ _ _ _ _ _ ih => exact ih h
  | case6 => cases h

end Listing

namespace Construct

variable {l : Listing} {stop i j : Nat}

theorem classHeadEnd?_le (h : classHeadEnd? l stop i = some j) (hi : i ≤ stop) : j ≤ stop := by
  fun_induction classHeadEnd? l stop i with
  | case1 =>
    obtain rfl := Option.some.inj h
    exact hi
  | case2 _ _ _ _ _ hk ih => exact ih h (Listing.templateEndFrom?_le hk)
  | case3 => cases h
  | case4 _ hlt _ _ ih => exact ih h hlt
  | case5 =>
    obtain rfl := Option.some.inj h
    exact hi

/-- That a construct with a name of its own opens in front of `stop`. -/
def OpensBefore (stop : Nat) : Construct → Prop
  | block _ _ opener _ _ => opener < stop
  | _ => True

/-- A brace that is looked for up to `stop` stands in front of it, where no region ends with one. -/
theorem lt_of_brace (hstop : l.text stop ≠ "\x7b") (hj : l.text j = "\x7b") (hle : j ≤ stop) :
    j < stop := by
  refine Nat.lt_of_le_of_ne hle ?_
  rintro rfl
  exact hstop hj

theorem opensBefore_namespaceAt (hstop : l.text stop ≠ "\x7b") (hi : i < stop) :
    (namespaceAt l stop i).OpensBefore stop := by
  simp only [namespaceAt]
  split
  · next h =>
    split at h
    · next ht => exact lt_of_brace hstop ht (Listing.seek_le hi)
    · cases h
  · trivial

theorem opensBefore_statementAt (l : Listing) (stop i : Nat) :
    (statementAt l stop i).OpensBefore stop := by
  unfold statementAt
  repeat' split
  all_goals trivial

theorem opensBefore_classAt? (hstop : l.text stop ≠ "\x7b") (hi : i < stop) {c : Construct}
    (h : classAt? l stop i = some c) : c.OpensBefore stop := by
  unfold classAt? at h
  split at h
  · cases h
  · next hj =>
    split at h
    · next hc =>
      split at hc
      · next ht =>
        obtain rfl := Option.some.inj h
        exact lt_of_brace hstop ht (classHeadEnd?_le hj hi)
      · cases hc
    · cases h

theorem opensBefore_ofTokens (hstop : l.text stop ≠ "\x7b") (hi : i < stop) :
    (ofTokens l stop i).OpensBefore stop := by
  simp only [ofTokens]
  repeat' split
  all_goals try trivial
  · exact opensBefore_namespaceAt hstop hi
  · cases h : classAt? l stop i with
    | none => exact opensBefore_statementAt l stop i
    | some c => exact opensBefore_classAt? hstop hi h
  · exact opensBefore_statementAt l stop i

end Construct

namespace Outline

/-- The braces of an outline stand between the tokens at `i` and `stop`, in its order. -/
def Between (l : Listing) : Nat → Nat → Outline → Prop
  | _, _, .done => True
  | i, stop, .block _ _ opener closer inside after =>
    l.BracesBetween i stop opener closer ∧ inside.Between l opener closer ∧
      after.Between l closer stop
  | i, stop, .linkage inside after =>
    ∃ k, i ≤ k ∧ k ≤ stop ∧ inside.Between l i k ∧ after.Between l k stop
  | i, stop, .function heading _ after =>
    l.BracesBetween i stop heading.bodyOpen heading.bodyClose ∧
      after.Between l heading.bodyClose stop
  | i, stop, .declaration _ after => after.Between l i stop

/-- What stands behind a place stands behind an earlier one. -/
theorem Between.mono {l : Listing} {i j stop : Nat} {o : Outline} (h : o.Between l j stop)
    (hij : i ≤ j) : o.Between l i stop := by
  induction o generalizing j stop with
  | done => trivial
  | block kind name opener closer inside after _ _ =>
    obtain ⟨hb, hin, hout⟩ := h
    exact ⟨{ hb with starts := Nat.lt_of_le_of_lt hij hb.starts }, hin, hout⟩
  | linkage inside after ihin _ =>
    obtain ⟨k, hik, hk, hin, hout⟩ := h
    exact ⟨k, Nat.le_trans hij hik, hk, ihin hin hij, hout⟩
  | function heading body after _ =>
    obtain ⟨hb, hout⟩ := h
    exact ⟨{ hb with starts := Nat.lt_of_le_of_lt hij hb.starts }, hout⟩
  | declaration d after ih => exact ih h hij

theorem ofTokens_of_le {l : Listing} {stop i : Nat} (h : stop ≤ i) : ofTokens l stop i = .done := by
  rw [ofTokens, if_neg (Nat.not_lt.mpr h)]

/-- **Regions nest.** The braces of a region that closes what it opens stand in it. -/
theorem between_ofTokens {l : Listing} (hl : l.WellFormed) {stop i : Nat}
    (hp : l.PairsWithin i stop) (hstop : l.text stop ≠ "\x7b") :
    (ofTokens l stop i).Between l i stop := by
  fun_induction ofTokens l stop i with
  | case1 stop i hi next hc ih =>
    have hmoves := (Construct.movesFrom_ofTokens l stop i).1
    rw [hc] at hmoves
    have hnext := Nat.le_of_lt hmoves
    exact (ih (hp.mono hnext) hstop).mono hnext
  | case2 stop i hi kind name opener closer next hc ihin ihout =>
    obtain ⟨hopen, hlt, hnext, hpin, hpout⟩ := Construct.divides_block hl hp hc
    have hfound := Construct.found_ofTokens l stop i
    have hbefore := Construct.opensBefore_ofTokens hstop hi
    rw [hc] at hfound hbefore
    obtain ⟨hbrace, hclose, _⟩ := hfound
    have hstops : closer < stop := hp opener closer (Nat.le_of_lt hopen) hbefore hclose
    rw [Nat.min_eq_left (Nat.le_of_lt hstops)] at ihin hpin ⊢
    refine ⟨⟨hopen, hbrace, hclose, hstops⟩, ?_, (ihout hpout hstop).mono (Nat.le_of_lt hnext)⟩
    refine (ihin hpin ?_).mono (Nat.le_succ opener)
    rw [hl.text_close_brace hclose hbrace]
    decide
  | case3 stop i hi opener closer hc ihin ihout =>
    obtain ⟨hopen, hlt, _, hpin, hpout⟩ := Construct.divides_linkage hl hp hc
    have hfound := Construct.found_ofTokens l stop i
    rw [hc] at hfound
    obtain ⟨hbrace, hclose⟩ := hfound
    by_cases hbefore : opener < stop
    · have hstops : closer < stop := hp opener closer (Nat.le_of_lt hopen) hbefore hclose
      rw [Nat.min_eq_left (Nat.le_of_lt hstops)] at ihin hpin ⊢
      refine ⟨closer, by omega, Nat.le_of_lt hstops, ?_, (ihout hpout hstop).mono (by omega)⟩
      refine (ihin hpin ?_).mono (by omega)
      rw [hl.text_close_brace hclose hbrace]
      decide
    · -- braces behind the region hold nothing that belongs to it
      rw [ofTokens_of_le (by omega), ofTokens_of_le (by omega)]
      exact ⟨stop, Nat.le_of_lt hi, Nat.le_refl stop, trivial, trivial⟩
  | case4 stop i hi heading hc ih =>
    have hfound := Construct.found_ofTokens l stop i
    rw [hc] at hfound
    obtain ⟨hbrace, hlt, hclose⟩ := Heading.body_of_ofTokens? hfound
    obtain ⟨hstart, hbody⟩ := Heading.lt_bodyOpen hfound
    have hstops := hp _ _ (Nat.le_of_lt hstart) hlt hclose
    exact ⟨⟨hstart, hbrace, hclose, hstops⟩,
      (ih (hp.mono (by omega)) hstop).mono (Nat.le_succ _)⟩
  | case5 stop i hi d next hc ih =>
    have hmoves := (Construct.movesFrom_ofTokens l stop i).1
    rw [hc] at hmoves
    have hnext := Nat.le_of_lt hmoves
    exact (ih (hp.mono hnext) hstop).mono hnext
  | case6 => trivial

end Outline

/-- The braces of a listing's outline stand between its first token and its end. -/
theorem Listing.WellFormed.between_outline {l : Listing} (hl : l.WellFormed) :
    l.outline.Between l 0 l.size := by
  refine Outline.between_ofTokens hl (.of_nests hl.nests) ?_
  rw [Listing.text_eq_empty (Nat.le_refl _)]
  decide

end StackEscape
