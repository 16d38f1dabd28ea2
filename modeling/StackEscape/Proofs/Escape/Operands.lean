import StackEscape.Proofs.Escape.Exits
import StackEscape.Proofs.Listing.Linking

/-!
# What stands behind a deallocated name

Behind the name that a `free` or `delete` finds, and behind the parentheses that close what was
opened in front of the name, the operand goes on or is over. The rule looks one token behind the
name: for `free` that settles it, and for `delete` it excludes an element of an array that stands in
no parentheses, but neither a member nor what follows a parenthesis.
-/

namespace StackEscape

namespace Listing.WellFormed

variable {l : Listing}

/-- A name has no partner. -/
theorem link?_of_isName (h : l.WellFormed) {i : Nat} (hname : l.isName i = true) :
    l.link? i = none := by
  have hne : ∀ {w : String}, Lexeme.isWord w = false → l.text i ≠ w :=
    h.text_ne_of_isName hname
  rw [← Option.not_isSome_iff_eq_none, h.isSome_link?_iff]
  simp [Bracket.isBracket, Bracket.isOpener, Bracket.closerOf?, Bracket.isCloser,
    hne (w := "(") rfl, hne (w := "[") rfl, hne (w := "\x7b") rfl, hne (w := ")") rfl,
    hne (w := "]") rfl, hne (w := "\x7d") rfl]

/-- A pair of parentheses around a name. -/
theorem closing?_around (h : l.WellFormed) {o : Nat} (hopen : l.text o = "(")
    (hname : l.isName (o + 1) = true) (hclose : l.text (o + 2) = ")") :
    l.closing? o = some (o + 2) := by
  have hsize := lt_size_of_text hclose (by decide)
  obtain ⟨c, hc, hoc⟩ :=
    h.nests.exists_link_of_isOpener (Nat.zero_le o) (by omega) (by rw [hopen]; decide)
  obtain ⟨o', ho', hlt⟩ :=
    h.nests.exists_link_of_isCloser (Nat.zero_le (o + 2)) hsize (by rw [hclose]; decide)
  have hunlinked := h.link?_of_isName hname
  -- if the partner of `)` stood in front of `o`, then that of `(` would stand behind it
  have hne : o' ≠ o + 1 := by
    rintro rfl
    cases hunlinked.symm.trans (h.link?_symm ho')
  have hge : ¬ o' < o := by
    intro hlt'
    have hinside := h.nests.no_crossing (Nat.zero_le o') (by omega) (h.link?_symm ho') hlt'
      (by omega) hc
    obtain rfl : c = o + 1 := by omega
    cases hunlinked.symm.trans (h.link?_symm hc)
  obtain rfl : o' = o := by omega
  exact h.closing?_iff.mpr ⟨ho', hlt⟩

end Listing.WellFormed

namespace Program

variable {p : Program} {t a n k : Nat}

/-- The word at `t`, which is `free` or `delete`, names with the token `a` what it deallocates:
between the two stand brackets and parentheses at most. -/
structure Frees (p : Program) (t a : Nat) : Prop where
  word : p.listing.text t = "free" ∨ p.listing.text t = "delete"
  operand : Assignment.Operand p t a

instance (p : Program) (t a : Nat) : Decidable (p.Frees t a) :=
  decidable_of_iff ((p.listing.text t = "free" ∨ p.listing.text t = "delete") ∧ t < a ∧
      p.listing.isName a = true ∧ ∀ k, k < a → t < k →
        p.listing.text k = "[" ∨ p.listing.text k = "]" ∨ p.listing.text k = "(")
    ⟨fun ⟨h₁, h₂, h₃, h₄⟩ => ⟨h₁, h₂, h₃, fun k htk hk => h₄ k hk htk⟩,
      fun ⟨h₁, h₂, h₃, h₄⟩ => ⟨h₁, h₂, h₃, fun k hk htk => h₄ k htk hk⟩⟩

/-- The token at `k` closes a parenthesis that opens between `t` and `a`. -/
def ClosesBetween (p : Program) (t a k : Nat) : Prop :=
  ∃ o, o < a ∧ t < o ∧ p.listing.text o = "(" ∧ p.listing.closing? o = some k

instance (p : Program) (t a k : Nat) : Decidable (p.ClosesBetween t a k) :=
  inferInstanceAs (Decidable (∃ o, o < a ∧ _))

/-- The first token behind `a` that closes no parenthesis opened between `t` and `a`. -/
structure Behind (p : Program) (t a n : Nat) : Prop where
  lt : a < n
  closes : ∀ k, k < n → a < k → p.ClosesBetween t a k
  ends : ¬ p.ClosesBetween t a n

instance (p : Program) (t a n : Nat) : Decidable (p.Behind t a n) :=
  decidable_of_iff (a < n ∧ (∀ k, k < n → a < k → p.ClosesBetween t a k) ∧
      ¬ p.ClosesBetween t a n)
    ⟨fun ⟨h₁, h₂, h₃⟩ => ⟨h₁, h₂, h₃⟩, fun ⟨h₁, h₂, h₃⟩ => ⟨h₁, h₂, h₃⟩⟩

theorem Behind.unique {m : Nat} (hm : p.Behind t a m) (hn : p.Behind t a n) : m = n := by
  rcases Nat.lt_trichotomy m n with hlt | rfl | hlt
  · exact absurd (hn.closes m hlt hm.lt) hm.ends
  · rfl
  · exact absurd (hm.closes n hlt hn.lt) hn.ends

/-- The `delete` at `t` deallocates what is reached through the array `a`: a member, as in `a . m`,
or behind parentheses a member or an element, as in `( a ) . m` and `( a ) [ i ]`. -/
def ReachesInto (p : Program) (t a : Nat) : Prop :=
  p.listing.text t = "delete" ∧ (p.listing.text (a + 1) = "." ∨
    p.listing.textBefore a = "(" ∧ p.listing.text (a + 1) = ")" ∧
      (p.listing.text (a + 2) = "[" ∨ p.listing.text (a + 2) = "."))

instance (p : Program) (t a : Nat) : Decidable (p.ReachesInto t a) :=
  inferInstanceAs (Decidable (_ ∧ _))

end Program

namespace Assignment

variable {p : Program} {t a n k : Nat} {b : Bool}

structure Takes (p : Program) (t a : Nat) : Prop where
  frees : p.Frees t a
  single : ∀ k, t < k → k < a → p.listing.text k = "(" → k + 1 = a
  follows : p.listing.text t = "free" ∧ p.listing.textBefore a = "(" ∧
      p.listing.text (a + 1) = ")" ∧ p.listing.text (a + 2) = ";" ∨
    p.listing.text t = "delete" ∧ p.listing.text (a + 1) ≠ "["

/-- In front of the operand of a `delete`, one parenthesis is passed at most. -/
theorem eq_deleteOperand_of_text {l : Listing} (hk : t < k) (hka : k < deleteOperand l t)
    (hopen : l.text k = "(") : k + 1 = deleteOperand l t := by
  have hbehind : l.passIf "]" (l.passIf "[" (t + 1)) ≤ k := by
    refine Nat.not_lt.mp fun hlt => ?_
    rcases Nat.lt_or_ge k (l.passIf "[" (t + 1)) with hlt' | hge
    · have hbracket := Listing.text_of_lt_passIf hk hlt'
      rw [hopen] at hbracket
      exact absurd hbracket (by decide)
    · have hbracket := Listing.text_of_lt_passIf hge hlt
      rw [hopen] at hbracket
      exact absurd hbracket (by decide)
  have hpass : deleteOperand l t ≤ l.passIf "]" (l.passIf "[" (t + 1)) + 1 :=
    l.passIf_le "(" _
  omega

theorem exists_takes (h : (freePattern.matchesAt p t || deletePattern.matchesAt p t) = true) :
    ∃ a, Takes p t a := by
  rcases Bool.or_eq_true_iff.mp h with h | h
  · obtain ⟨hfree, hopen, hname, hclose, hends⟩ := free_matches.mp h
    have hbetween : ∀ k, t < k → k < t + 2 → k = t + 1 := by omega
    refine ⟨t + 2, ⟨.inl hfree, by omega, hname, fun k htk hk => ?_⟩, fun k htk hk _ => ?_,
      .inl ⟨hfree, hopen, hclose, hends⟩⟩
    · rw [hbetween k htk hk]
      exact .inr (.inr hopen)
    · rw [hbetween k htk hk]
  · obtain ⟨hdelete, hname, hwhole⟩ := delete_matches.mp h
    exact ⟨_, ⟨.inr hdelete, operand_of_delete hname rfl⟩,
      fun k htk hk => eq_deleteOperand_of_text htk hk, .inr ⟨hdelete, hwhole⟩⟩

namespace Takes

/-- The array is not indexed right behind its name. -/
theorem whole (h : Takes p t a) : p.listing.text (a + 1) ≠ "[" := by
  rcases h.follows with ⟨_, _, hclose, _⟩ | ⟨_, hwhole⟩
  · rw [hclose]
    decide
  · exact hwhole

/-- A parenthesis that opens in front of the operand opens right there. -/
theorem closesBetween_iff (h : Takes p t a) :
    p.ClosesBetween t a k ↔
      p.listing.textBefore a = "(" ∧ p.listing.closing? (a - 1) = some k := by
  have hlt := h.frees.operand.lt
  obtain ⟨o, rfl⟩ : ∃ o, a = o + 1 := ⟨a - 1, by omega⟩
  constructor
  · rintro ⟨o', hoa, hto, hopen, hclose⟩
    obtain rfl := Nat.succ.inj (h.single o' hto hoa hopen)
    exact ⟨hopen, hclose⟩
  · rintro ⟨hopen, hclose⟩
    refine ⟨o, Nat.lt_succ_self o, Nat.lt_of_le_of_ne (Nat.le_of_lt_succ hlt) ?_, hopen, hclose⟩
    rintro rfl
    have hword := h.frees.word
    rw [show p.listing.text t = "(" from hopen] at hword
    exact absurd hword (by decide)

/-- The operand in parentheses of its own. -/
theorem behind_enclosed (hp : p.WellFormed) (h : Takes p t a)
    (hopen : p.listing.textBefore a = "(") (hclose : p.listing.text (a + 1) = ")") :
    p.Behind t a (a + 2) := by
  have hlt := h.frees.operand.lt
  obtain ⟨o, rfl⟩ : ∃ o, a = o + 1 := ⟨a - 1, by omega⟩
  have hpair := hp.listing.closing?_around hopen h.frees.operand.isName hclose
  refine ⟨by omega, fun k hk hak => ?_, fun hcloses => ?_⟩
  · obtain rfl : k = o + 2 := by omega
    exact h.closesBetween_iff.mpr ⟨hopen, hpair⟩
  · obtain ⟨_, hpair'⟩ := h.closesBetween_iff.mp hcloses
    have := Option.some.inj (hpair.symm.trans hpair')
    omega

/-- The operand without parentheses around it alone. -/
theorem behind_open (hp : p.WellFormed) (h : Takes p t a)
    (hno : ¬ (p.listing.textBefore a = "(" ∧ p.listing.text (a + 1) = ")")) :
    p.Behind t a (a + 1) := by
  refine ⟨Nat.lt_succ_self a, fun k hk hak => by omega, fun hcloses => hno ?_⟩
  obtain ⟨hopen, hpair⟩ := h.closesBetween_iff.mp hcloses
  have hlt := h.frees.operand.lt
  obtain ⟨o, rfl⟩ : ∃ o, a = o + 1 := ⟨a - 1, by omega⟩
  have hcloser := hp.listing.text_of_closing? hpair
  rw [show p.listing.text (o + 1 - 1) = "(" from hopen] at hcloser
  exact ⟨hopen, (Option.some.inj hcloser).symm⟩

theorem exists_behind (hp : p.WellFormed) (h : Takes p t a) : ∃ n, p.Behind t a n := by
  by_cases henclosed : p.listing.textBefore a = "(" ∧ p.listing.text (a + 1) = ")"
  · exact ⟨_, h.behind_enclosed hp henclosed.1 henclosed.2⟩
  · exact ⟨_, h.behind_open hp henclosed⟩

/-- **What the rule overlooks**: only behind `delete` may the operand go on to a member or an
element of the array. -/
theorem reaches_iff (hp : p.WellFormed) (h : Takes p t a) (hn : p.Behind t a n) :
    p.listing.text n = "[" ∨ p.listing.text n = "." ↔ p.ReachesInto t a := by
  have hword : p.listing.text t = "free" → p.listing.text t ≠ "delete" := by
    intro hfree
    rw [hfree]
    decide
  by_cases henclosed : p.listing.textBefore a = "(" ∧ p.listing.text (a + 1) = ")"
  · obtain rfl := hn.unique (h.behind_enclosed hp henclosed.1 henclosed.2)
    rcases h.follows with ⟨hfree, _, _, hends⟩ | ⟨hdelete, _⟩
    · simp [Program.ReachesInto, hword hfree, hends]
    · simp [Program.ReachesInto, hdelete, henclosed]
  · obtain rfl := hn.unique (h.behind_open hp henclosed)
    rcases h.follows with ⟨_, hopen, hclose, _⟩ | ⟨hdelete, hwhole⟩
    · exact absurd ⟨hopen, hclose⟩ henclosed
    · simp only [Program.ReachesInto, hdelete, hwhole, false_or, true_and]
      refine ⟨.inl, ?_⟩
      rintro (hdot | ⟨hopen, hclose, _⟩)
      · exact hdot
      · exact absurd ⟨hopen, hclose⟩ henclosed

end Takes

/-- What the deallocation rule reports is an array that it takes for the operand. -/
theorem exists_takes_of_mem (hp : p.WellFormed) {h : Hit} (hh : deallocation p b t = some h)
    {x : Finding} (hx : x ∈ h.finding) :
    Takes p t x.anchor ∧ p.automaticArrayAt x.anchor = true := by
  obtain ⟨hc, hname⟩ := Option.ite_none_right_eq_some.mp hh
  obtain ⟨a, ha⟩ := exists_takes hc
  rw [ha.frees.operand.nextName? hp] at hname
  obtain rfl := Option.some.inj hname
  obtain ⟨harray, rfl⟩ := mem_findingIf.mp hx
  exact ⟨ha, harray⟩

end Assignment

end StackEscape
