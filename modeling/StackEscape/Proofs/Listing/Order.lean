import StackEscape.Listing.Scan

/-!
# The order of tokens

Cutting a source leaves its tokens in the order in which they stand there: positions strictly
increase, by line and within a line by column.
-/

namespace StackEscape

namespace Position

def Precedes (p q : Position) : Prop :=
  p.line < q.line ∨ (p.line = q.line ∧ p.column < q.column)

theorem Precedes.trans {p q r : Position} (hpq : p.Precedes q) (hqr : q.Precedes r) :
    p.Precedes r := by
  unfold Precedes at *
  omega

theorem Precedes.ne {p q : Position} (h : p.Precedes q) : p ≠ q := by
  rintro rfl
  unfold Precedes at h
  omega

theorem precedes_next (p : Position) (c : Char) : p.Precedes (p.next c) := by
  unfold next
  split
  · exact .inl (Nat.lt_succ_self _)
  · exact .inr ⟨rfl, Nat.lt_succ_self _⟩

/-- Whatever is passed over, the place behind it comes later. -/
theorem precedes_advance (p : Position) (c : Char) (cs : List Char) :
    p.Precedes (p.advance (c :: cs)) := by
  induction cs generalizing p c with
  | nil => exact p.precedes_next c
  | cons d cs ih => exact (p.precedes_next c).trans (ih (p.next c) d)

end Position

namespace Lexeme

/-- Tokens cut from the place `p` on stand at `p` or behind it, one behind the other. -/
theorem ordered_scan {p : Position} {lineStart : Bool} {cs : List Char} {ts : List Token}
    (h : scan p lineStart cs = .ok ts) :
    (∀ t ∈ ts, t.position = p ∨ p.Precedes t.position) ∧
      ts.Pairwise fun a b => a.position.Precedes b.position := by
  fun_induction scan p lineStart cs generalizing ts with
  | case1 =>
    obtain rfl := Except.ok.inj h
    exact ⟨by simp, .nil⟩
  | case2 => cases h
  | case3 p lineStart c cs x _ taken after =>
    rename_i ih
    obtain ⟨hfirst, hrest⟩ := ih h
    have hp : p.Precedes after := p.precedes_advance c _
    refine ⟨fun t ht => .inr ?_, hrest⟩
    rcases hfirst t ht with he | hlt
    · exact he ▸ hp
    · exact hp.trans hlt
  | case4 p lineStart c cs x _ taken after =>
    rename_i ih
    cases hs : scan after _ (cs.drop x.extra) with
    | error fault => rw [hs] at h; cases h
    | ok rest =>
      rw [hs] at h
      obtain rfl := Except.ok.inj h
      obtain ⟨hfirst, hrest⟩ := ih hs
      have hp : p.Precedes after := p.precedes_advance c _
      have hlater : ∀ t ∈ rest, p.Precedes t.position := by
        intro t ht
        rcases hfirst t ht with he | hlt
        · exact he ▸ hp
        · exact hp.trans hlt
      refine ⟨?_, List.pairwise_cons.mpr ⟨hlater, hrest⟩⟩
      intro t ht
      rcases List.mem_cons.mp ht with rfl | ht
      · exact .inl rfl
      · exact .inr (hlater t ht)

end Lexeme

end StackEscape
