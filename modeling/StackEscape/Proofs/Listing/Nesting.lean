import StackEscape.Listing.Bracket

/-!
# Nesting of brackets

`Listing.Nests l i j` says that the brackets among the tokens from `i` up to `j` pair up among
themselves, the way `l.links` records it. Linking the brackets of a file succeeds only if all of its
tokens nest, and from that everything about single pairs follows: partners name each other, the
opening bracket comes first, what stands between two partners nests again, and pairs never cross.
-/

namespace StackEscape

namespace Listing

/-- The tokens from `i` up to `j` nest: each is no bracket and has no partner, or it opens a pair
whose two parts, inside and behind, nest again. -/
inductive Nests (l : Listing) : Nat → Nat → Prop
  | nil (i : Nat) : Nests l i i
  | plain {i j : Nat} : Bracket.isOpener (l.text i) = false → Bracket.isCloser (l.text i) = false →
      l.link? i = none → Nests l (i + 1) j → Nests l i j
  | pair {i c j : Nat} : Bracket.closerOf? (l.text i) = some (l.text c) → l.link? i = some c →
      l.link? c = some i → Nests l (i + 1) c → Nests l (c + 1) j → Nests l i j

namespace Nests

variable {l : Listing} {i j : Nat}

theorem le (h : l.Nests i j) : i ≤ j := by
  induction h with
  | nil => exact Nat.le_refl _
  | plain _ _ _ _ ih => omega
  | pair _ _ _ _ _ ihin ihout => omega

/-- A partner stands in the same nest. -/
theorem link_mem (h : l.Nests i j) {x y : Nat} (hx : i ≤ x) (hj : x < j)
    (hl : l.link? x = some y) : i ≤ y ∧ y < j := by
  induction h with
  | nil => omega
  | @plain i j _ _ hn _ ih =>
    rcases Nat.eq_or_lt_of_le hx with rfl | hx
    · rw [hn] at hl; cases hl
    · have := ih hx hj
      omega
  | @pair i c j _ hi hc hin hout ihin ihout =>
    have := hin.le
    have := hout.le
    rcases Nat.eq_or_lt_of_le hx with rfl | hx
    · obtain rfl := Option.some.inj (hi.symm.trans hl)
      omega
    · rcases Nat.lt_trichotomy x c with hxc | rfl | hxc
      · have := ihin hx hxc
        omega
      · obtain rfl := Option.some.inj (hc.symm.trans hl)
        omega
      · have := ihout hxc hj
        omega

/-- What two partners are to each other, the first of them standing at `x`. -/
structure Pair (l : Listing) (x y : Nat) : Prop where
  closes : Bracket.closerOf? (l.text x) = some (l.text y)
  back : l.link? y = some x
  inside : l.Nests (x + 1) y

theorem pair_of_link (h : l.Nests i j) {x y : Nat} (hx : i ≤ x) (hj : x < j)
    (hl : l.link? x = some y) (hxy : x < y) : Pair l x y := by
  induction h with
  | nil => omega
  | @plain i j _ _ hn _ ih =>
    rcases Nat.eq_or_lt_of_le hx with rfl | hx
    · rw [hn] at hl; cases hl
    · exact ih hx hj
  | @pair i c j ht hi hc hin hout ihin ihout =>
    rcases Nat.eq_or_lt_of_le hx with rfl | hx
    · obtain rfl := Option.some.inj (hi.symm.trans hl)
      exact ⟨ht, hc, hin⟩
    · rcases Nat.lt_trichotomy x c with hxc | rfl | hxc
      · exact ihin hx hxc
      · obtain rfl := Option.some.inj (hc.symm.trans hl)
        omega
      · exact ihout hxc hj

/-- No token is its own partner, and partners name each other. -/
theorem link_symm (h : l.Nests i j) {x y : Nat} (hx : i ≤ x) (hj : x < j)
    (hl : l.link? x = some y) : x ≠ y ∧ l.link? y = some x := by
  induction h with
  | nil => omega
  | @plain i j _ _ hn _ ih =>
    rcases Nat.eq_or_lt_of_le hx with rfl | hx
    · rw [hn] at hl; cases hl
    · exact ih hx hj
  | @pair i c j _ hi hc hin hout ihin ihout =>
    have := hin.le
    rcases Nat.eq_or_lt_of_le hx with rfl | hx
    · obtain rfl := Option.some.inj (hi.symm.trans hl)
      exact ⟨by omega, hc⟩
    · rcases Nat.lt_trichotomy x c with hxc | rfl | hxc
      · exact ihin hx hxc
      · obtain rfl := Option.some.inj (hc.symm.trans hl)
        exact ⟨by omega, hi⟩
      · exact ihout hxc hj

/-- Pairs never cross: the partner of what stands between two partners stands there as well. -/
theorem no_crossing (h : l.Nests i j) {o c x y : Nat} (hi : i ≤ o) (hj : o < j)
    (hl : l.link? o = some c) (hx : o < x) (hc : x < c) (hxy : l.link? x = some y) :
    o < y ∧ y < c := by
  have hp := h.pair_of_link hi hj hl (by omega)
  have := hp.inside.link_mem hx hc hxy
  omega

end Nests

end Listing

namespace Bracket

/-- Reading on from `i` closes the brackets in `opened`, the innermost first, with nests between
them. -/
inductive Closes (l : Listing) : Nat → List (Nat × Token) → Prop
  | done {i : Nat} : l.Nests i l.size → Closes l i []
  | close {i o c : Nat} {t : Token} {outer : List (Nat × Token)} : l.Nests i c →
      closerOf? (l.text o) = some (l.text c) → l.link? o = some c → l.link? c = some o →
      Closes l (c + 1) outer → Closes l i ((o, t) :: outer)

/-- Tokens that nest with whatever nests behind them may be put in front. -/
theorem Closes.prepend {l : Listing} {i k : Nat} {opened : List (Nat × Token)}
    (hp : ∀ j, l.Nests k j → l.Nests i j) (h : Closes l k opened) : Closes l i opened := by
  cases h with
  | done h => exact .done (hp _ h)
  | close h ht ho hc hrest => exact .close (hp _ h) ht ho hc hrest

theorem size_join (links : Array (Option Nat)) (o c : Nat) :
    (join links o c).size = links.size := by
  simp [join]

theorem getElem?_join_of_ne {links : Array (Option Nat)} {o c j : Nat} (ho : j ≠ o) (hc : j ≠ c) :
    (join links o c)[j]? = links[j]? := by
  simp [join, Ne.symm ho, Ne.symm hc]

theorem size_linkFrom {i : Nat} {opened : List (Nat × Token)} {links final : Array (Option Nat)}
    {ts : List Token} (h : linkFrom i opened links ts = .ok final) : final.size = links.size := by
  fun_induction linkFrom i opened links ts with
  | case1 => exact congrArg _ (Except.ok.inj h).symm
  | case2 => cases h
  | case3 _ _ _ _ _ _ ih => exact ih h
  | case4 _ _ _ _ _ _ _ _ _ _ ih => rw [ih h, size_join]
  | case5 => cases h
  | case6 => cases h
  | case7 _ _ _ _ _ _ _ ih => exact ih h

/-- Reading on from `i` changes nothing recorded for the tokens before, except for open brackets. -/
theorem linkFrom_frame {i : Nat} {opened : List (Nat × Token)} {links final : Array (Option Nat)}
    {ts : List Token} (h : linkFrom i opened links ts = .ok final) {j : Nat} (hj : j < i)
    (ho : ∀ b ∈ opened, b.1 ≠ j) : final[j]? = links[j]? := by
  fun_induction linkFrom i opened links ts with
  | case1 => rw [Except.ok.inj h]
  | case2 => cases h
  | case3 i opened links t ts _ ih =>
    refine ih h (by omega) (fun b hb => ?_)
    rcases List.mem_cons.mp hb with rfl | hb
    · exact Nat.ne_of_gt hj
    · exact ho b hb
  | case4 i links t ts _ _ o bracket outer _ ih =>
    rw [ih h (by omega) (fun b hb => ho b (List.mem_cons_of_mem _ hb))]
    have hne : o ≠ j := ho (o, bracket) (List.mem_cons_self ..)
    exact getElem?_join_of_ne hne.symm (Nat.ne_of_lt hj)
  | case5 => cases h
  | case6 => cases h
  | case7 i opened links t ts _ _ ih => exact ih h (by omega) ho

/-- What is left to be read begins with the token at `i`. -/
theorem getElem?_of_drop {ts rest : List Token} {i : Nat} {t : Token} (h : ts.drop i = t :: rest) :
    ts[i]? = some t ∧ ts.drop (i + 1) = rest := by
  constructor
  · rw [← List.head?_drop, h]
    rfl
  · rw [← List.tail_drop, h]
    rfl

theorem get?_of_drop {l : Listing} {i : Nat} {t : Token} {ts : List Token}
    (h : l.tokens.toList.drop i = t :: ts) :
    l.get? i = some t ∧ l.tokens.toList.drop (i + 1) = ts := by
  obtain ⟨hget, hrest⟩ := getElem?_of_drop h
  exact ⟨Array.getElem?_toList.symm.trans hget, hrest⟩

/-- Where linking succeeds, what is left closes all open brackets in turn. -/
theorem closes_of_linkFrom {l : Listing} {i : Nat} {opened : List (Nat × Token)}
    {links : Array (Option Nat)} {ts : List Token} (h : linkFrom i opened links ts = .ok l.links)
    (hts : l.tokens.toList.drop i = ts) (hend : i + ts.length = l.size)
    (hsize : links.size = l.size) (hbefore : ∀ b ∈ opened, b.1 < i ∧ l.text b.1 = b.2.text)
    (hdistinct : opened.Pairwise fun a b => a.1 ≠ b.1)
    (hfree : ∀ j, i ≤ j → j < l.size → links[j]? = some none) : Closes l i opened := by
  fun_induction linkFrom i opened links ts with
  | case1 i links =>
    obtain rfl : i = l.size := by simpa using hend
    exact .done (.nil _)
  | case2 => cases h
  | case3 i opened links t ts ht ih =>
    obtain ⟨hget, hts⟩ := get?_of_drop hts
    have htext : l.text i = t.text := by simp [Listing.text, hget]
    have hnew : ∀ b ∈ (i, t) :: opened, b.1 < i + 1 ∧ l.text b.1 = b.2.text := by
      intro b hb
      rcases List.mem_cons.mp hb with rfl | hb
      · exact ⟨Nat.lt_succ_self _, htext⟩
      · exact ⟨Nat.lt_succ_of_lt (hbefore b hb).1, (hbefore b hb).2⟩
    have hapart : ((i, t) :: opened).Pairwise fun a b => a.1 ≠ b.1 :=
      List.pairwise_cons.mpr ⟨fun b hb => Nat.ne_of_gt (hbefore b hb).1, hdistinct⟩
    cases ih h hts (by simp at hend; omega) hsize hnew hapart
      (fun j hj => hfree j (Nat.le_of_succ_le hj)) with
    | close hin hcloser ho hc hrest =>
      exact hrest.prepend fun j hj => .pair hcloser ho hc hin hj
  | case4 i links t ts hopener hcloser o bracket outer hpair ih =>
    obtain ⟨hget, hts⟩ := get?_of_drop hts
    have htext : l.text i = t.text := by simp [Listing.text, hget]
    obtain ⟨hoi, hotext⟩ := hbefore (o, bracket) (List.mem_cons_self ..)
    obtain ⟨hapart, hdistinct⟩ := List.pairwise_cons.mp hdistinct
    have houter : ∀ b ∈ outer, b.1 < i + 1 ∧ l.text b.1 = b.2.text := fun b hb =>
      ⟨Nat.lt_succ_of_lt (hbefore b (List.mem_cons_of_mem _ hb)).1,
        (hbefore b (List.mem_cons_of_mem _ hb)).2⟩
    have hi : i < l.size := by simp at hend; omega
    -- both ends of the new pair keep their entries to the end
    have ho : l.links[o]? = some (some i) := by
      rw [linkFrom_frame h (Nat.lt_succ_of_lt hoi) fun b hb => (hapart b hb).symm]
      simp [join, Nat.ne_of_gt hoi, hsize, Nat.lt_trans hoi hi]
    have hc : l.links[i]? = some (some o) := by
      rw [linkFrom_frame h (Nat.lt_succ_self i) fun b hb =>
        Nat.ne_of_lt (hbefore b (List.mem_cons_of_mem _ hb)).1]
      simp [join, hsize, hi]
    refine .close (.nil i) ?_ (by simp [Listing.link?, ho]) (by simp [Listing.link?, hc])
      (ih h hts (by simp at hend; omega) (by rw [size_join, hsize]) houter hdistinct ?_)
    · rw [hotext, htext, hpair]
    · intro j hj hjs
      rw [getElem?_join_of_ne (by omega) (by omega)]
      exact hfree j (by omega) hjs
  | case5 => cases h
  | case6 => cases h
  | case7 i opened links t ts hopener hcloser ih =>
    obtain ⟨hget, hts⟩ := get?_of_drop hts
    have htext : l.text i = t.text := by simp [Listing.text, hget]
    have hi : i < l.size := by simp at hend; omega
    have hnone : l.links[i]? = some none := by
      rw [linkFrom_frame h (Nat.lt_succ_self i) fun b hb => Nat.ne_of_lt (hbefore b hb).1]
      exact hfree i (Nat.le_refl i) hi
    refine (ih h hts (by simp at hend; omega) hsize
      (fun b hb => ⟨Nat.lt_succ_of_lt (hbefore b hb).1, (hbefore b hb).2⟩) hdistinct
      fun j hj => hfree j (Nat.le_of_succ_le hj)).prepend fun j hj => .plain ?_ ?_ ?_ hj
    · simpa [htext] using hopener
    · simpa [htext] using hcloser
    · simp [Listing.link?, hnone]

end Bracket

/-- **Linked brackets nest.** All tokens of a listing whose brackets could be linked nest. -/
theorem Listing.nests_of_link {l : Listing} (h : Bracket.link l.tokens = .ok l.links) :
    l.Nests 0 l.size := by
  have hc : Bracket.Closes l 0 [] :=
    Bracket.closes_of_linkFrom h rfl (by simp [Listing.size]) (by simp [Listing.size])
      (by simp) .nil fun j _ hj => Array.getElem?_replicate.trans (if_pos hj)
  cases hc with
  | done h => exact h

end StackEscape
