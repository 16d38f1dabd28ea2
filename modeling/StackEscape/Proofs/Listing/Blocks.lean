import StackEscape.Proofs.Listing.WellFormed

/-!
# Blocks

A block is what stands between a `{` and its `}`. Blocks nest, so the ones that are open at some
place form a stack: `OpenAt` lists them, the innermost first. Reading one token pushes a block, pops
one or leaves the stack alone, and so does reading a balanced stretch of tokens, which holds both
braces of a pair or none.
-/

namespace StackEscape.Listing

variable {l : Listing}

/-- The braces that open at `o` are around the token at `i`. -/
def Encloses (l : Listing) (o i : Nat) : Prop :=
  l.text o = "\x7b" ∧ o < i ∧ ∃ c ∈ l.closing? o, i < c

instance (l : Listing) (o i : Nat) : Decidable (l.Encloses o i) :=
  inferInstanceAs (Decidable (_ ∧ _ ∧ _))

/-- The braces that open at `o` are the innermost ones around the token at `i`. -/
def Innermost (l : Listing) (o i : Nat) : Prop :=
  l.Encloses o i ∧ ∀ o', o' < i → l.Encloses o' i → o' ≤ o

instance (l : Listing) (o i : Nat) : Decidable (l.Innermost o i) :=
  inferInstanceAs (Decidable (_ ∧ _))

theorem Innermost.unique {o o' i : Nat} (h : l.Innermost o i) (h' : l.Innermost o' i) : o = o' :=
  Nat.le_antisymm (h'.2 o h.1.2.1 h.1) (h.2 o' h'.1.2.1 h'.1)

/-! ## Pairs of brackets -/

theorem Nests.exists_link_of_isCloser {i j x : Nat} (h : l.Nests i j) (hi : i ≤ x) (hj : x < j)
    (hx : Bracket.isCloser (l.text x) = true) : ∃ o, l.link? x = some o ∧ o < x := by
  induction h with
  | nil => omega
  | @plain i j _ hc _ _ ih =>
    rcases Nat.eq_or_lt_of_le hi with rfl | hi
    · rw [hc] at hx
      cases hx
    · exact ih hi hj
  | @pair i c j hpair _ hc hin hout ihin ihout =>
    have := hin.le
    rcases Nat.eq_or_lt_of_le hi with rfl | hi
    · unfold Bracket.isCloser at hx
      unfold Bracket.closerOf? at hpair
      simp only [Bool.or_eq_true, decide_eq_true_eq] at hx
      rcases hx with (hx | hx) | hx <;> rw [hx] at hpair <;> simp at hpair
    · rcases Nat.lt_trichotomy x c with hxc | rfl | hxc
      · exact ihin hi hxc
      · exact ⟨i, hc, by omega⟩
      · exact ihout hxc hj

theorem Nests.exists_link_of_isOpener {i j x : Nat} (h : l.Nests i j) (hi : i ≤ x) (hj : x < j)
    (hx : Bracket.isOpener (l.text x) = true) : ∃ c, l.link? x = some c ∧ x < c := by
  induction h with
  | nil => omega
  | @plain i j ho _ _ _ ih =>
    rcases Nat.eq_or_lt_of_le hi with rfl | hi
    · rw [ho] at hx
      cases hx
    · exact ih hi hj
  | @pair i c j hpair hc hi' hin hout ihin ihout =>
    have := hin.le
    rcases Nat.eq_or_lt_of_le hi with rfl | hi
    · exact ⟨c, hc, by omega⟩
    · rcases Nat.lt_trichotomy x c with hxc | rfl | hxc
      · exact ihin hi hxc
      · -- a bracket that closes a pair opens none
        have hcloser : Bracket.isOpener (l.text x) = false := by
          unfold Bracket.closerOf? at hpair
          repeat' split at hpair
          · rw [← Option.some.inj hpair]; decide
          · rw [← Option.some.inj hpair]; decide
          · rw [← Option.some.inj hpair]; decide
          · cases hpair
        rw [hcloser] at hx
        cases hx
      · exact ihout hxc hj

namespace WellFormed

theorem link?_symm (h : l.WellFormed) {x y : Nat} (hl : l.link? x = some y) :
    l.link? y = some x :=
  (h.nests.link_symm (Nat.zero_le x) (h.lt_size_of_link? hl) hl).2

theorem closing?_iff (h : l.WellFormed) {o c : Nat} :
    l.closing? o = some c ↔ l.link? c = some o ∧ o < c := by
  constructor
  · intro hc
    obtain ⟨hl, _⟩ := Option.filter_eq_some_iff.mp hc
    exact ⟨h.link?_symm hl, lt_of_closing? hc⟩
  · rintro ⟨hl, hlt⟩
    exact Option.filter_eq_some_iff.mpr ⟨h.link?_symm hl, by simpa using hlt⟩

/-- A bracket closes one pair only. -/
theorem closing?_injective (h : l.WellFormed) {o o' c : Nat} (ho : l.closing? o = some c)
    (ho' : l.closing? o' = some c) : o = o' :=
  Option.some.inj ((h.closing?_iff.mp ho).1.symm.trans (h.closing?_iff.mp ho').1)

/-- Every opening brace opens a pair. -/
theorem exists_closer (h : l.WellFormed) {o : Nat} (ho : l.text o = "\x7b") :
    ∃ c, l.closing? o = some c := by
  have hlt := lt_size_of_text ho (by decide)
  obtain ⟨c, hlink, hoc⟩ :=
    h.nests.exists_link_of_isOpener (Nat.zero_le o) hlt (by rw [ho]; decide)
  exact ⟨c, Option.filter_eq_some_iff.mpr ⟨hlink, by simpa using hoc⟩⟩

/-- Every closing brace closes a pair. -/
theorem exists_opener (h : l.WellFormed) {c : Nat} (hc : l.text c = "\x7d") :
    ∃ o, l.closing? o = some c ∧ l.text o = "\x7b" := by
  have hlt := lt_size_of_text hc (by decide)
  obtain ⟨o, hlink, hoc⟩ :=
    h.nests.exists_link_of_isCloser (Nat.zero_le c) hlt (by rw [hc]; decide)
  have hclose := h.closing?_iff.mpr ⟨hlink, hoc⟩
  refine ⟨o, hclose, ?_⟩
  have hpair := h.text_of_closing? hclose
  rw [hc] at hpair
  unfold Bracket.closerOf? at hpair
  split at hpair
  · simp at hpair
  · split at hpair
    · simp at hpair
    · split at hpair
      · assumption
      · cases hpair

/-- One end of a pair stands between the brackets of another one exactly if the other end does. -/
theorem nested_iff (h : l.WellFormed) {x y o c : Nat} (hxy : l.closing? x = some y)
    (hoc : l.closing? o = some c) : (x ≤ o ∧ o ≤ y) ↔ (x ≤ c ∧ c ≤ y) := by
  have hlx := (Option.filter_eq_some_iff.mp hxy).1
  have hlo := (Option.filter_eq_some_iff.mp hoc).1
  have hly := (h.closing?_iff.mp hxy).1
  have hlc := (h.closing?_iff.mp hoc).1
  have hlt := lt_of_closing? hxy
  have hlt' := lt_of_closing? hoc
  have hcross : ∀ {z w : Nat}, x < z → z < y → l.link? z = some w → x < w ∧ w < y :=
    h.nests.no_crossing (Nat.zero_le x) (h.lt_size_of_link? hlx) hlx
  constructor
  · rintro ⟨hx, hy⟩
    rcases Nat.eq_or_lt_of_le hx with rfl | hx
    · obtain rfl := Option.some.inj (hxy.symm.trans hoc)
      omega
    rcases Nat.eq_or_lt_of_le hy with rfl | hy
    · obtain rfl := Option.some.inj (hly.symm.trans hlo)
      omega
    have := hcross hx hy hlo
    omega
  · rintro ⟨hx, hy⟩
    rcases Nat.eq_or_lt_of_le hx with rfl | hx
    · obtain rfl := Option.some.inj (hlx.symm.trans hlc)
      omega
    rcases Nat.eq_or_lt_of_le hy with rfl | hy
    · obtain rfl := h.closing?_injective hxy hoc
      omega
    have := hcross hx hy hlc
    omega

end WellFormed

/-! ## Balanced stretches -/

/-- Of every pair of braces, the tokens from `i` up to `j` hold both or none. -/
def Balanced (l : Listing) (i j : Nat) : Prop :=
  ∀ o c, l.text o = "\x7b" → l.closing? o = some c → ((i ≤ o ∧ o < j) ↔ (i ≤ c ∧ c < j))

namespace Balanced

variable {i j k : Nat}

theorem nil (l : Listing) (i : Nat) : l.Balanced i i := by
  intro o c _ _
  omega

theorem append (h : l.Balanced i j) (h' : l.Balanced j k) (hij : i ≤ j) (hjk : j ≤ k) :
    l.Balanced i k := by
  intro o c ho hc
  have := h o c ho hc
  have := h' o c ho hc
  omega

theorem of_no_brace (hl : l.WellFormed)
    (h : ∀ x, i ≤ x → x < j → l.text x ≠ "\x7b" ∧ l.text x ≠ "\x7d") : l.Balanced i j := by
  intro o c ho hc
  constructor
  · rintro ⟨hio, hoj⟩
    exact absurd ho (h o hio hoj).1
  · rintro ⟨hic, hcj⟩
    exact absurd (hl.text_close_brace hc ho) (h c hic hcj).2

theorem token (hl : l.WellFormed) (hopen : l.text i ≠ "\x7b") (hclose : l.text i ≠ "\x7d") :
    l.Balanced i (i + 1) := by
  refine of_no_brace hl fun x hix hxi => ?_
  obtain rfl : i = x := by omega
  exact ⟨hopen, hclose⟩

theorem push (h : l.Balanced i j) (hl : l.WellFormed) (hij : i ≤ j) (hopen : l.text j ≠ "\x7b")
    (hclose : l.text j ≠ "\x7d") : l.Balanced i (j + 1) :=
  h.append (token hl hopen hclose) hij (Nat.le_succ j)

theorem name (h : l.Balanced i j) (hl : l.WellFormed) (hij : i ≤ j) (hn : l.isName j = true) :
    l.Balanced i (j + 1) :=
  h.push hl hij (hl.text_ne_of_isName hn rfl) (hl.text_ne_of_isName hn rfl)

/-- A last token that is no brace does not matter. -/
theorem pop (h : l.Balanced i (j + 1)) (hl : l.WellFormed) (hopen : l.text j ≠ "\x7b")
    (hclose : l.text j ≠ "\x7d") : l.Balanced i j := by
  intro o c ho hc
  have hne : o ≠ j := by
    rintro rfl
    exact hopen ho
  have hne' : c ≠ j := by
    rintro rfl
    exact hclose (hl.text_close_brace hc ho)
  have := h o c ho hc
  omega

/-- A bracketed part is balanced, whatever its brackets are. -/
theorem pair (hl : l.WellFormed) {c : Nat} (hc : l.closing? i = some c) :
    l.Balanced i (c + 1) := by
  intro o c' _ hc'
  have := hl.nested_iff hc hc'
  omega

end Balanced

/-! ## The stack of open blocks -/

/-- The blocks that are open before the token at `i` is read, the innermost first; only those are
counted that open at `b` or behind it. -/
structure OpenAt (l : Listing) (b i : Nat) (os : List Nat) : Prop where
  sorted : os.Pairwise (· > ·)
  mem : ∀ o, o ∈ os ↔ b ≤ o ∧ o < i ∧ l.text o = "\x7b" ∧ ∃ c ∈ l.closing? o, i ≤ c

namespace OpenAt

variable {b i j : Nat} {os : List Nat}

theorem start {c : Nat} (hb : l.text b = "\x7b") (hc : l.closing? b = some c) :
    l.OpenAt b (b + 1) [b] := by
  refine ⟨List.pairwise_singleton _ _, fun o => ?_⟩
  rw [List.mem_singleton]
  constructor
  · rintro rfl
    exact ⟨Nat.le_refl _, Nat.lt_succ_self _, hb, c, hc, lt_of_closing? hc⟩
  · rintro ⟨hle, hlt, _⟩
    omega

/-- A balanced stretch leaves the stack alone. -/
theorem balanced (h : l.OpenAt b i os) (hij : i ≤ j) (hb : l.Balanced i j) : l.OpenAt b j os := by
  refine ⟨h.sorted, fun o => (h.mem o).trans ?_⟩
  constructor
  · rintro ⟨hle, hlt, ht, c, hc, hic⟩
    have := hb o c ht hc
    exact ⟨hle, by omega, ht, c, hc, by omega⟩
  · rintro ⟨hle, hlt, ht, c, hc, hjc⟩
    have := hb o c ht hc
    exact ⟨hle, by omega, ht, c, hc, by omega⟩

theorem token (h : l.OpenAt b i os) (hl : l.WellFormed) (hopen : l.text i ≠ "\x7b")
    (hclose : l.text i ≠ "\x7d") : l.OpenAt b (i + 1) os :=
  h.balanced (Nat.le_succ i) (.token hl hopen hclose)

/-- A `{` opens a block. -/
theorem enter (h : l.OpenAt b i os) (hl : l.WellFormed) (hbi : b ≤ i) (ht : l.text i = "\x7b")
    {c : Nat} (hc : l.closing? i = some c) : l.OpenAt b (i + 1) (i :: os) := by
  refine ⟨List.pairwise_cons.mpr ⟨fun o ho => ((h.mem o).mp ho).2.1, h.sorted⟩, fun o => ?_⟩
  rw [List.mem_cons, h.mem o]
  constructor
  · rintro (rfl | ⟨hle, hlt, hto, c', hc', hic⟩)
    · exact ⟨hbi, Nat.lt_succ_self _, ht, c, hc, lt_of_closing? hc⟩
    · refine ⟨hle, by omega, hto, c', hc', Nat.lt_of_le_of_ne hic ?_⟩
      rintro rfl
      have hbrace := hl.text_close_brace hc' hto
      rw [ht] at hbrace
      exact absurd hbrace (by decide)
  · rintro ⟨hle, hlt, hto, c', hc', hic⟩
    rcases Nat.eq_or_lt_of_le (Nat.le_of_lt_succ hlt) with rfl | hlt
    · exact .inl rfl
    · exact .inr ⟨hle, hlt, hto, c', hc', by omega⟩

/-- A `}` closes the innermost block. -/
theorem leave (h : l.OpenAt b i os) (hl : l.WellFormed) {e : Nat} (hb : l.closing? b = some e)
    (hbi : b < i) (hie : i < e) (ht : l.text i = "\x7d") :
    ∃ o rest, os = o :: rest ∧ l.OpenAt b (i + 1) rest := by
  obtain ⟨o, hoi, hto⟩ := hl.exists_opener ht
  have hlt := lt_of_closing? hoi
  have hbo := (hl.nested_iff hb hoi).mpr ⟨Nat.le_of_lt hbi, Nat.le_of_lt hie⟩
  have hmem : o ∈ os := (h.mem o).mpr ⟨hbo.1, hlt, hto, i, hoi, Nat.le_refl i⟩
  cases os with
  | nil => cases hmem
  | cons x rest =>
    obtain ⟨hx, hrest⟩ := List.pairwise_cons.mp h.sorted
    obtain ⟨_, hxi, _, cx, hcx, hicx⟩ := (h.mem x).mp List.mem_cons_self
    -- blocks nest, so the block that is closed is the one opened last
    have hxo : x = o := by
      rcases List.mem_cons.mp hmem with rfl | hmem
      · rfl
      · have hgt : o < x := hx o hmem
        have hin := (hl.nested_iff hoi hcx).mp ⟨Nat.le_of_lt hgt, Nat.le_of_lt hxi⟩
        obtain rfl : cx = i := by omega
        exact hl.closing?_injective hcx hoi
    subst hxo
    refine ⟨x, rest, rfl, hrest, fun y => ?_⟩
    constructor
    · intro hy
      obtain ⟨hle, hlt, hty, c, hc, hic⟩ := (h.mem y).mp (List.mem_cons_of_mem _ hy)
      refine ⟨hle, by omega, hty, c, hc, Nat.lt_of_le_of_ne hic ?_⟩
      rintro rfl
      have := hx y hy
      obtain rfl := hl.closing?_injective hc hoi
      omega
    · rintro ⟨hle, hlt, hty, c, hc, hic⟩
      have hne : y ≠ i := by
        rintro rfl
        rw [ht] at hty
        exact absurd hty (by decide)
      have hy : y ∈ x :: rest := (h.mem y).mpr ⟨hle, by omega, hty, c, hc, by omega⟩
      rcases List.mem_cons.mp hy with rfl | hy
      · obtain rfl := Option.some.inj (hc.symm.trans hoi)
        omega
      · exact hy

/-- Where no block opens, blocks can only close. -/
theorem drop (h : l.OpenAt b i os) (hl : l.WellFormed) {e : Nat} (hb : l.closing? b = some e)
    (hbi : b < i) (hij : i ≤ j) (hje : j ≤ e)
    (hno : ∀ x, i ≤ x → x < j → l.text x ≠ "\x7b") : ∃ n, l.OpenAt b j (os.drop n) := by
  induction hij with
  | refl => exact ⟨0, h⟩
  | @step j hij ih =>
    obtain ⟨n, hn⟩ := ih (Nat.le_of_succ_le hje) fun x hx hxj => hno x hx (Nat.lt_succ_of_lt hxj)
    have hopen := hno j hij (Nat.lt_succ_self j)
    rcases decEq (l.text j) "\x7d" with hclose | hclose
    · exact ⟨n, hn.token hl hopen hclose⟩
    · obtain ⟨o, rest, he, hrest⟩ := hn.leave hl hb (Nat.lt_of_lt_of_le hbi hij) hje hclose
      refine ⟨n + 1, ?_⟩
      rw [← List.tail_drop, he]
      exact hrest

/-- Around a token that is no closing brace, the head of the stack is the innermost block. -/
theorem innermost {o : Nat} (h : l.OpenAt b i (o :: os)) (hl : l.WellFormed)
    (ht : l.text i ≠ "\x7d") : l.Innermost o i := by
  have hopen : ∀ {x c : Nat}, l.text x = "\x7b" → l.closing? x = some c → i ≤ c → i < c := by
    intro x c hx hc hic
    refine Nat.lt_of_le_of_ne hic ?_
    rintro rfl
    exact ht (hl.text_close_brace hc hx)
  obtain ⟨hbo, hoi, hto, c, hc, hic⟩ := (h.mem o).mp List.mem_cons_self
  refine ⟨⟨hto, hoi, c, hc, hopen hto hc hic⟩, ?_⟩
  rintro x _ ⟨htx, hxi, cx, hcx, hicx⟩
  rcases Nat.lt_or_ge x b with hxb | hbx
  · omega
  · have hx : x ∈ o :: os := (h.mem x).mpr ⟨hbx, hxi, htx, cx, hcx, Nat.le_of_lt hicx⟩
    rcases List.mem_cons.mp hx with rfl | hx
    · exact Nat.le_refl _
    · exact Nat.le_of_lt ((List.pairwise_cons.mp h.sorted).1 x hx)

end OpenAt

end StackEscape.Listing
