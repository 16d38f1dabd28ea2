import StackEscape.Proofs.Outline.Regions
import StackEscape.Proofs.Outline.Walk

/-!
# Local types

Where a statement may begin with a word for a type, the walk through a function body looks for a `{`
behind it and goes on behind the brace that closes it, unless a `;`, `=` or `(` comes first. So it
passes over the local types that it comes by. What it passes over need not be one: that the `{`
belongs to the type is not asked.
-/

namespace StackEscape

namespace Listing

/-- The head of a type ends at `n`, with an optional list of bases up to the brace at `o`. -/
def EndsHead (l : Listing) (n o : Nat) : Prop :=
  n = o ∨ n < o ∧ l.text n = ":" ∧ ∀ y < o, n < y → l.text y ∉ [";", "(", ")", "\x7b", "\x7d"]

instance (l : Listing) (n o : Nat) : Decidable (l.EndsHead n o) :=
  inferInstanceAs (Decidable (_ ∨ _ ∧ _ ∧ _))

/-- The braces that open at `o` are those of the type whose definition begins at `m`: behind the
word for a type come an optional name and an optional list of bases. -/
def DefinesType (l : Listing) (m o : Nat) : Prop :=
  l.text m ∈ Body.typeWords ∧ l.text o = "\x7b" ∧
    (l.EndsHead (m + 1) o ∨ l.isName (m + 1) = true ∧ l.EndsHead (m + 2) o)

instance (l : Listing) (m o : Nat) : Decidable (l.DefinesType m o) :=
  inferInstanceAs (Decidable (_ ∧ _ ∧ (_ ∨ _ ∧ _)))

/-- The token at `i` stands between the braces of a type that is defined behind `b`. -/
def InLocalType (l : Listing) (b i : Nat) : Prop :=
  ∃ o < i, l.Encloses o i ∧ ∃ m < o, b < m ∧ l.DefinesType m o

instance (l : Listing) (b i : Nat) : Decidable (l.InLocalType b i) :=
  inferInstanceAs (Decidable (∃ o < i, _ ∧ ∃ m < o, _ ∧ _))

variable {l : Listing} {m n o : Nat}

theorem EndsHead.le (h : l.EndsHead n o) : n ≤ o := by
  rcases h with rfl | ⟨hlt, -⟩
  · exact Nat.le_refl n
  · exact Nat.le_of_lt hlt

theorem EndsHead.not_mem (h : l.EndsHead n o) {y : Nat} (hn : n ≤ y) (ho : y < o)
    (hequals : l.text y ≠ "=") : l.text y ∉ ["\x7b", ";", "=", "("] := by
  rcases h with rfl | ⟨-, hcolon, hno⟩
  · omega
  rcases Nat.eq_or_lt_of_le hn with rfl | hn
  · rw [hcolon]
    decide
  · intro hmem
    simp only [List.mem_cons, List.not_mem_nil, or_false] at hmem
    have hbase := hno y ho hn
    simp only [List.mem_cons, List.not_mem_nil, or_false, not_or] at hbase
    obtain ⟨hsemicolon, hparen, -, hbrace, -⟩ := hbase
    rcases hmem with h | h | h | h
    · exact hbrace h
    · exact hsemicolon h
    · exact hequals h
    · exact hparen h

/-- The first `{` behind the word for a type opens the type that is defined there, if any is and its
head has no `=`. -/
theorem DefinesType.opensFirst (hl : l.WellFormed) (h : l.DefinesType m o)
    (hequals : ∀ y < o, m < y → l.text y ≠ "=") : l.OpensFirst m o := by
  obtain ⟨-, hbrace, hends | ⟨hname, hends⟩⟩ := h
  · exact ⟨hends.le, hbrace, fun y ho hm => hends.not_mem hm ho (hequals y ho hm)⟩
  · refine ⟨Nat.le_of_succ_le hends.le, hbrace, fun y ho hm => ?_⟩
    rcases Nat.eq_or_lt_of_le hm with rfl | hn
    · intro hmem
      simp only [List.mem_cons, List.not_mem_nil, or_false] at hmem
      rcases hmem with h | h | h | h <;>
        exact hl.text_ne_of_isName hname (by decide) h
    · exact hends.not_mem hn ho (hequals y ho hm)

/-- The search ends with the first target. -/
theorem seek_eq_of_first {targets : List String} {stop i : Nat} (hi : i ≤ o) (ho : o ≤ stop)
    (htarget : l.text o ∈ targets) (hfirst : ∀ x < o, i ≤ x → l.text x ∉ targets) :
    l.seek targets stop i = o := by
  fun_induction l.seek targets stop i with
  | case1 i _ hw =>
    refine Nat.le_antisymm hi (Nat.not_lt.mp fun hlt => ?_)
    exact hfirst i hlt (Nat.le_refl i) (List.contains_iff_mem.mp hw)
  | case2 i _ hw ih =>
    have hne : i ≠ o := by
      rintro rfl
      exact hw (List.contains_iff_mem.mpr htarget)
    exact ih (by omega) fun x hx hix => hfirst x hx (by omega)
  | case3 => omega

end Listing

namespace Body

variable {l : Listing} {stop i m o c t : Nat} {fresh : Bool}

theorem localTypeEnd?_eq_some_iff {next : Nat} (hi : i < stop) :
    localTypeEnd? l stop i = some next ↔
      ∃ o c, l.OpensFirst i o ∧ o ≤ stop ∧ l.closing? o = some c ∧ next = c + 1 := by
  constructor
  · intro h
    obtain ⟨o, c, hseek, hfirst, hc, hnext⟩ := exists_braces_of_localTypeEnd? h
    exact ⟨o, c, hfirst, hseek ▸ Listing.seek_le hi, hc, hnext⟩
  · rintro ⟨o, c, hfirst, ho, hc, rfl⟩
    have hseek : l.seek ["\x7b", ";", "=", "("] stop (i + 1) = o :=
      Listing.seek_eq_of_first hfirst.behind ho (by rw [hfirst.brace]; decide) hfirst.first
    simp only [localTypeEnd?, hseek, hfirst.brace, if_true, hc, Option.map_some]

/-- The walk from `i` on comes by `m`; `begins` tells whether a statement may begin there. -/
inductive ComesBy (l : Listing) (stop : Nat) : Nat → Bool → Nat → Bool → Prop
  | here {i : Nat} {fresh : Bool} : ComesBy l stop i fresh i fresh
  | later {i m : Nat} {fresh begins : Bool} (inside : i < stop)
      (comes : ComesBy l stop (move l stop i fresh).next (move l stop i fresh).fresh m begins) :
      ComesBy l stop i fresh m begins

theorem ComesBy.le {begins : Bool} (h : ComesBy l stop i fresh m begins) : i ≤ m := by
  induction h with
  | here => exact Nat.le_refl _
  | @later i m fresh _ _ _ ih =>
    have hlt := lt_next_move l stop i fresh
    omega

theorem move_of_typeWord (hword : l.text i ∈ typeWords) :
    move l stop i fresh = if fresh then atStatement l stop i else pass l i := by
  have hopen : l.text i ≠ "\x7b" := text_ne_of_typeWord hword (by decide)
  have hclose : l.text i ≠ "\x7d" := text_ne_of_typeWord hword (by decide)
  have hsemicolon : l.text i ≠ ";" := text_ne_of_typeWord hword (by decide)
  have hfor : l.text i ≠ "for" := text_ne_of_typeWord hword (by decide)
  simp only [move, hopen, hclose, hsemicolon, hfor, if_false, decide_false, Bool.false_and]
  rfl

/-- A local type is passed over where a statement may begin, and nowhere else. -/
theorem move_eq_iff {next : Nat} (hword : l.text i ∈ typeWords)
    (hends : localTypeEnd? l stop i = some next) :
    move l stop i fresh = ⟨none, next, false⟩ ↔ fresh = true := by
  rw [move_of_typeWord hword]
  cases fresh with
  | true => simp [atStatement, hword, hends]
  | false =>
    -- the walk goes on with the next token, and braces are longer than that
    obtain ⟨o, c, -, hfirst, hc, rfl⟩ := exists_braces_of_localTypeEnd? hends
    have hio := hfirst.behind
    have hoc := Listing.lt_of_closing? hc
    simp only [pass, Bool.false_eq_true, if_false, Move.mk.injEq, iff_false, not_and]
    omega

/-- **What is passed over**: where the walk comes by a word for a type that a statement may begin
with, everything through the brace that closes the first `{` behind it. -/
theorem passesOver_iff : PassesOver l stop i fresh t ↔
    ∃ m o c, ComesBy l stop i fresh m true ∧ l.text m ∈ typeWords ∧ l.OpensFirst m o ∧ o ≤ stop ∧
      l.closing? o = some c ∧ m ≤ t ∧ t ≤ c := by
  constructor
  · intro h
    induction h with
    | @here i next t fresh inside keyword ends jumps behind before =>
      obtain rfl := (move_eq_iff keyword ends).mp jumps
      obtain ⟨o, c, hfirst, ho, hc, rfl⟩ := (localTypeEnd?_eq_some_iff inside).mp ends
      exact ⟨i, o, c, .here, keyword, hfirst, ho, hc, behind, Nat.lt_succ_iff.mp before⟩
    | later inside _ ih =>
      obtain ⟨m, o, c, hcomes, hrest⟩ := ih
      exact ⟨m, o, c, .later inside hcomes, hrest⟩
  · rintro ⟨m, o, c, hcomes, hword, hfirst, ho, hc, hmt, htc⟩
    generalize hbegins : true = begins at hcomes
    induction hcomes with
    | @here i fresh =>
      have hi : i < stop := Nat.lt_of_lt_of_le hfirst.behind ho
      have hends := (localTypeEnd?_eq_some_iff hi).mpr ⟨o, c, hfirst, ho, hc, rfl⟩
      exact .here hi hword hends ((move_eq_iff hword hends).mpr hbegins.symm) hmt
        (Nat.lt_succ_of_le htc)
    | later inside _ ih => exact .later inside (ih hword hfirst hmt hbegins)

/-- A local type that the walk comes by is passed over, from its first word through its last
brace. -/
theorem passesOver_of_definesType (hl : l.WellFormed) (hcomes : ComesBy l stop i fresh m true)
    (hdefines : l.DefinesType m o) (hequals : ∀ y < o, m < y → l.text y ≠ "=") (ho : o ≤ stop)
    (hc : l.closing? o = some c) (hmt : m ≤ t) (htc : t ≤ c) : PassesOver l stop i fresh t :=
  passesOver_iff.mpr
    ⟨m, o, c, hcomes, hdefines.1, hdefines.opensFirst hl hequals, ho, hc, hmt, htc⟩

/-- A name outside of local types that is passed over stands in the head of one, or between braces
that do not belong to the word for a type in front of them. -/
theorem PassesOver.head_or_foreign (hl : l.WellFormed) (h : PassesOver l stop i fresh t) {b : Nat}
    (hb : b < i) (hname : l.isName t = true) (hout : ¬ l.InLocalType b t) :
    ∃ m o c, ComesBy l stop i fresh m true ∧ l.text m ∈ typeWords ∧ l.OpensFirst m o ∧
      l.closing? o = some c ∧ m ≤ t ∧ t < c ∧ (t < o ∨ ¬ l.DefinesType m o) := by
  obtain ⟨m, o, c, hcomes, hword, hfirst, -, hc, hmt, htc⟩ := passesOver_iff.mp h
  have hbrace := hfirst.brace
  have hto : t ≠ o := by
    rintro rfl
    exact hl.text_ne_of_isName hname (by decide) hbrace
  have htc' : t ≠ c := by
    rintro rfl
    exact hl.text_ne_of_isName hname (by decide) (hl.text_close_brace hc hbrace)
  have hlt : t < c := Nat.lt_of_le_of_ne htc htc'
  refine ⟨m, o, c, hcomes, hword, hfirst, hc, hmt, hlt, ?_⟩
  -- between the braces of a type that is defined at `m` the name would stand in a local type
  rcases Nat.lt_or_ge t o with hhead | hle
  · exact .inl hhead
  · refine .inr fun hdefines => hout ?_
    have hot : o < t := Nat.lt_of_le_of_ne hle hto.symm
    have hbm : b < m := Nat.lt_of_lt_of_le hb hcomes.le
    exact ⟨o, hot, ⟨hbrace, hot, c, hc, hlt⟩, m, hfirst.behind, hbm, hdefines⟩

end Body

end StackEscape
