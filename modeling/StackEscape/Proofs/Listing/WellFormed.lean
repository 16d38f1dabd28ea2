import StackEscape.Proofs.Listing.Nesting
import StackEscape.Proofs.Listing.Order
import StackEscape.Proofs.Listing.Spelling

/-!
# Well-formed listings

What every listing of a source has in common, whatever the source says: its tokens are in order, its
names are words, and its brackets nest. The lemmas here are the ones that later modules use; they
never look at the source again.
-/

namespace StackEscape

def Location.position (loc : Location) : Position := ⟨loc.line, loc.column⟩

namespace Listing

/-- What cutting a source and linking its brackets ensures. -/
structure WellFormed (l : Listing) : Prop where
  ordered : l.tokens.toList.Pairwise fun a b => a.position.Precedes b.position
  words : ∀ t ∈ l.tokens.toList, t.kind = .name → Lexeme.isWord t.text = true
  linked : l.links.size = l.size
  nests : l.Nests 0 l.size

/-- The tokens of a listing are cut from its source, and its links are those of its tokens. -/
theorem scan_of_ofSource {file source : String} {l : Listing} (h : ofSource file source = .ok l) :
    Lexeme.scan .start true source.toList = .ok l.tokens.toList ∧
      Bracket.link l.tokens = .ok l.links := by
  unfold ofSource at h
  split at h
  · next tokens hscan =>
    unfold ofTokens at h
    split at h
    · next links hlink =>
      obtain rfl := Except.ok.inj h
      exact ⟨hscan, hlink⟩
    · cases h
  · cases h

theorem wellFormed_ofSource {file source : String} {l : Listing}
    (h : ofSource file source = .ok l) : l.WellFormed := by
  obtain ⟨hscan, hlink⟩ := scan_of_ofSource h
  refine ⟨(Lexeme.ordered_scan hscan).2, fun t ht => (Lexeme.spelled_scan hscan t ht).isWord, ?_,
    nests_of_link hlink⟩
  rw [Bracket.size_linkFrom hlink, Array.size_replicate]
  rfl

/-- What is computed without a fault has a result. -/
theorem exists_ok {ε α : Type} {e : Except ε α} (h : e.toOption.isSome = true) :
    ∃ a, e = .ok a := by
  cases e with
  | ok a => exact ⟨a, rfl⟩
  | error fault => cases h

/-- What is computed without a fault has a result, with a property that can be computed. -/
theorem exists_ok_of_any {ε α : Type} {e : Except ε α} {P : α → Prop} [DecidablePred P]
    (h : e.toOption.any (fun a => decide (P a)) = true) : ∃ a, e = .ok a ∧ P a := by
  cases e with
  | ok a => exact ⟨a, rfl, of_decide_eq_true h⟩
  | error fault => cases h

/-- Which fault a computation ends with can be computed too. -/
theorem eq_error_of_any {ε α : Type} [DecidableEq ε] {e : Except ε α} {fault : ε}
    (h : (match e with | .ok _ => false | .error f => decide (f = fault)) = true) :
    e = .error fault := by
  cases e with
  | ok a => cases h
  | error f => rw [of_decide_eq_true h]

/-! ## Tokens -/

theorem isName_iff {l : Listing} {i : Nat} :
    l.isName i = true ↔ ∃ t, l.get? i = some t ∧ t.kind = .name := by
  unfold isName hasKind
  cases h : l.get? i with
  | none => simp
  | some t => simp

theorem text_of_get? {l : Listing} {i : Nat} {t : Token} (h : l.get? i = some t) :
    l.text i = t.text := by
  simp [text, h]

theorem lt_size_of_get? {l : Listing} {i : Nat} {t : Token} (h : l.get? i = some t) :
    i < l.size := by
  obtain ⟨hi, _⟩ := Array.getElem?_eq_some_iff.mp h
  exact hi

theorem lt_size_of_isName {l : Listing} {i : Nat} (h : l.isName i = true) : i < l.size := by
  obtain ⟨t, ht, _⟩ := isName_iff.mp h
  exact lt_size_of_get? ht

/-- Past the end there is no text. -/
theorem text_eq_empty {l : Listing} {i : Nat} (h : l.size ≤ i) : l.text i = "" := by
  have hg : l.get? i = none := Array.getElem?_eq_none h
  simp [text, hg]

theorem lt_size_of_text {l : Listing} {i : Nat} {w : String} (h : l.text i = w) (hw : w ≠ "") :
    i < l.size := by
  rcases Nat.lt_or_ge i l.size with hi | hi
  · exact hi
  · rw [text_eq_empty hi] at h
    exact absurd h.symm hw

namespace WellFormed

variable {l : Listing}

theorem isWord_of_isName (h : l.WellFormed) {i : Nat} (hi : l.isName i = true) :
    Lexeme.isWord (l.text i) = true := by
  obtain ⟨t, ht, hk⟩ := isName_iff.mp hi
  rw [text_of_get? ht]
  exact h.words t (Array.mem_toList_iff.mpr (Array.mem_of_getElem? ht)) hk

/-- A name is never spelled like a bracket or an operator. -/
theorem text_ne_of_isName (h : l.WellFormed) {i : Nat} (hi : l.isName i = true) {w : String}
    (hw : Lexeme.isWord w = false) : l.text i ≠ w := by
  rintro rfl
  rw [h.isWord_of_isName hi] at hw
  cases hw

theorem isName_eq_false (h : l.WellFormed) {i : Nat} (hi : Lexeme.isWord (l.text i) = false) :
    l.isName i = false := by
  cases hn : l.isName i with
  | false => rfl
  | true => exact absurd rfl (h.text_ne_of_isName hn hi)

/-- Locations follow the order of the tokens. -/
theorem location_precedes (h : l.WellFormed) {i j : Nat} (hij : i < j) (hj : j < l.size) :
    (l.location i).position.Precedes (l.location j).position := by
  have hi : i < l.size := Nat.lt_trans hij hj
  have hgi : l.get? i = some l.tokens[i] := Array.getElem?_eq_getElem hi
  have hgj : l.get? j = some l.tokens[j] := Array.getElem?_eq_getElem hj
  simp only [location, hgi, hgj, Location.position]
  exact List.pairwise_iff_getElem.mp h.ordered i j hi hj hij

/-- Different tokens have different locations. -/
theorem location_injective (h : l.WellFormed) {i j : Nat} (hi : i < l.size) (hj : j < l.size)
    (heq : l.location i = l.location j) : i = j := by
  rcases Nat.lt_trichotomy i j with hlt | he | hlt
  · exact absurd (congrArg Location.position heq) (h.location_precedes hlt hj).ne
  · exact he
  · exact absurd (congrArg Location.position heq.symm) (h.location_precedes hlt hi).ne

/-! ## Brackets -/

theorem lt_size_of_link? (h : l.WellFormed) {i j : Nat} (hl : l.link? i = some j) :
    i < l.size := by
  rcases Nat.lt_or_ge i l.size with hi | hi
  · exact hi
  · rw [link?, Array.getElem?_eq_none (h.linked ▸ hi)] at hl
    cases hl

/-- The bracket that closes a pair belongs to the one that opens it, and the tokens between the two
nest. -/
theorem pair_of_closing? (h : l.WellFormed) {o c : Nat} (hc : l.closing? o = some c) :
    c < l.size ∧ Nests.Pair l o c := by
  have hlt := lt_of_closing? hc
  obtain ⟨hl, _⟩ := Option.filter_eq_some_iff.mp hc
  have ho := h.lt_size_of_link? hl
  exact ⟨(h.nests.link_mem (Nat.zero_le o) ho hl).2,
    h.nests.pair_of_link (Nat.zero_le o) ho hl hlt⟩

theorem text_of_closing? (h : l.WellFormed) {o c : Nat} (hc : l.closing? o = some c) :
    Bracket.closerOf? (l.text o) = some (l.text c) := (h.pair_of_closing? hc).2.closes

theorem text_close_brace (h : l.WellFormed) {o c : Nat} (hc : l.closing? o = some c)
    (ho : l.text o = "\x7b") : l.text c = "\x7d" := by
  have ht := h.text_of_closing? hc
  rw [ho] at ht
  exact (Option.some.inj ht).symm

end WellFormed

/-! ## Regions -/

/-- What opens in the region from `i` up to `stop` closes in it. -/
def PairsWithin (l : Listing) (i stop : Nat) : Prop :=
  ∀ o c, i ≤ o → o < stop → l.closing? o = some c → c < stop

theorem PairsWithin.mono {l : Listing} {i j stop : Nat} (h : l.PairsWithin i stop) (hij : i ≤ j) :
    l.PairsWithin j stop := fun o c ho hs hc => h o c (Nat.le_trans hij ho) hs hc

theorem PairsWithin.of_nests {l : Listing} {i stop : Nat} (h : l.Nests i stop) :
    l.PairsWithin i stop := by
  intro o c ho hs hc
  exact (h.link_mem ho hs (Option.filter_eq_some_iff.mp hc).1).2

/-- The region between two partners, cut off where the region around it ends. -/
theorem PairsWithin.inside {l : Listing} (hl : l.WellFormed) {i stop o c : Nat}
    (h : l.PairsWithin i stop) (hio : i ≤ o) (hc : l.closing? o = some c) :
    l.PairsWithin (o + 1) (min c stop) := by
  rcases Nat.lt_or_ge o stop with hs | hs
  · have hcs := h o c hio hs hc
    rw [Nat.min_eq_left (Nat.le_of_lt hcs)]
    exact .of_nests (hl.pair_of_closing? hc).2.inside
  · intro x y hx hxs
    omega

end Listing

end StackEscape
