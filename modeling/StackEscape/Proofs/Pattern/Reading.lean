import StackEscape.Pattern
import StackEscape.Proofs.Program

/-!
# Reading patterns

A pattern matches word by word. The lemmas here say what one word at the front of a pattern asks for
and where the next one is looked for, so that what a whole pattern stands for can be read off its
words.
-/

namespace StackEscape

/-- The texts that end a statement, so that another one may begin behind them. -/
def IsBoundary (w : String) : Prop := w = ";" ∨ w = "\x7b" ∨ w = "\x7d"

instance (w : String) : Decidable (IsBoundary w) := inferInstanceAs (Decidable (_ ∨ _ ∨ _))

/-- Behind the token at `i` if that is `w`, and at `i` otherwise. -/
def Listing.passIf (l : Listing) (w : String) (i : Nat) : Nat := if l.text i = w then i + 1 else i

theorem Listing.le_passIf (l : Listing) (w : String) (i : Nat) : i ≤ l.passIf w i := by
  unfold passIf
  split <;> omega

theorem Listing.passIf_le (l : Listing) (w : String) (i : Nat) : l.passIf w i ≤ i + 1 := by
  unfold passIf
  split <;> omega

/-- What is passed over has the text. -/
theorem Listing.text_of_lt_passIf {l : Listing} {w : String} {i j : Nat} (hi : i ≤ j)
    (hj : j < l.passIf w i) : l.text j = w := by
  unfold passIf at hj
  split at hj
  · next h =>
    obtain rfl : i = j := by omega
    exact h
  · omega

namespace Atom

/-- Whether an atom stands for the token at `i`. -/
def StandsAt (p : Program) (i : Nat) (a : Atom) : Prop :=
  ∃ t, p.listing.get? i = some t ∧ a.accepts t (p.variableIdAt? i).isSome = true

theorem standsAt_text {p : Program} {i : Nat} {w : String} (hw : w ≠ "") :
    (Atom.text w).StandsAt p i ↔ p.listing.text i = w := by
  unfold StandsAt Listing.text
  cases p.listing.get? i with
  | none => simpa using hw.symm
  | some t => simp [accepts]

theorem standsAt_name {p : Program} {i : Nat} :
    Atom.name.StandsAt p i ↔ p.listing.isName i = true := by
  rw [Listing.isName_iff]
  simp [StandsAt, accepts]

theorem accepts_oneOf {t : Token} {bound : Bool} {cs : List Char} :
    (Atom.oneOf cs).accepts t bound = true ↔ ∃ c ∈ cs, t.text = String.ofList [c] := by
  simp only [accepts]
  constructor
  · intro h
    split at h
    · next c hc =>
      refine ⟨c, List.contains_iff_mem.mp h, ?_⟩
      rw [← hc, String.ofList_toList]
    · cases h
  · rintro ⟨c, hc, ht⟩
    rw [ht]
    simpa using hc

theorem standsAt_oneOf {p : Program} {i : Nat} {cs : List Char} :
    (Atom.oneOf cs).StandsAt p i ↔ ∃ c ∈ cs, p.listing.text i = String.ofList [c] := by
  unfold StandsAt Listing.text
  cases p.listing.get? i with
  | none =>
    simp only [reduceCtorEq, false_and, exists_false, false_iff, not_exists, not_and]
    intro c _ h
    simpa using congrArg String.toList h
  | some t => simp only [Option.some.injEq, exists_eq_left', accepts_oneOf]

theorem standsAt_boundary {p : Program} {i : Nat} :
    (Atom.oneOf [';', '\x7b', '\x7d']).StandsAt p i ↔ IsBoundary (p.listing.text i) := by
  rw [standsAt_oneOf]
  simp [IsBoundary]

end Atom

namespace Element

/-- The word that stands for a token with the text `w`. -/
def word (w : String) : Element := .choice [.text w] false

def anyName : Element := .choice [.name] false

def boundary : Element := .choice [.oneOf [';', '\x7b', '\x7d']] false

variable {p : Program} {i j : Nat}

def StandsAt (p : Program) (i : Nat) : Element → Prop
  | .choice atoms _ => ∃ a ∈ atoms, a.StandsAt p i
  | .otherThan w => ∃ t, p.listing.get? i = some t ∧ t.text ≠ w

/-- Whether an element may stand for nothing where the next token is the one at `i`. -/
def Passes (p : Program) (i : Nat) : Element → Prop
  | .choice _ optional => optional = true
  | .otherThan _ => p.listing.get? i = none

/-- What an element takes stands where it was looked for. -/
theorem eq_of_place? {e : Element} (h : e.place? p i = some (some j)) : i = j := by
  cases e with
  | choice atoms optional =>
    simp only [place?] at h
    split at h
    · exact Option.some.inj (Option.some.inj h)
    · split at h <;> cases h
  | otherThan w =>
    simp only [place?] at h
    split at h
    · cases h
    · split at h
      · cases h
      · exact Option.some.inj (Option.some.inj h)

theorem standsAt_choice {atoms : List Atom} {optional : Bool} :
    (Element.choice atoms optional).StandsAt p i ↔
      (p.listing.get? i).any
        (fun t => atoms.any (·.accepts t (p.variableIdAt? i).isSome)) = true := by
  simp only [StandsAt, Atom.StandsAt, Option.any_eq_true, List.any_eq_true]
  constructor
  · rintro ⟨a, ha, t, ht, haccepts⟩
    exact ⟨t, ht, a, ha, haccepts⟩
  · rintro ⟨t, ht, a, ha, haccepts⟩
    exact ⟨a, ha, t, ht, haccepts⟩

/-- An element that stands for the next token takes it. -/
theorem place?_of_standsAt {e : Element} (h : e.StandsAt p i) : e.place? p i = some (some i) := by
  cases e with
  | choice atoms optional => exact if_pos (standsAt_choice.mp h)
  | otherThan w =>
    obtain ⟨t, ht, hne⟩ := h
    simp [place?, ht, hne]

/-- One that does not takes none if it may stand for nothing. -/
theorem place?_of_passes {e : Element} (h : e.Passes p i) (hs : ¬ e.StandsAt p i) :
    e.place? p i = some none := by
  cases e with
  | choice atoms optional =>
    obtain rfl : optional = true := h
    exact if_neg fun hhit => hs (standsAt_choice.mpr hhit)
  | otherThan w =>
    have hnone : p.listing.get? i = none := h
    simp [place?, hnone]

theorem standsAt_of_place? {e : Element} (h : e.place? p i = some (some j)) :
    e.StandsAt p j := by
  obtain rfl := eq_of_place? h
  cases e with
  | choice atoms optional =>
    simp only [place?] at h
    split at h
    · next hhit => exact standsAt_choice.mpr hhit
    · split at h <;> cases h
  | otherThan w =>
    simp only [place?] at h
    split at h
    · cases h
    · next t ht =>
      split at h
      · cases h
      · next hne => exact ⟨t, ht, hne⟩

theorem passes_of_place? {e : Element} (h : e.place? p i = some none) : e.Passes p i := by
  cases e with
  | choice atoms optional =>
    simp only [place?] at h
    split at h
    · cases h
    · split at h
      · next hoptional => exact hoptional
      · cases h
  | otherThan w =>
    simp only [place?] at h
    split at h
    · next hnone => exact hnone
    · split at h <;> cases h

theorem standsAt_word {w : String} (hw : w ≠ "") {optional : Bool} :
    (Element.choice [.text w] optional).StandsAt p i ↔ p.listing.text i = w := by
  simp [StandsAt, Atom.standsAt_text hw]

theorem standsAt_otherThan {w : String} :
    (Element.otherThan w).StandsAt p i ↔ i < p.listing.size ∧ p.listing.text i ≠ w := by
  constructor
  · rintro ⟨t, ht, hne⟩
    exact ⟨Listing.lt_size_of_get? ht, Listing.text_of_get? ht ▸ hne⟩
  · rintro ⟨hi, hne⟩
    have ht : p.listing.get? i = some p.listing.tokens[i] := Array.getElem?_eq_getElem hi
    exact ⟨_, ht, Listing.text_of_get? ht ▸ hne⟩

theorem standsAt_anyName : anyName.StandsAt p i ↔ p.listing.isName i = true := by
  simp [StandsAt, anyName, Atom.standsAt_name]

theorem isName_of_place? (h : anyName.place? p i = some (some j)) : p.listing.isName i = true := by
  obtain rfl := eq_of_place? h
  exact standsAt_anyName.mp (standsAt_of_place? h)

end Element

namespace Pattern

open Atom

variable {p : Program} {i : Nat} {e : Element} {es : List Element}

def Lies (p : Program) (i : Nat) (es : List Element) : Prop := (place? p i es).isSome = true

theorem matchesAt_iff {pattern : Pattern} {p : Program} {i : Nat} :
    pattern.matchesAt p i = true ↔ Lies p i pattern.elements := by
  simp [matchesAt, matchAt?, Lies]

theorem lies_nil : Lies p i [] ↔ True := by
  simp [Lies, place?]

/-- The first of some elements takes its token whenever that is there. -/
theorem lies_cons :
    Lies p i (e :: es) ↔ e.StandsAt p i ∧ Lies p (i + 1) es ∨
      ¬ e.StandsAt p i ∧ e.Passes p i ∧ Lies p i es := by
  unfold Lies
  rw [place?]
  by_cases hs : e.StandsAt p i
  · simp [hs, Element.place?_of_standsAt hs]
  · by_cases hpasses : e.Passes p i
    · simp [hs, hpasses, Element.place?_of_passes hpasses hs]
    · have hnone : e.place? p i = none := by
        cases hplace : e.place? p i with
        | none => rfl
        | some position =>
          cases position with
          | none => exact absurd (Element.passes_of_place? hplace) hpasses
          | some j =>
            obtain rfl := Element.eq_of_place? hplace
            exact absurd (Element.standsAt_of_place? hplace) hs
      simp [hs, hpasses, hnone]

theorem lies_choice {a : Atom} :
    Lies p i (.choice [a] false :: es) ↔ a.StandsAt p i ∧ Lies p (i + 1) es := by
  simp [lies_cons, Element.StandsAt, Element.Passes]

theorem lies_word {w : String} (hw : w ≠ "") :
    Lies p i (.word w :: es) ↔ p.listing.text i = w ∧ Lies p (i + 1) es := by
  rw [Element.word, lies_choice, standsAt_text hw]

theorem lies_anyName :
    Lies p i (.anyName :: es) ↔ p.listing.isName i = true ∧ Lies p (i + 1) es := by
  rw [Element.anyName, lies_choice, standsAt_name]

theorem lies_boundary :
    Lies p i (.boundary :: es) ↔ IsBoundary (p.listing.text i) ∧ Lies p (i + 1) es := by
  rw [Element.boundary, lies_choice, standsAt_boundary]

theorem lies_optional {w : String} (hw : w ≠ "") :
    Lies p i (.choice [.text w] true :: es) ↔ Lies p (p.listing.passIf w i) es := by
  rw [lies_cons, Element.standsAt_word hw, Listing.passIf]
  split <;> simp_all [Element.Passes]

theorem lies_otherThan_last {w : String} (hw : w ≠ "") :
    Lies p i [.otherThan w] ↔ p.listing.text i ≠ w := by
  rw [lies_cons, Element.standsAt_otherThan]
  rcases Nat.lt_or_ge i p.listing.size with hi | hi
  · have hsome : p.listing.get? i = some p.listing.tokens[i] := Array.getElem?_eq_getElem hi
    simp [lies_nil, Element.Passes, hi, hsome]
  · have hnone : p.listing.get? i = none := Array.getElem?_eq_none hi
    simp [lies_nil, Element.Passes, Nat.not_lt.mpr hi, Listing.text_eq_empty hi, hnone, hw.symm]

/-! ## Captured tokens -/

/-- The token that an element captured is one that it stands for. -/
theorem exists_of_place? {i stop : Nat} {es : List Element} {positions : List (Option Nat)}
    (h : place? p i es = some (positions, stop)) {n j : Nat}
    (hj : positions[n]? = some (some j)) : ∃ e, es[n]? = some e ∧ e.place? p j = some (some j) := by
  induction es generalizing i positions n with
  | nil =>
    obtain ⟨rfl, _⟩ := Prod.mk.inj (Option.some.inj h)
    cases hj
  | cons e es ih =>
    simp only [place?] at h
    split at h
    · cases h
    · next position hplace =>
      obtain ⟨⟨rest, last⟩, hrest, heq⟩ := Option.map_eq_some_iff.mp h
      obtain ⟨rfl, rfl⟩ := Prod.mk.inj heq
      cases n with
      | zero =>
        obtain rfl := Option.some.inj hj
        obtain rfl := Element.eq_of_place? hplace
        exact ⟨e, rfl, hplace⟩
      | succ n => exact ih hrest hj

theorem exists_of_get? {pattern : Pattern} {i n j : Nat} {c : Captures}
    (hc : pattern.matchAt? p i = some c) (hj : c.get? n = some j) :
    ∃ e, pattern.elements[n]? = some e ∧ e.place? p j = some (some j) := by
  obtain ⟨⟨positions, stop⟩, hplace, rfl⟩ := Option.map_eq_some_iff.mp hc
  exact exists_of_place? hplace (Option.join_eq_some_iff.mp hj)

end Pattern

end StackEscape
