import StackEscape.Program
import StackEscape.Proofs.Symbol.Bindings
import StackEscape.Proofs.Symbol.Scopes

/-!
# Well-formed programs

What every parsed source has in common: a well-formed listing, names bound to variables of the same
name, and function scopes that are bodies in braces, one behind the other.
-/

namespace StackEscape

namespace Program

/-- The symbols of a program are those of the listing that its source is cut into. -/
theorem listing_of_ofSource {file source : String} {p : Program}
    (h : ofSource file source = .ok p) :
    Listing.ofSource file source = .ok p.listing ∧ p.symbols = .ofListing p.listing := by
  unfold ofSource at h
  cases hl : Listing.ofSource file source with
  | error fault => rw [hl] at h; cases h
  | ok l =>
    rw [hl] at h
    obtain rfl := Except.ok.inj h
    exact ⟨rfl, rfl⟩

/-- What parsing a source ensures. -/
structure WellFormed (p : Program) : Prop where
  listing : p.listing.WellFormed
  named : p.symbols.Named p.listing
  bodies : ∀ s ∈ p.symbols.functionScopes, SymbolTable.IsBody p.listing s
  apart : p.symbols.functionScopes.Pairwise fun a b => a.stop < b.start

theorem wellFormed_ofSource {file source : String} {p : Program}
    (h : ofSource file source = .ok p) : p.WellFormed := by
  obtain ⟨hl, hsymbols⟩ := listing_of_ofSource h
  have hw := Listing.wellFormed_ofSource hl
  constructor
  case listing => exact hw
  all_goals rw [hsymbols]
  case named => exact SymbolTable.named_ofListing hw
  case bodies => exact fun s hs => SymbolTable.isBody_of_mem hw hs
  case apart => exact SymbolTable.ordered_functionScopes hw

/-- The program of a source that parses, with a property that can be computed. -/
theorem exists_of_any {file source : String} {P : Program → Prop} [DecidablePred P]
    (h : (ofSource file source).toOption.any (fun p => decide (P p)) = true) :
    ∃ p, ofSource file source = .ok p ∧ P p := Listing.exists_ok_of_any h

/-- The token at `i` stands between the brackets of a pair `[ ... ]`. -/
def InSquare (p : Program) (i : Nat) : Prop :=
  ∃ o, o < i ∧ p.listing.text o = "[" ∧ ∃ c ∈ p.listing.closing? o, i < c

instance (p : Program) (i : Nat) : Decidable (p.InSquare i) :=
  inferInstanceAs (Decidable (∃ o, o < i ∧ _))

/-- A token that has a property of variables is bound. -/
theorem bound_of_holds {p : Program} {q : Variable → Bool} {i : Nat}
    (h : p.symbols.holds q (p.variableIdAt? i) = true) : ∃ id, p.variableIdAt? i = some id := by
  unfold SymbolTable.holds at h
  cases hi : p.variableIdAt? i with
  | none => rw [hi] at h; cases h
  | some id => exact ⟨id, rfl⟩

namespace WellFormed

variable {p : Program} {i : Nat}

theorem isName_of_bound (hp : p.WellFormed) {id : VariableId} (h : p.variableIdAt? i = some id) :
    p.listing.isName i = true := (hp.named.bindings i id h).1

theorem free_of_bound (hp : p.WellFormed) {id : VariableId} (h : p.variableIdAt? i = some id) :
    Word.isStatementWord (p.listing.text i) = false := hp.named.free_of_bound h

/-- A bound token is no word that begins a statement. -/
theorem text_ne_of_bound (hp : p.WellFormed) {q : Variable → Bool}
    (h : p.symbols.holds q (p.variableIdAt? i) = true) {w : String}
    (hw : Word.isStatementWord w = true) : p.listing.text i ≠ w := by
  obtain ⟨id, hid⟩ := bound_of_holds h
  rintro rfl
  rw [hp.free_of_bound hid] at hw
  cases hw

theorem isName_of_holds (hp : p.WellFormed) {q : Variable → Bool}
    (h : p.symbols.holds q (p.variableIdAt? i) = true) : p.listing.isName i = true := by
  obtain ⟨id, hid⟩ := bound_of_holds h
  exact hp.isName_of_bound hid

/-- A token between the braces of two function scopes: the two are one. -/
theorem scope_unique (hp : p.WellFormed) {s s' : Scope} (hs : s ∈ p.symbols.functionScopes)
    (hs' : s' ∈ p.symbols.functionScopes) (hi : s.start ≤ i ∧ i ≤ s.stop)
    (hi' : s'.start ≤ i ∧ i ≤ s'.stop) : s = s' := by
  obtain ⟨m, hm, rfl⟩ := List.mem_iff_getElem.mp hs
  obtain ⟨n, hn, rfl⟩ := List.mem_iff_getElem.mp hs'
  have hapart := List.pairwise_iff_getElem.mp hp.apart
  rcases Nat.lt_trichotomy m n with hlt | rfl | hlt
  · have := hapart m n hm hn hlt
    omega
  · rfl
  · have := hapart n m hn hm hlt
    omega

end WellFormed

end Program

end StackEscape
