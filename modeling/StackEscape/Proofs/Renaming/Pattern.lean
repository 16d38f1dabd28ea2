import StackEscape.Proofs.Pattern.Reading
import StackEscape.Proofs.Renaming.Symbol

/-!
# Patterns under renaming

A pattern whose words are fixed matches a renamed program where it matched the program, and what is
known about the storage of a name stays what it was.
-/

namespace StackEscape

structure Program.Renamed (ρ : String → String) (p p' : Program) : Prop where
  listing : p.listing.Renamed ρ p'.listing
  symbols : p.symbols.Renamed ρ p'.symbols

/-! ## Words -/

/-- Whether an atom asks for fixed words only. -/
def Atom.isFixed : Atom → Bool
  | .text w => Word.isFixed w
  | .oneOf characters => characters.all fun c => Word.isFixed (String.ofList [c])
  | _ => true

def Element.isFixed : Element → Bool
  | .choice atoms _ => atoms.all Atom.isFixed
  | .otherThan w => Word.isFixed w

def Pattern.isFixed (pattern : Pattern) : Bool := pattern.elements.all Element.isFixed

variable {ρ : String → String} {p p' : Program}

theorem Atom.accepts_eq {t t' : Token} (h : t.Renamed ρ t') {a : Atom} (ha : a.isFixed = true)
    (bound : Bool) : a.accepts t' bound = a.accepts t bound := by
  cases a with
  | text w => simp only [accepts, h.fixed w ha]
  | name => simp only [accepts, h.kind]
  | typeName =>
    have hdelete := h.fixed "delete" (by decide)
    simp only [accepts, h.kind, bne, beq_eq_decide, hdelete]
  | any => rfl
  | number => simp only [accepts, h.kind]
  | string => simp only [accepts, h.kind]
  | oneOf characters =>
    rw [Bool.eq_iff_iff, accepts_oneOf, accepts_oneOf]
    refine exists_congr fun c => and_congr_right fun hc => ?_
    exact h.fixed _ (List.all_eq_true.mp ha c hc)

namespace Program.Renamed

theorem variableIdAt?_eq (h : p.Renamed ρ p') (i : Nat) :
    p'.variableIdAt? i = p.variableIdAt? i := by
  unfold variableIdAt?
  rw [h.symbols.bindings]

theorem place?_eq (h : p.Renamed ρ p') {e : Element} (he : e.isFixed = true) (i : Nat) :
    e.place? p' i = e.place? p i := by
  rcases h.listing.cases_get? i with ⟨hn, hn'⟩ | ⟨t, t', ht, ht', hr⟩
  · cases e with
    | choice atoms _ => simp only [Element.place?, hn, hn']; rfl
    | otherThan w => simp only [Element.place?, hn, hn']
  · cases e with
    | choice atoms _ =>
      have hany : atoms.any (·.accepts t' (p'.variableIdAt? i).isSome) =
          atoms.any (·.accepts t (p.variableIdAt? i).isSome) := by
        rw [h.variableIdAt?_eq]
        rw [Bool.eq_iff_iff, List.any_eq_true, List.any_eq_true]
        refine exists_congr fun a => and_congr_right fun ha => ?_
        rw [Atom.accepts_eq hr (List.all_eq_true.mp he a ha)]
      simp only [Element.place?, ht, ht', Option.any_some, hany]
    | otherThan w => simp only [Element.place?, ht, ht', hr.fixed w he]

theorem placeAll?_eq (h : p.Renamed ρ p') {es : List Element}
    (hes : es.all Element.isFixed = true) (i : Nat) :
    Pattern.place? p' i es = Pattern.place? p i es := by
  induction es generalizing i with
  | nil => rfl
  | cons e es ih =>
    obtain ⟨he, hes⟩ := Bool.and_eq_true_iff.mp hes
    simp only [Pattern.place?, h.place?_eq he, ih hes]

theorem matchAt?_eq (h : p.Renamed ρ p') {pattern : Pattern} (hp : pattern.isFixed = true)
    (i : Nat) : pattern.matchAt? p' i = pattern.matchAt? p i := by
  rw [Pattern.matchAt?, h.placeAll?_eq hp, Pattern.matchAt?]

theorem matchesAt_eq (h : p.Renamed ρ p') {pattern : Pattern} (hp : pattern.isFixed = true)
    (i : Nat) : pattern.matchesAt p' i = pattern.matchesAt p i := by
  rw [Pattern.matchesAt, h.matchAt?_eq hp, Pattern.matchesAt]

/-! ## Storage -/

theorem variableAt?_eq (h : p.Renamed ρ p') (i : Nat) :
    p'.variableAt? i = (p.variableAt? i).map (Variable.rename ρ) := by
  unfold variableAt?
  rw [h.variableIdAt?_eq, Option.map_bind]
  congr 1
  funext id
  exact h.symbols.getVariable?_eq id

theorem holds_eq (h : p.Renamed ρ p') {q : Variable → Bool} (hq : ∀ v, q (v.rename ρ) = q v)
    (i : Nat) :
    p'.symbols.holds q (p'.variableIdAt? i) = p.symbols.holds q (p.variableIdAt? i) := by
  have hat := h.variableAt?_eq i
  unfold variableAt? at hat
  unfold SymbolTable.holds
  rw [hat, Option.any_map]
  congr 1
  exact funext hq

theorem automaticAt_eq (h : p.Renamed ρ p') (i : Nat) : p'.automaticAt i = p.automaticAt i :=
  h.holds_eq (fun _ => rfl) i

theorem automaticArrayAt_eq (h : p.Renamed ρ p') (i : Nat) :
    p'.automaticArrayAt i = p.automaticArrayAt i := h.holds_eq (fun _ => rfl) i

theorem referenceArgumentAt_eq (h : p.Renamed ρ p') (i : Nat) :
    p'.referenceArgumentAt i = p.referenceArgumentAt i := h.holds_eq (fun _ => rfl) i

theorem pointerArgumentAt_eq (h : p.Renamed ρ p') (i : Nat) :
    p'.pointerArgumentAt i = p.pointerArgumentAt i := h.holds_eq (fun _ => rfl) i

theorem wholeAddressAt_eq (h : p.Renamed ρ p') (i : Nat) :
    p'.wholeAddressAt i = p.wholeAddressAt i := by
  unfold wholeAddressAt
  rw [h.variableAt?_eq, Option.any_map]
  congr 1
  funext v
  simp (disch := decide) only [Variable.addressIsWhole, bne, beq_eq_decide,
    h.listing.text_eq, SymbolTable.Renamed.isClassObject_rename h.listing.names]
  rfl

end Program.Renamed

end StackEscape
