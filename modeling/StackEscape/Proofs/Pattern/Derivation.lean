import StackEscape.Proofs.Pattern.Reading

/-!
# Derivations of patterns

A derivation lays a pattern along the tokens word by word, as the words read, and leaves open
whether a word that may stand for nothing takes a token. Matching never goes back, so it makes that
choice at once. What it captures is a derivation all the same; and where no token is accepted both
by a word that may stand for nothing and by one that may be next, it matches whenever there is a
derivation.
-/

namespace StackEscape

variable {p : Program} {i stop : Nat}

/-! ## Optional elements -/

namespace Element

/-- Whether an element may stand for nothing wherever it is. -/
def isOptional : Element → Bool
  | .choice _ optional => optional
  | .otherThan _ => false

theorem isOptional_choice (atoms : List Atom) (optional : Bool) :
    (Element.choice atoms optional).isOptional = optional := rfl

theorem isOptional_anyName : anyName.isOptional = false := rfl

theorem passes_of_isOptional {e : Element} (h : e.isOptional = true) : e.Passes p i := by
  cases e with
  | choice atoms optional => exact h
  | otherThan w => cases h

theorem exists_of_standsAt {e : Element} (h : e.StandsAt p i) :
    ∃ t, p.listing.get? i = some t := by
  cases e with
  | choice atoms optional =>
    obtain ⟨_, _, t, ht, _⟩ := h
    exact ⟨t, ht⟩
  | otherThan w =>
    obtain ⟨t, ht, _⟩ := h
    exact ⟨t, ht⟩

/-- In front of a token, only what is optional stands for nothing. -/
theorem isOptional_of_passes {e : Element} {t : Token} (ht : p.listing.get? i = some t)
    (h : e.Passes p i) : e.isOptional = true := by
  cases e with
  | choice atoms optional => exact h
  | otherThan w => cases ht.symm.trans h

end Element

/-! ## Derivations -/

namespace Pattern

variable {e : Element} {es : List Element} {positions : List (Option Nat)}

/-- Some elements, laid along the tokens from `i` up to `stop`: every element takes the next token,
which it stands for, or none, if it may stand for nothing there. The positions say which. -/
inductive Derives (p : Program) : Nat → List Element → List (Option Nat) → Nat → Prop
  | nil (i : Nat) : Derives p i [] [] i
  | take {i stop : Nat} {e : Element} {es : List Element} {positions : List (Option Nat)}
      (stands : e.StandsAt p i) (rest : Derives p (i + 1) es positions stop) :
      Derives p i (e :: es) (some i :: positions) stop
  | pass {i stop : Nat} {e : Element} {es : List Element} {positions : List (Option Nat)}
      (passes : e.Passes p i) (rest : Derives p i es positions stop) :
      Derives p i (e :: es) (none :: positions) stop

/-- There is a position for every element. -/
theorem Derives.length_eq (h : Derives p i es positions stop) : positions.length = es.length := by
  induction h with
  | nil => rfl
  | take _ _ ih => exact congrArg (· + 1) ih
  | pass _ _ ih => exact congrArg (· + 1) ih

/-- The tokens that are taken follow one another without a gap. -/
theorem Derives.taken_eq (h : Derives p i es positions stop) :
    i ≤ stop ∧ positions.filterMap id = List.range' i (stop - i) := by
  induction h with
  | nil i => simp
  | @take i stop e es positions _ _ ih =>
    obtain ⟨hle, htaken⟩ := ih
    have hlength : stop - i = stop - (i + 1) + 1 := by omega
    refine ⟨by omega, ?_⟩
    rw [hlength, List.range'_succ, ← htaken]
    rfl
  | pass _ _ ih => exact ih

/-- What is captured is derived. -/
theorem derives_of_place? (h : place? p i es = some (positions, stop)) :
    Derives p i es positions stop := by
  induction es generalizing i positions with
  | nil =>
    obtain ⟨rfl, rfl⟩ := Prod.mk.inj (Option.some.inj h)
    exact .nil i
  | cons e es ih =>
    simp only [place?] at h
    split at h
    · cases h
    · next position hplace =>
      obtain ⟨⟨rest, last⟩, hrest, heq⟩ := Option.map_eq_some_iff.mp h
      obtain ⟨rfl, rfl⟩ := Prod.mk.inj heq
      cases position with
      | none => exact .pass (Element.passes_of_place? hplace) (ih hrest)
      | some j =>
        obtain rfl := Element.eq_of_place? hplace
        exact .take (Element.standsAt_of_place? hplace) (ih hrest)

/-! ## Finding a derivation -/

theorem lies_cons_of_standsAt (h : e.StandsAt p i) : Lies p i (e :: es) ↔ Lies p (i + 1) es := by
  simp [lies_cons, h]

theorem lies_cons_of_passes (h : e.Passes p i) (hs : ¬ e.StandsAt p i) :
    Lies p i (e :: es) ↔ Lies p i es := by
  simp [lies_cons, h, hs]

/-- What is optional throughout matches everywhere. -/
theorem lies_of_optional (h : ∀ e ∈ es, e.isOptional = true) (i : Nat) : Lies p i es := by
  induction es generalizing i with
  | nil => exact lies_nil.mpr trivial
  | cons e es ih =>
    obtain ⟨he, hes⟩ := List.forall_mem_cons.mp h
    by_cases hs : e.StandsAt p i
    · exact (lies_cons_of_standsAt hs).mpr (ih hes (i + 1))
    · exact (lies_cons_of_passes (Element.passes_of_isOptional he) hs).mpr (ih hes i)

/-- The elements that may take the next token: the first one, and those that only optional ones
stand in front of. -/
def candidates : List Element → List Element
  | [] => []
  | e :: es => e :: if e.isOptional then candidates es else []

/-- No token is accepted both by an optional element and by a later one that only optional elements
separate from it. -/
def Unambiguous (p : Program) : List Element → Prop
  | [] => True
  | e :: es =>
    (e.isOptional = true → ∀ e' ∈ candidates es, ∀ i, ¬ (e.StandsAt p i ∧ e'.StandsAt p i)) ∧
      Unambiguous p es

/-- If no candidate stands for the next token, a derivation takes none. -/
theorem Derives.optional_of_candidates (h : Derives p i es positions stop) {t : Token}
    (ht : p.listing.get? i = some t) (hno : ∀ e ∈ candidates es, ¬ e.StandsAt p i) :
    ∀ e ∈ es, e.isOptional = true := by
  induction h with
  | nil => exact nofun
  | take stands _ _ => exact absurd stands (hno _ List.mem_cons_self)
  | pass passes _ ih =>
    have hoptional := Element.isOptional_of_passes ht passes
    refine List.forall_mem_cons.mpr ⟨hoptional, ih ht fun e he => hno e ?_⟩
    rw [candidates, if_pos hoptional]
    exact List.mem_cons_of_mem _ he

/-- Where no token leaves a choice, matching finds what there is. -/
theorem Derives.lies (h : Derives p i es positions stop) (hu : Unambiguous p es) :
    Lies p i es := by
  induction h with
  | nil => exact lies_nil.mpr trivial
  | take stands _ ih => exact (lies_cons_of_standsAt stands).mpr (ih hu.2)
  | @pass i stop e es positions passes rest ih =>
    by_cases hs : e.StandsAt p i
    · -- the token is taken, so nothing behind may want it, and what is left may stand for nothing
      obtain ⟨t, ht⟩ := Element.exists_of_standsAt hs
      have hoptional := Element.isOptional_of_passes ht passes
      have hno : ∀ e' ∈ candidates es, ¬ e'.StandsAt p i :=
        fun e' he' hs' => hu.1 hoptional e' he' i ⟨hs, hs'⟩
      exact (lies_cons_of_standsAt hs).mpr
        (lies_of_optional (rest.optional_of_candidates ht hno) (i + 1))
    · exact (lies_cons_of_passes passes hs).mpr (ih hu.2)

/-- What a match records, laid open. -/
theorem derives_of_matchAt? {pattern : Pattern} {c : Captures}
    (h : pattern.matchAt? p i = some c) :
    c.start = i ∧ Derives p i pattern.elements c.positions c.stop := by
  obtain ⟨⟨positions, stop⟩, hplace, rfl⟩ := Option.map_eq_some_iff.mp h
  exact ⟨rfl, derives_of_place? hplace⟩

/-- **Matching agrees with the reading of the words.** What a match captures is a derivation of the
pattern: one position for every word, and the tokens taken are those from the start of the match up
to its end, in order. If no token is accepted both by an optional word and by one that may be next,
a pattern that has a derivation matches. -/
theorem matchAt?_derives (source : String) (p : Program) (start : Nat) :
    (∀ c, (ofString source).matchAt? p start = some c →
      c.start = start ∧ start ≤ c.stop ∧
        c.positions.length = (Text.words source.toList).length ∧
        Derives p start (ofString source).elements c.positions c.stop ∧
        c.positions.filterMap id = List.range' start c.length) ∧
    (Unambiguous p (ofString source).elements →
      (∃ positions stop, Derives p start (ofString source).elements positions stop) →
        ∃ c, (ofString source).matchAt? p start = some c) := by
  constructor
  · intro c hc
    obtain ⟨rfl, hderives⟩ := derives_of_matchAt? hc
    obtain ⟨hle, htaken⟩ := hderives.taken_eq
    refine ⟨rfl, hle, ?_, hderives, htaken⟩
    rw [hderives.length_eq, ofString, List.length_map]
  · rintro hu ⟨positions, stop, hderives⟩
    obtain ⟨found, hfound⟩ := Option.isSome_iff_exists.mp (hderives.lies hu)
    exact ⟨_, congrArg (Option.map _) hfound⟩

def bracketedName : String := "delete [| ]| (| %var% !!["

theorem elements_bracketedName : (ofString bracketedName).elements =
    [.word "delete", .choice [.text "["] true, .choice [.text "]"] true, .choice [.text "("] true,
      .anyName, .otherThan "["] := by rfl

/-- A name is spelled like none of the brackets. -/
theorem unambiguous_bracketedName (hl : p.listing.WellFormed) :
    Unambiguous p (ofString bracketedName).elements := by
  have apart : ∀ {w w' : String}, w ≠ w' →
      ∀ i, p.listing.text i = w → ¬ p.listing.text i = w' :=
    fun hne _ h h' => hne (h.symm.trans h')
  have noName : ∀ {w : String}, Lexeme.isWord w = false →
      ∀ i, p.listing.text i = w → ¬ p.listing.isName i = true :=
    fun hword _ h hname => hl.text_ne_of_isName hname hword h
  rw [elements_bracketedName]
  refine ⟨nofun, fun _ => ?_, fun _ => ?_, fun _ => ?_, nofun, nofun, trivial⟩
  all_goals
    simp only [candidates, Element.isOptional_choice, Element.isOptional_anyName, if_true,
      Bool.false_eq_true, if_false, List.forall_mem_cons, Element.standsAt_word, ne_eq,
      String.reduceEq, not_false_eq_true, Element.standsAt_anyName, not_and, List.not_mem_nil,
      false_implies, implies_true, and_true]
  · exact ⟨apart (by decide), apart (by decide), noName (by decide)⟩
  · exact ⟨apart (by decide), noName (by decide)⟩
  · exact noName (by decide)

theorem matchAt?_derives_bracketed : ∃ p c,
    Program.ofSource "a.cpp" "void f(){char a[4];delete(a);}" = .ok p ∧
      Unambiguous p (ofString bracketedName).elements ∧
      (∃ positions stop, Derives p 11 (ofString bracketedName).elements positions stop) ∧
      (ofString bracketedName).matchAt? p 11 = some c ∧
      c.positions.filterMap id = List.range' 11 c.length := by
  obtain ⟨p, hp, hdelete, hopen, hname, hclose⟩ :
      ∃ p, Program.ofSource "a.cpp" "void f(){char a[4];delete(a);}" = .ok p ∧
        p.listing.text 11 = "delete" ∧ p.listing.text 12 = "(" ∧ p.listing.isName 13 = true ∧
        p.listing.text 14 = ")" :=
    Program.exists_of_any (by decide +kernel)
  have hderives : Derives p 11 (ofString bracketedName).elements
      [some 11, none, none, some 12, some 13, some 14] 15 := by
    rw [elements_bracketedName]
    refine .take ((Element.standsAt_word (by decide)).mpr hdelete) (.pass rfl (.pass rfl ?_))
    refine .take ((Element.standsAt_word (by decide)).mpr hopen) ?_
    refine .take (Element.standsAt_anyName.mpr hname) (.take ?_ (.nil 15))
    refine Element.standsAt_otherThan.mpr ⟨Listing.lt_size_of_text hclose (by decide), ?_⟩
    rw [hclose]
    decide
  obtain ⟨hrecords, hfinds⟩ := matchAt?_derives bracketedName p 11
  have hu := unambiguous_bracketedName (Program.wellFormed_ofSource hp).listing
  obtain ⟨c, hc⟩ := hfinds hu ⟨_, _, hderives⟩
  obtain ⟨_, _, _, _, htaken⟩ := hrecords c hc
  exact ⟨p, c, hp, hu, ⟨_, _, hderives⟩, hc, htaken⟩

end Pattern

end StackEscape
