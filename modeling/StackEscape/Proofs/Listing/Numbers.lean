import Mathlib.Data.List.TakeWhile
import StackEscape.Proofs.Listing.LineEnds

/-!
# Numeric literals

The numeric literals of C++, and what is read of them: a literal is one token, except that a
hexadecimal floating literal with a signed exponent ends for the scan before its sign. A sign is
taken for part of a number behind the letter of an exponent only, and in a hexadecimal number, where
`e` is a digit, behind no letter at all.
-/

namespace StackEscape

open Lexeme (isLetter isDigit)

/-! ## The grammar -/

namespace NumericLiteral

def isOctalDigit (c : Char) : Bool := '0' ≤ c && c ≤ '7'

def isBinaryDigit (c : Char) : Bool := c == '0' || c == '1'

def isHexadecimalDigit (c : Char) : Bool :=
  isDigit c || ('a' ≤ c && c ≤ 'f') || ('A' ≤ c && c ≤ 'F')

def isSign (c : Char) : Bool := c == '+' || c == '-'

/-- Digits, with single separators between them. -/
inductive Digits (digit : Char → Bool) : List Char → Prop
  | last {c : Char} : digit c = true → Digits digit [c]
  | next {c : Char} {cs : List Char} : digit c = true → Digits digit cs → Digits digit (c :: cs)
  | separated {c : Char} {cs : List Char} : digit c = true → Digits digit cs →
      Digits digit (c :: '\'' :: cs)

/-- Digits with a point behind, before or among them. -/
inductive Fraction (digit : Char → Bool) : List Char → Prop
  | ends {ds : List Char} : Digits digit ds → Fraction digit (ds ++ ['.'])
  | begins {ds : List Char} : Digits digit ds → Fraction digit ('.' :: ds)
  | between {ds es : List Char} : Digits digit ds → Digits digit es →
      Fraction digit (ds ++ '.' :: es)

/-- An exponent that begins with one of the letters `marks`. -/
inductive Exponent (marks : List Char) : List Char → Prop
  | plain {m : Char} {ds : List Char} : m ∈ marks → Digits isDigit ds → Exponent marks (m :: ds)
  | signed {m s : Char} {ds : List Char} : m ∈ marks → isSign s = true → Digits isDigit ds →
      Exponent marks (m :: s :: ds)

def signSuffixes : List (List Char) := [['u'], ['U']]

def lengthSuffixes : List (List Char) := [['l'], ['L'], ['l', 'l'], ['L', 'L'], ['z'], ['Z']]

/-- The suffixes of integers: for the sign and for the length, in either order. -/
def integerSuffixes : List (List Char) :=
  [] :: signSuffixes ++ lengthSuffixes
    ++ signSuffixes.flatMap (fun s => lengthSuffixes.map (s ++ ·))
    ++ lengthSuffixes.flatMap fun s => signSuffixes.map (s ++ ·)

def floatSuffixes : List (List Char) :=
  ["", "f", "F", "l", "L", "f16", "f32", "f64", "f128", "bf16", "F16", "F32", "F64", "F128",
   "BF16"].map String.toList

end NumericLiteral

open NumericLiteral in
/-- A numeric literal of C++ without a suffix of the user's. -/
inductive NumericLiteral : List Char → Prop
  | decimal {ds s : List Char} : Digits isDigit ds → ds.head? ≠ some '0' → s ∈ integerSuffixes →
      NumericLiteral (ds ++ s)
  | octal {ds s : List Char} : Digits isOctalDigit ds → ds.head? = some '0' →
      s ∈ integerSuffixes → NumericLiteral (ds ++ s)
  | binary {b : Char} {ds s : List Char} : b ∈ ['b', 'B'] → Digits isBinaryDigit ds →
      s ∈ integerSuffixes → NumericLiteral ('0' :: b :: (ds ++ s))
  | hexadecimal {x : Char} {ds s : List Char} : x ∈ ['x', 'X'] → Digits isHexadecimalDigit ds →
      s ∈ integerSuffixes → NumericLiteral ('0' :: x :: (ds ++ s))
  | fraction {m s : List Char} : Fraction isDigit m → s ∈ floatSuffixes → NumericLiteral (m ++ s)
  | float {m e s : List Char} : Fraction isDigit m ∨ Digits isDigit m → Exponent ['e', 'E'] e →
      s ∈ floatSuffixes → NumericLiteral (m ++ (e ++ s))
  | hexadecimalFloat {x : Char} {m e s : List Char} : x ∈ ['x', 'X'] →
      Fraction isHexadecimalDigit m ∨ Digits isHexadecimalDigit m → Exponent ['p', 'P'] e →
      s ∈ floatSuffixes → NumericLiteral ('0' :: x :: (m ++ (e ++ s)))

namespace NumericLiteral

/-- A number whose prefix says that it is hexadecimal. -/
def isPrefixed : List Char → Bool
  | '0' :: x :: _ => x == 'x' || x == 'X'
  | _ => false

/-- A literal that is hexadecimal and has a sign, which only the exponent of a floating literal
has. -/
def SignedHexadecimal (w : List Char) : Prop := isPrefixed w = true ∧ ∃ c ∈ w, isSign c = true

instance (w : List Char) : Decidable (SignedHexadecimal w) :=
  inferInstanceAs (Decidable (_ ∧ ∃ c ∈ w, _))

def readPart (w : List Char) : List Char :=
  if isPrefixed w then w.takeWhile (!isSign ·) else w

end NumericLiteral

/-- A character that goes on any number that it stands behind. -/
def Lexeme.joinsNumber (c : Char) : Bool :=
  isLetter c || isDigit c || c == '_' || c == '.' || c == '\''

namespace NumericLiteral

open Lexeme

/-! ## Characters -/

/-- A character of a number that begins no exponent and ends no prefix of hexadecimal ones. -/
def isSteady (c : Char) : Bool := joinsNumber c && !(['e', 'E', 'p', 'P', 'x', 'X'].contains c)

section
variable {c : Char}

theorem isDigit_of_isOctalDigit (h : isOctalDigit c = true) : isDigit c = true := by
  simp only [isOctalDigit, isDigit, Bool.and_eq_true, decide_eq_true_eq] at h ⊢
  exact ⟨h.1, Char.le_trans h.2 (by decide)⟩

theorem isDigit_of_isBinaryDigit (h : isBinaryDigit c = true) : isDigit c = true := by
  simp only [isBinaryDigit, Bool.or_eq_true, beq_iff_eq] at h
  rcases h with rfl | rfl <;> decide

theorem isSteady_of_isDigit (h : isDigit c = true) : isSteady c = true := by
  have hletter : ['e', 'E', 'p', 'P', 'x', 'X'].all (!isDigit ·) = true := by decide
  have hnot : c ∉ ['e', 'E', 'p', 'P', 'x', 'X'] := by
    intro hmem
    have hdigit := List.all_eq_true.mp hletter c hmem
    rw [h] at hdigit
    cases hdigit
  simp only [isSteady, joinsNumber, h, Bool.or_true, Bool.true_or, Bool.true_and,
    Bool.not_eq_true', List.contains_eq_mem, decide_eq_false_iff_not]
  exact hnot

theorem joinsNumber_of_isSteady (h : isSteady c = true) : joinsNumber c = true :=
  (Bool.and_eq_true_iff.mp h).1

theorem joinsNumber_of_isHexadecimalDigit (h : isHexadecimalDigit c = true) :
    joinsNumber c = true := by
  simp only [isHexadecimalDigit, joinsNumber, isLetter, Bool.or_eq_true, Bool.and_eq_true,
    decide_eq_true_eq] at h ⊢
  rcases h with (h | h) | h
  · exact .inl (.inl (.inl (.inr h)))
  · exact .inl (.inl (.inl (.inl (.inl ⟨h.1, Char.le_trans h.2 (by decide)⟩))))
  · exact .inl (.inl (.inl (.inl (.inr ⟨h.1, Char.le_trans h.2 (by decide)⟩))))

theorem isSign_eq_false_of_joinsNumber (h : joinsNumber c = true) : isSign c = false := by
  rw [Bool.eq_false_iff]
  simp only [isSign, ne_eq, Bool.or_eq_true, beq_iff_eq]
  rintro (rfl | rfl) <;> exact absurd h (by decide)

end

/-! ## Characters of the parts -/

section
variable {digit : Char → Bool} {p : Char → Prop} {u : List Char}

theorem Digits.forall_mem (h : Digits digit u) (hdigit : ∀ c, digit c = true → p c)
    (hseparator : p '\'') : ∀ c ∈ u, p c := by
  induction h with
  | last hc => exact List.forall_mem_singleton.mpr (hdigit _ hc)
  | next hc _ ih => exact List.forall_mem_cons.mpr ⟨hdigit _ hc, ih⟩
  | separated hc _ ih =>
    exact List.forall_mem_cons.mpr ⟨hdigit _ hc, List.forall_mem_cons.mpr ⟨hseparator, ih⟩⟩

theorem Fraction.forall_mem (h : Fraction digit u) (hdigit : ∀ c, digit c = true → p c)
    (hseparator : p '\'') (hpoint : p '.') : ∀ c ∈ u, p c := by
  cases h with
  | ends hds =>
    exact List.forall_mem_append.mpr
      ⟨hds.forall_mem hdigit hseparator, List.forall_mem_singleton.mpr hpoint⟩
  | begins hds => exact List.forall_mem_cons.mpr ⟨hpoint, hds.forall_mem hdigit hseparator⟩
  | between hds hes =>
    exact List.forall_mem_append.mpr ⟨hds.forall_mem hdigit hseparator,
      List.forall_mem_cons.mpr ⟨hpoint, hes.forall_mem hdigit hseparator⟩⟩

theorem Exponent.forall_mem {marks : List Char} (h : Exponent marks u)
    (hmarks : ∀ c ∈ marks, p c) (hsign : ∀ c, isSign c = true → p c)
    (hdigit : ∀ c, isDigit c = true → p c) (hseparator : p '\'') :
    ∀ c ∈ u, p c := by
  cases h with
  | plain hm hds =>
    exact List.forall_mem_cons.mpr ⟨hmarks _ hm, hds.forall_mem hdigit hseparator⟩
  | signed hm hs hds =>
    exact List.forall_mem_cons.mpr
      ⟨hmarks _ hm, List.forall_mem_cons.mpr ⟨hsign _ hs, hds.forall_mem hdigit hseparator⟩⟩

theorem isSteady_of_mem_integerSuffixes {s : List Char} (hs : s ∈ integerSuffixes) :
    ∀ c ∈ s, isSteady c = true := by
  have hall : integerSuffixes.all (·.all isSteady) = true := by decide
  exact List.all_eq_true.mp (List.all_eq_true.mp hall s hs)

theorem isSteady_of_mem_floatSuffixes {s : List Char} (hs : s ∈ floatSuffixes) :
    ∀ c ∈ s, isSteady c = true := by
  have hall : floatSuffixes.all (·.all isSteady) = true := by decide
  exact List.all_eq_true.mp (List.all_eq_true.mp hall s hs)

end

/-! ## How far a number reaches -/

section
variable {u v r : List Char} {a : Char}

theorem continuesNumber_true (a c : Char) : continuesNumber true a c = joinsNumber c := by
  simp [continuesNumber, joinsNumber]

theorem continuesNumber_of_joinsNumber {c : Char} (h : joinsNumber c = true) (b : Bool) (a : Char) :
    continuesNumber b a c = true := by
  change (joinsNumber c || _) = true
  rw [h, Bool.true_or]

/-- A number that has reached `a` goes on with all of `u`, and ends at no letter that a sign may
follow. -/
def Settles (b : Bool) (a : Char) (u : List Char) : Prop :=
  ∃ z, isSteady z = true ∧ ∀ r, numberLength b a (u ++ r) = u.length + numberLength b z r

theorem Settles.nil (b : Bool) (ha : isSteady a = true) : Settles b a [] :=
  ⟨a, ha, fun r => (Nat.zero_add (numberLength b a r)).symm⟩

theorem Settles.cons {b : Bool} {c : Char} (hc : continuesNumber b a c = true)
    (h : Settles b c u) : Settles b a (c :: u) := by
  obtain ⟨z, hz, hlength⟩ := h
  refine ⟨z, hz, fun r => ?_⟩
  rw [List.cons_append, numberLength, if_pos hc, hlength r, List.length_cons]
  omega

theorem Settles.append {b : Bool} (h : Settles b a u)
    (hnext : ∀ z, isSteady z = true → Settles b z v) : Settles b a (u ++ v) := by
  obtain ⟨y, hy, hu⟩ := h
  obtain ⟨z, hz, hv⟩ := hnext y hy
  refine ⟨z, hz, fun r => ?_⟩
  rw [List.append_assoc, hu, hv, List.length_append, Nat.add_assoc]

theorem settles_of_steady (b : Bool) (ha : u = [] → isSteady a = true)
    (hu : ∀ c ∈ u, isSteady c = true) : Settles b a u := by
  induction u generalizing a with
  | nil => exact .nil b (ha rfl)
  | cons c u ih =>
    obtain ⟨hc, hu⟩ := List.forall_mem_cons.mp hu
    exact .cons (continuesNumber_of_joinsNumber (joinsNumber_of_isSteady hc) b a)
      (ih (fun _ => hc) hu)

theorem settles_digits (b : Bool) (h : Digits isDigit u) : Settles b a u := by
  refine settles_of_steady b (fun hnil => ?_)
    (h.forall_mem (fun _ => isSteady_of_isDigit) (by decide))
  rw [hnil] at h
  cases h

/-- In a number that is not hexadecimal the sign of an exponent is read with it. -/
theorem settles_exponent (h : Exponent ['e', 'E'] u) : Settles false a u := by
  have hletter : ∀ m ∈ ['e', 'E'], joinsNumber m = true := List.all_eq_true.mp (by decide)
  cases h with
  | plain hm hds =>
    exact .cons (continuesNumber_of_joinsNumber (hletter _ hm) _ _) (settles_digits false hds)
  | signed hm hs hds =>
    refine .cons (continuesNumber_of_joinsNumber (hletter _ hm) _ _)
      (.cons ?_ (settles_digits false hds))
    simp only [isSign, Bool.or_eq_true, beq_iff_eq] at hs
    simp only [List.mem_cons, List.not_mem_nil, or_false] at hm
    rcases hm with rfl | rfl <;> rcases hs with rfl | rfl <;> decide

/-- Nothing behind a number that has settled goes on with it. -/
theorem numberLength_of_settled {b : Bool} {z : Char} (hz : isSteady z = true)
    (hr : ∀ c ∈ r.head?, joinsNumber c = false) : numberLength b z r = 0 := by
  cases r with
  | nil => rfl
  | cons c r =>
    have hmark : (z == 'e' || z == 'E' || z == 'p' || z == 'P') = false := by
      rw [Bool.eq_false_iff]
      simp only [ne_eq, Bool.or_eq_true, beq_iff_eq]
      rintro (((rfl | rfl) | rfl) | rfl) <;> exact absurd hz (by decide)
    have hjoin : joinsNumber c = false := hr c rfl
    have hstop : continuesNumber b z c = (joinsNumber c ||
        (c == '+' || c == '-') && !b && (z == 'e' || z == 'E' || z == 'p' || z == 'P')) := rfl
    rw [numberLength, hstop, hjoin, hmark, Bool.and_false]
    rfl

/-- A hexadecimal number ends at its first sign. -/
theorem numberLength_hexadecimal
    (hu : ∀ c ∈ u, (joinsNumber c || isSign c) = true)
    (hr : ∀ c ∈ r.head?, joinsNumber c = false) :
    numberLength true a (u ++ r) = (u.takeWhile (!isSign ·)).length := by
  induction u generalizing a with
  | nil =>
    cases r with
    | nil => rfl
    | cons c r =>
      rw [List.nil_append, numberLength, continuesNumber_true, hr c rfl]
      rfl
  | cons c u ih =>
    obtain ⟨hc, hu⟩ := List.forall_mem_cons.mp hu
    rw [List.cons_append, numberLength, continuesNumber_true, List.takeWhile_cons]
    cases hjoin : joinsNumber c with
    | true =>
      rw [isSign_eq_false_of_joinsNumber hjoin, Bool.not_false, if_pos rfl, if_pos rfl, ih hu]
      rfl
    | false =>
      rw [hjoin, Bool.false_or] at hc
      rw [hc, Bool.not_true]
      rfl

end

/-! ## Whole literals -/

section
variable {digit : Char → Bool} {w m v r : List Char}

theorem beginsNumber_append (h : beginsNumber m = true) (v : List Char) :
    beginsNumber (m ++ v) = true := by
  cases m with
  | nil => cases h
  | cons c m =>
    cases m with
    | cons d m => exact h
    | nil =>
      rw [beginsNumber, List.head?_nil, Option.any_none, Bool.and_false, Bool.or_false] at h
      rw [List.cons_append, beginsNumber, h, Bool.true_or]

theorem Digits.beginsNumber (h : Digits digit m) (hdigit : ∀ c, digit c = true → isDigit c = true) :
    beginsNumber m = true := by
  cases h with
  | last hc | next hc _ | separated hc _ =>
    rw [Lexeme.beginsNumber, hdigit _ hc, Bool.true_or]

theorem Fraction.beginsNumber (h : Fraction isDigit m) : beginsNumber m = true := by
  cases h with
  | ends hds | between hds _ => exact beginsNumber_append (hds.beginsNumber fun _ => id) _
  | begins hds =>
    have hpoint : ∀ {c : Char} {cs : List Char}, isDigit c = true →
        Lexeme.beginsNumber ('.' :: c :: cs) = true := by
      intro c cs hc
      simp [Lexeme.beginsNumber, hc]
    cases hds with
    | last hc | next hc _ | separated hc _ => exact hpoint hc

/-- A literal that is not hexadecimal. -/
structure Plain (w : List Char) : Prop where
  begins : beginsNumber w = true
  unprefixed : ∀ c ∈ w, c ≠ 'x' ∧ c ≠ 'X'
  settles : ∀ c u, w = c :: u → Settles false c u

theorem ne_of_isSteady {c : Char} (h : isSteady c = true) : c ≠ 'x' ∧ c ≠ 'X' := by
  constructor <;> (rintro rfl; exact absurd h (by decide))

/-- A literal is plain if all before its exponent and its suffix is steady. -/
theorem Plain.append (hbegins : beginsNumber m = true) (hm : ∀ c ∈ m, isSteady c = true)
    (hv : ∀ c ∈ v, c ≠ 'x' ∧ c ≠ 'X') (hsettles : ∀ z, isSteady z = true → Settles false z v) :
    Plain (m ++ v) where
  begins := beginsNumber_append hbegins v
  unprefixed := List.forall_mem_append.mpr ⟨fun c hc => ne_of_isSteady (hm c hc), hv⟩
  settles := by
    rintro c u h
    cases m with
    | nil => cases hbegins
    | cons d m =>
      obtain ⟨rfl, rfl⟩ := List.cons.inj h
      obtain ⟨hd, hm⟩ := List.forall_mem_cons.mp hm
      exact (settles_of_steady false (fun _ => hd) hm).append hsettles

theorem Plain.suffixed (hbegins : beginsNumber m = true) (hm : ∀ c ∈ m, isSteady c = true)
    (hv : ∀ c ∈ v, isSteady c = true) : Plain (m ++ v) :=
  .append hbegins hm (fun c hc => ne_of_isSteady (hv c hc))
    fun _ hz => settles_of_steady false (fun _ => hz) hv

/-- A literal begins with the prefix of the hexadecimal ones, or is plain. -/
theorem cases_prefix (h : NumericLiteral w) :
    Plain w ∨ ∃ x u, w = '0' :: x :: u ∧ (x = 'x' ∨ x = 'X') ∧
      ∀ c ∈ u, (joinsNumber c || isSign c) = true := by
  have hjoins : ∀ {s : List Char}, (∀ c ∈ s, isSteady c = true) →
      ∀ c ∈ s, (joinsNumber c || isSign c) = true := by
    intro s hs c hc
    rw [joinsNumber_of_isSteady (hs c hc), Bool.true_or]
  have hdigit : ∀ c, isHexadecimalDigit c = true → (joinsNumber c || isSign c) = true := by
    intro c hc
    rw [joinsNumber_of_isHexadecimalDigit hc, Bool.true_or]
  cases h with
  | decimal hds _ hs =>
    exact .inl (.suffixed (hds.beginsNumber fun _ => id)
      (hds.forall_mem (fun _ => isSteady_of_isDigit) (by decide))
      (isSteady_of_mem_integerSuffixes hs))
  | octal hds _ hs =>
    exact .inl (.suffixed (hds.beginsNumber fun _ => isDigit_of_isOctalDigit)
      (hds.forall_mem (fun _ hc => isSteady_of_isDigit (isDigit_of_isOctalDigit hc)) (by decide))
      (isSteady_of_mem_integerSuffixes hs))
  | @binary b ds s hb hds hs =>
    have hletter : ∀ m ∈ ['b', 'B'], isSteady m = true := List.all_eq_true.mp (by decide)
    have hsteady : ∀ c ∈ ds, isSteady c = true :=
      hds.forall_mem (fun _ hc => isSteady_of_isDigit (isDigit_of_isBinaryDigit hc)) (by decide)
    exact .inl (.suffixed (m := '0' :: b :: ds) rfl
      (List.forall_mem_cons.mpr ⟨by decide, List.forall_mem_cons.mpr ⟨hletter b hb, hsteady⟩⟩)
      (isSteady_of_mem_integerSuffixes hs))
  | hexadecimal hx hds hs =>
    refine .inr ⟨_, _, rfl, by simpa using hx, List.forall_mem_append.mpr
      ⟨hds.forall_mem hdigit (by decide), hjoins (isSteady_of_mem_integerSuffixes hs)⟩⟩
  | fraction hm hs =>
    exact .inl (.suffixed hm.beginsNumber
      (hm.forall_mem (fun _ => isSteady_of_isDigit) (by decide) (by decide))
      (isSteady_of_mem_floatSuffixes hs))
  | @float m e s hm he hs =>
    have hbegins : beginsNumber m = true :=
      hm.elim Fraction.beginsNumber fun hds => hds.beginsNumber fun _ => id
    have hsteady : ∀ c ∈ m, isSteady c = true :=
      hm.elim (·.forall_mem (fun _ => isSteady_of_isDigit) (by decide) (by decide))
        (·.forall_mem (fun _ => isSteady_of_isDigit) (by decide))
    have hsuffix := isSteady_of_mem_floatSuffixes hs
    have hsign : ∀ c, isSign c = true → c ≠ 'x' ∧ c ≠ 'X' := by
      intro c hc
      constructor <;> (rintro rfl; exact absurd hc (by decide))
    have hne : ∀ c ∈ e, c ≠ 'x' ∧ c ≠ 'X' :=
      he.forall_mem (by simp) hsign (fun _ hc => ne_of_isSteady (isSteady_of_isDigit hc))
        (by decide)
    exact .inl (.append hbegins hsteady
      (List.forall_mem_append.mpr ⟨hne, fun c hc => ne_of_isSteady (hsuffix c hc)⟩)
      fun _ _ => (settles_exponent he).append fun _ hz =>
        settles_of_steady false (fun _ => hz) hsuffix)
  | hexadecimalFloat hx hm he hs =>
    refine .inr ⟨_, _, rfl, by simpa using hx, List.forall_mem_append.mpr
      ⟨?_, List.forall_mem_append.mpr ⟨?_, hjoins (isSteady_of_mem_floatSuffixes hs)⟩⟩⟩
    · exact hm.elim (·.forall_mem hdigit (by decide) (by decide))
        (·.forall_mem hdigit (by decide))
    · exact he.forall_mem (List.all_eq_true.mp (by decide)) (fun c hc => by rw [hc, Bool.or_true])
        (fun c hc => by rw [joinsNumber_of_isSteady (isSteady_of_isDigit hc), Bool.true_or])
        (by decide)

theorem isPrefixed_eq_false (h : ∀ c ∈ w, c ≠ 'x' ∧ c ≠ 'X') : isPrefixed w = false := by
  unfold isPrefixed
  split
  · next x u =>
    obtain ⟨hx, hX⟩ := h x (List.mem_cons_of_mem _ List.mem_cons_self)
    rw [Bool.or_eq_false_iff, beq_eq_false_iff_ne, beq_eq_false_iff_ne]
    exact ⟨hx, hX⟩
  · rfl

/-- A literal is read as a whole, unless it is hexadecimal and has a sign. -/
theorem readPart_eq_self_iff (w : List Char) : readPart w = w ↔ ¬ SignedHexadecimal w := by
  unfold readPart SignedHexadecimal
  split
  · next hprefixed =>
    simp [List.takeWhile_eq_self_iff, hprefixed]
  · next hprefixed => simp [hprefixed]

end

end NumericLiteral

namespace Lexeme

open NumericLiteral

theorem isHexadecimal_eq_false {u r : List Char} (hu : ∀ c ∈ u, c ≠ 'x' ∧ c ≠ 'X')
    (hr : ∀ c ∈ r.head?, joinsNumber c = false) (c : Char) : isHexadecimal c (u ++ r) = false := by
  have hhead : ∀ d, joinsNumber d = true → d ∉ u → (u ++ r).head? ≠ some d := by
    intro d hd hmem hhead
    cases u with
    | nil =>
      rw [hr d hhead] at hd
      cases hd
    | cons e u =>
      obtain rfl := Option.some.inj hhead
      exact hmem List.mem_cons_self
  simp only [isHexadecimal, Bool.and_eq_false_imp, Bool.or_eq_false_iff, beq_eq_false_iff_ne]
  exact fun _ => ⟨hhead 'x' (by decide) fun hx => (hu _ hx).1 rfl,
    hhead 'X' (by decide) fun hx => (hu _ hx).2 rfl⟩

theorem isSteady_of_beginsNumber {c : Char} {cs : List Char} (h : beginsNumber (c :: cs) = true) :
    isSteady c = true ∧ startsName c = false := by
  simp only [beginsNumber, Bool.or_eq_true, Bool.and_eq_true, beq_iff_eq] at h
  rcases h with hdigit | ⟨rfl, _⟩
  · refine ⟨isSteady_of_isDigit hdigit, Bool.eq_false_iff.mpr fun hname => ?_⟩
    rw [isDigit_eq_false_of_startsName hname] at hdigit
    cases hdigit
  · decide

theorem measure_of_beginsNumber {fresh : Bool} {c : Char} {cs : List Char}
    (h : beginsNumber (c :: cs) = true) :
    measure fresh c cs = .ok ⟨some .number, numberLength (isHexadecimal c cs) c cs⟩ := by
  obtain ⟨hsteady, hname⟩ := isSteady_of_beginsNumber h
  have hbegins : BeginsToken fresh c cs := by
    refine ⟨isBlank_eq_false_of_isPlain ?_, ?_, ?_⟩
    · exact continuesNumber_of_joinsNumber (joinsNumber_of_isSteady hsteady) false 'e'
    all_goals
      rintro rfl
      exact absurd hsteady (by decide)
  rw [measure_eq_token hbegins, token, if_neg (Bool.eq_false_iff.mp hname)]
  exact if_pos h

/-- What begins like a number is cut as one. -/
theorem exists_token_of_beginsNumber {p : Position} {fresh : Bool} {c : Char} {cs : List Char}
    {ts : List Token} (hbegins : beginsNumber (c :: cs) = true)
    (h : scan p fresh (c :: cs) = .ok ts) :
    ∃ t rest, ts = t :: rest ∧ t.kind = .number ∧ t.position = p ∧
      t.text.toList = c :: cs.take (numberLength (isHexadecimal c cs) c cs) := by
  obtain ⟨hsteady, _⟩ := isSteady_of_beginsNumber hbegins
  rw [scan_token p (measure_of_beginsNumber hbegins)] at h
  generalize numberLength (isHexadecimal c cs) c cs = n at h ⊢
  have harrow : c :: cs.take n ≠ ['-', '>'] := by
    intro hcons
    obtain ⟨rfl, _⟩ := List.cons.inj hcons
    exact absurd hsteady (by decide)
  cases hrest : scan (p.advance (c :: cs.take n)) ((c :: cs.take n).contains '\n')
      (cs.drop n) with
  | error fault =>
    rw [hrest] at h
    cases h
  | ok rest =>
    rw [hrest] at h
    obtain rfl := Except.ok.inj h
    exact ⟨_, rest, rfl, rfl, rfl, toList_spelling harrow⟩

/-- **A numeric literal is read as one number**, up to the first sign of a hexadecimal one. It is
one token exactly if it is not hexadecimal or has no sign. -/
theorem exists_number_of_scan {p : Position} {fresh : Bool} {w r : List Char} {ts : List Token}
    (hw : NumericLiteral w) (hr : ∀ c ∈ r.head?, joinsNumber c = false)
    (h : scan p fresh (w ++ r) = .ok ts) :
    ∃ t rest, ts = t :: rest ∧ t.kind = .number ∧ t.position = p ∧ t.text.toList = readPart w ∧
      (t.text.toList = w ↔ ¬ SignedHexadecimal w) := by
  suffices hfirst : ∃ t rest, ts = t :: rest ∧ t.kind = .number ∧ t.position = p ∧
      t.text.toList = readPart w by
    obtain ⟨t, rest, hts, hkind, hposition, htext⟩ := hfirst
    exact ⟨t, rest, hts, hkind, hposition, htext, htext ▸ readPart_eq_self_iff w⟩
  rcases cases_prefix hw with hplain | ⟨x, u, rfl, hx, hu⟩
  · obtain ⟨c, u, rfl⟩ : ∃ c u, w = c :: u := by
      cases w with
      | nil => cases hplain.begins
      | cons c u => exact ⟨c, u, rfl⟩
    have hhex : isHexadecimal c (u ++ r) = false :=
      isHexadecimal_eq_false (fun d hd => hplain.unprefixed d (List.mem_cons_of_mem c hd)) hr c
    have hbegins : beginsNumber (c :: (u ++ r)) = true := beginsNumber_append hplain.begins r
    rw [List.cons_append] at h
    obtain ⟨t, rest, hts, hkind, hposition, htext⟩ := exists_token_of_beginsNumber hbegins h
    obtain ⟨z, hz, hlength⟩ := hplain.settles c u rfl
    refine ⟨t, rest, hts, hkind, hposition, ?_⟩
    rw [htext, hhex, hlength, numberLength_of_settled hz hr, Nat.add_zero, List.take_left, readPart,
      isPrefixed_eq_false hplain.unprefixed]
    rfl
  · have hhex : isHexadecimal '0' (x :: (u ++ r)) = true := by rcases hx with rfl | rfl <;> rfl
    have hprefixed : isPrefixed ('0' :: x :: u) = true := by rcases hx with rfl | rfl <;> rfl
    have hjoin : joinsNumber x = true := by rcases hx with rfl | rfl <;> decide
    have hu : ∀ c ∈ x :: u, (joinsNumber c || isSign c) = true :=
      List.forall_mem_cons.mpr ⟨by rw [hjoin, Bool.true_or], hu⟩
    rw [List.cons_append, List.cons_append] at h
    obtain ⟨t, rest, hts, hkind, hposition, htext⟩ := exists_token_of_beginsNumber rfl h
    refine ⟨t, rest, hts, hkind, hposition, ?_⟩
    have hlength := numberLength_hexadecimal (a := '0') hu hr
    rw [List.cons_append] at hlength
    rw [htext, hhex, hlength, readPart, if_pos hprefixed, ← List.cons_append,
      List.take_append_of_le_length (List.takeWhile_prefix _).length_le,
      ← List.prefix_iff_eq_take.mp (List.takeWhile_prefix _)]
    rfl

/-- Separators, a point, the sign of an exponent and a suffix, and behind them a sign that is none
of it. -/
theorem scan_number_exponent : ∃ ts,
    NumericLiteral "1'0.5e-3f".toList ∧ (∀ c ∈ "+1".toList.head?, joinsNumber c = false) ∧
      scan .start true ("1'0.5e-3f".toList ++ "+1".toList) = .ok ts ∧
      ∃ t rest, ts = t :: rest ∧ t.kind = .number ∧ t.position = .start ∧
        t.text.toList = "1'0.5e-3f".toList := by
  have hm : Fraction isDigit (['1', '\'', '0'] ++ '.' :: ['5']) :=
    .between (.separated rfl (.last rfl)) (.last rfl)
  have hw : NumericLiteral "1'0.5e-3f".toList :=
    .float (e := ['e', '-', '3']) (s := ['f']) (.inl hm) (.signed (by decide) rfl (.last rfl))
      (by decide)
  have hhead : "+1".toList.head? = some '+' := by decide +kernel
  have hr : ∀ c ∈ "+1".toList.head?, joinsNumber c = false := by
    intro c hc
    rw [hhead] at hc
    obtain rfl := Option.some.inj hc
    decide
  obtain ⟨ts, hts⟩ := Listing.exists_ok
    (e := scan .start true ("1'0.5e-3f".toList ++ "+1".toList)) (by decide +kernel)
  obtain ⟨t, rest, hcons, hkind, hposition, _, hwhole⟩ := exists_number_of_scan hw hr hts
  have hunsigned : ¬ SignedHexadecimal "1'0.5e-3f".toList := by decide +kernel
  exact ⟨ts, hw, hr, hts, t, rest, hcons, hkind, hposition, hwhole.mpr hunsigned⟩

/-- In a hexadecimal number `p` is the letter of an exponent, and its sign is cut off. -/
theorem scan_hexadecimal_exponent : ∃ ts,
    NumericLiteral "0x1p-3".toList ∧ (∀ c ∈ ([] : List Char).head?, joinsNumber c = false) ∧
      scan .start true ("0x1p-3".toList ++ []) = .ok ts ∧
      ts.map (fun t => (t.text, t.kind)) =
        [("0x1p", .number), ("-", .operator), ("3", .number)] := by
  have hw : NumericLiteral "0x1p-3".toList :=
    .hexadecimalFloat (x := 'x') (m := ['1']) (e := ['p', '-', '3']) (s := []) (by decide)
      (.inr (.last rfl)) (.signed (by decide) rfl (.last rfl)) (by decide)
  obtain ⟨ts, hts, htexts⟩ : ∃ ts, scan .start true ("0x1p-3".toList ++ []) = .ok ts ∧
      ts.map (fun t => (t.text, t.kind)) =
        [("0x1p", .number), ("-", .operator), ("3", .number)] :=
    Listing.exists_ok_of_any (by decide +kernel)
  exact ⟨ts, hw, nofun, hts, htexts⟩

end Lexeme

end StackEscape
