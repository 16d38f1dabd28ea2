import StackEscape.Outline.Heading

/-!
# Looking back

Declarators and headings are recognized by tokens in front of the place that has been reached: the
name in front of a parameter list, the qualifiers in front of a name. The readers count back without
asking whether there is anything to count back over. Here they are again with every step back
checked, `checkedQualifiedStart` for `qualifiedStart` and so on: `none` is the answer of a reader
that steps in front of the place where it began. They turn out to be the same readers.
-/

namespace StackEscape

/-- The place `n` tokens in front of `i`, unless it lies in front of `start`. -/
def back? (start i n : Nat) : Option Nat := if start + n ≤ i then some (i - n) else none

theorem back?_of_le {start i n : Nat} (h : start + n ≤ i) : back? start i n = some (i - n) :=
  if_pos h

theorem eq_sub_of_back? {start i n j : Nat} (h : back? start i n = some j) :
    start + n ≤ i ∧ j = i - n := by
  unfold back? at h
  split at h
  · next hle => exact ⟨hle, (Option.some.inj h).symm⟩
  · cases h

theorem Listing.textBefore_of_pos (l : Listing) {i : Nat} (h : 0 < i) :
    l.textBefore i = l.text (i - 1) := by
  cases i with
  | zero => omega
  | succ => rfl

namespace Declarator

def checkedOfTokens (l : Listing) (start stop : Nat) : Option (Option Declarator) :=
  if !l.isName start || Word.isStatementWord (l.text start) then some none
  else match end? l stop start with
    | none => some none
    | some k =>
      if k ≤ start + 1 || stop < k then some none
      else
        (back? start k 1).bind fun name =>
        (back? start name 1).bind fun before =>
        if !l.isName name || Word.isReservedInNames (l.text name) || l.text before = "::" then
          some none
        else match typeTokens? l name start with
          | none => some none
          | some types =>
            let words := types.map l.text
            match (types.filter (namesType l)).getLast? with
            | none => some none
            | some t =>
              some (some
                { typeStart := start
                  nameToken := name
                  typeName := l.text t
                  isStatic := words.any isStaticWord
                  isPointer := words.contains "*"
                  isReference := words.any isReferenceMark
                  isArray := l.text (name + 1) = "[" })

/-- A declarator is read without a step in front of its first token. -/
theorem checkedOfTokens_eq (l : Listing) (start stop : Nat) :
    checkedOfTokens l start stop = some (ofTokens? l start stop) := by
  unfold checkedOfTokens ofTokens?
  split
  · rfl
  cases end? l stop start with
  | none => rfl
  | some k =>
    dsimp only
    by_cases hk : k ≤ start + 1 || stop < k
    · simp only [hk, Bool.true_or, if_true]
    · have hlong : start + 2 ≤ k := by
        simp only [Bool.or_eq_true, decide_eq_true_eq, not_or] at hk
        omega
      rw [if_neg hk, back?_of_le (by omega), Option.bind_some, back?_of_le (by omega),
        Option.bind_some, l.textBefore_of_pos (by omega)]
      simp only [Bool.not_eq_true] at hk
      simp only [hk, Bool.false_or]
      split
      · rfl
      · cases typeTokens? l (k - 1) start with
        | none => rfl
        | some types =>
          dsimp only
          cases (types.filter (namesType l)).getLast? <;> rfl

end Declarator

namespace Heading

/-! ## Qualifiers -/

def checkedQualifiedStart (l : Listing) (start i : Nat) : Option Nat :=
  if start + 2 ≤ i then
    match back? start i 1, _h : back? start i 2 with
    | some colons, some owner =>
      if l.text colons = "::" && l.isName owner then checkedQualifiedStart l start owner
      else some i
    | _, _ => none
  else some i
termination_by i
decreasing_by
  have := eq_sub_of_back? _h
  omega

theorem checkedQualifiedStart_of_le {l : Listing} {start i : Nat} (h : start + 2 ≤ i) :
    checkedQualifiedStart l start i =
      if l.text (i - 1) = "::" && l.isName (i - 2) then checkedQualifiedStart l start (i - 2)
      else some i := by
  rw [checkedQualifiedStart, if_pos h]
  split
  · next hcolons howner =>
    obtain ⟨-, rfl⟩ := eq_sub_of_back? hcolons
    obtain ⟨-, rfl⟩ := eq_sub_of_back? howner
    rfl
  · next hoff => exact absurd (back?_of_le h) (hoff _ _ (back?_of_le (by omega)))

theorem checkedQualifiedStart_of_lt {l : Listing} {start i : Nat} (h : i < start + 2) :
    checkedQualifiedStart l start i = some i := by
  rw [checkedQualifiedStart, if_neg (by omega)]

theorem checkedQualifiedStart_eq (l : Listing) (start : Nat) :
    ∀ i, checkedQualifiedStart l start i = some (qualifiedStart l start i)
  | 0 => checkedQualifiedStart_of_lt (by omega)
  | 1 => checkedQualifiedStart_of_lt (by omega)
  | n + 2 => by
    rw [qualifiedStart]
    by_cases hle : start ≤ n
    · rw [checkedQualifiedStart_of_le (by omega)]
      simp only [Nat.add_sub_cancel, Nat.add_one_sub_one, hle, decide_true, Bool.true_and]
      rw [checkedQualifiedStart_eq l start n]
      split <;> rfl
    · rw [checkedQualifiedStart_of_lt (by omega), if_neg (by simp [hle])]

/-- Where the name of a function begins that ends at `name`, its qualifiers and a `~` included. -/
def nameStart (l : Listing) (start name : Nat) : Nat :=
  let unqualified := qualifiedStart l start name
  if start < unqualified && l.text (unqualified - 1) = "~" then unqualified - 1 else unqualified

def checkedNameStart (l : Listing) (start name : Nat) : Option Nat :=
  (checkedQualifiedStart l start name).bind fun unqualified =>
    if start < unqualified then
      (back? start unqualified 1).map fun tilde => if l.text tilde = "~" then tilde else unqualified
    else some unqualified

theorem checkedNameStart_eq (l : Listing) (start name : Nat) :
    checkedNameStart l start name = some (nameStart l start name) := by
  rw [checkedNameStart, checkedQualifiedStart_eq, Option.bind_some]
  unfold nameStart
  dsimp only
  by_cases hlt : start < qualifiedStart l start name
  · rw [if_pos hlt, back?_of_le (by omega)]
    simp [hlt]
  · simp [hlt]

/-- Qualifiers stand behind the front of the definition. -/
theorem qualifiedStart_cases (l : Listing) (start n : Nat) :
    qualifiedStart l start n = n ∨ start + 2 ≤ n := by
  unfold qualifiedStart
  split
  · split
    · next n hguard =>
      have hle := of_decide_eq_true (Bool.and_eq_true_iff.mp (Bool.and_eq_true_iff.mp hguard).1).1
      exact .inr (Nat.add_le_add_right hle 2)
    · exact .inl rfl
  · exact .inl rfl

/-- A name that does not begin where it ends has tokens of the definition in front of it: two of
them, unless it is a `~` that it begins with. -/
theorem nameStart_lt {l : Listing} {start name : Nat} (h : nameStart l start name < name) :
    start + 1 ≤ name ∧ (l.text (name - 1) = "::" → start + 2 ≤ name) := by
  rcases qualifiedStart_cases l start name with hsame | hle
  · unfold nameStart at h
    rw [hsame] at h
    dsimp only at h
    split at h
    · next htilde =>
      obtain ⟨hlt, htilde⟩ := Bool.and_eq_true_iff.mp htilde
      -- what stands in front of the name is a `~` here, and so no `::`
      refine ⟨of_decide_eq_true hlt, fun hcolons => ?_⟩
      rw [of_decide_eq_true htilde] at hcolons
      exact absurd hcolons (by decide)
    · exact absurd h (Nat.lt_irrefl name)
  · exact ⟨Nat.le_of_succ_le hle, fun _ => hle⟩

/-- The class that a function belongs to, with the steps back checked. -/
def checkedQualifier (l : Listing) (start first name : Nat) : Option (Option String) :=
  if first < name then
    (back? start name 1).bind fun colons =>
      if l.text colons = "::" then (back? start name 2).map fun owner => some (l.text owner)
      else some none
  else some none

theorem checkedQualifier_eq (l : Listing) (start name : Nat) :
    checkedQualifier l start (nameStart l start name) name =
      some (if nameStart l start name < name && l.text (name - 1) = "::" then
        some (l.text (name - 2)) else none) := by
  unfold checkedQualifier
  by_cases hlt : nameStart l start name < name
  · obtain ⟨hone, htwo⟩ := nameStart_lt hlt
    rw [if_pos hlt, back?_of_le hone, Option.bind_some]
    by_cases hcolons : l.text (name - 1) = "::"
    · simp [hlt, hcolons, back?_of_le (htwo hcolons)]
    · simp [hcolons]
  · simp [hlt]

/-! ## Headings -/

def checkedReturnCategory (l : Listing) (start n : Nat) : Option ReturnCategory :=
  if start + 3 ≤ n then
    (back? start n 3).bind fun const =>
    (back? start n 2).bind fun char =>
    (back? start n 1).map fun last =>
      if l.text const = "const" && l.text char = "char" && l.text last = "*" then .constCharPointer
      else if l.text last = "*" then .pointer
      else if l.text last = "&" then .reference
      else .byValue
  else if n ≤ start then some .byValue
  else (back? start n 1).map fun last =>
    if l.text last = "*" then .pointer
    else if l.text last = "&" then .reference
    else .byValue

theorem checkedReturnCategory_eq (l : Listing) (start n : Nat) :
    checkedReturnCategory l start n = some (returnCategory l start n) := by
  unfold checkedReturnCategory returnCategory
  by_cases hthree : start + 3 ≤ n
  · have hlt : ¬ n ≤ start := by omega
    rw [if_pos hthree, back?_of_le hthree, back?_of_le (by omega), back?_of_le (by omega)]
    simp only [Option.bind_some, Option.map_some, hthree, hlt, decide_true, Bool.true_and, if_false]
  · by_cases hle : n ≤ start
    · simp [hthree, hle]
    · rw [if_neg hthree, if_neg hle, back?_of_le (by omega)]
      simp [hthree, hle]

def checkedNameToken (l : Listing) (start opener : Nat) : Option Nat → Option (Option Nat)
  | some operator => some (some operator)
  | none => (back? start opener 1).map fun name => if namesFunction l name then some name else none

theorem checkedNameToken_eq {l : Listing} {start opener : Nat} (h : start < opener)
    (operator : Option Nat) :
    checkedNameToken l start opener operator = some (nameToken? l opener operator) := by
  cases operator with
  | some operator => rfl
  | none => rw [checkedNameToken, back?_of_le h, Option.map_some, nameToken?]

def checkedParameter (l : Listing) (start stop : Nat) : Option (Option Declarator) :=
  (Declarator.checkedOfTokens l start stop).map fun
    | none => none
    | some d =>
      let after := d.nameToken + 1
      if after = stop || l.text after = "=" then some { d with isArray := false }
      else if l.text after = "[" then some d
      else none

theorem checkedParameter_eq (l : Listing) (start stop : Nat) :
    checkedParameter l start stop = some (parameter? l start stop) := by
  unfold checkedParameter parameter?
  cases hread : Declarator.ofTokens? l start stop <;>
    simp only [Declarator.checkedOfTokens_eq, hread, Option.map_some]

/-- The parameters, no one of them read with a step in front of its own first token. -/
def checkedParametersOf (l : Listing) (opener close : Nat) : Option (List Declarator) :=
  ((segments l close (opener + 1) (opener + 1)).mapM fun (start, stop) =>
    checkedParameter l start stop).map (List.filterMap id)

theorem checkedParametersOf_eq (l : Listing) (opener close : Nat) :
    checkedParametersOf l opener close = some (parametersOf l opener close) := by
  have hread : (segments l close (opener + 1) (opener + 1)).mapM
      (fun part => checkedParameter l part.1 part.2) =
        some ((segments l close (opener + 1) (opener + 1)).map
          fun part => parameter? l part.1 part.2) := by
    simp only [checkedParameter_eq]
    exact List.mapM_pure
  rw [checkedParametersOf, hread, Option.map_some, List.filterMap_map, parametersOf]
  rfl

def checkedOfTokens (l : Listing) (start stop : Nat) : Option (Option Heading) :=
  match parameterList? l stop start with
  | none => some none
  | some (opener, operator) =>
    if stop ≤ opener || opener = start then some none
    else
      (checkedNameToken l start opener operator).bind fun name? =>
      match name?, l.closing? opener with
      | some name, some close =>
        match bodyOpen? l stop (close + 1) with
        | none => some none
        | some bodyOpen =>
          match l.closing? bodyOpen with
          | none => some none
          | some bodyClose =>
            (checkedNameStart l start name).bind fun first =>
            (checkedReturnCategory l start first).bind fun returns =>
            (checkedQualifier l start first name).bind fun qualifier =>
            (checkedParametersOf l opener close).map fun parameters =>
              some
                { name := nameText l name opener
                  nameToken := name
                  returns, qualifier, parameters, bodyOpen, bodyClose }
      | _, _ => some none

/-- **A heading is read without a step in front of its first token**, and so is each of its
parameters. -/
theorem checkedOfTokens_eq (l : Listing) (start stop : Nat) :
    checkedOfTokens l start stop = some (ofTokens? l start stop) := by
  unfold checkedOfTokens ofTokens?
  cases hlist : parameterList? l stop start with
  | none => rfl
  | some list =>
    obtain ⟨opener, operator⟩ := list
    dsimp only
    split
    · rfl
    · next hopener =>
      have hlt : start < opener := by
        have := le_parameterList? hlist
        simp only [Bool.or_eq_true, decide_eq_true_eq, not_or] at hopener
        omega
      rw [checkedNameToken_eq hlt, Option.bind_some]
      cases nameToken? l opener operator with
      | none => rfl
      | some name =>
        cases l.closing? opener with
        | none => rfl
        | some close =>
          dsimp only
          cases bodyOpen? l stop (close + 1) with
          | none => rfl
          | some bodyOpen =>
            dsimp only
            cases l.closing? bodyOpen with
            | none => rfl
            | some bodyClose =>
              simp only [checkedNameStart_eq, checkedReturnCategory_eq, checkedQualifier_eq,
                checkedParametersOf_eq, Option.bind_some, Option.map_some]
              rfl

end Heading

end StackEscape
