import StackEscape.Listing.Scan

/-!
# Tokens apart

Where a token ends depends on no more of the text behind it than stands before the next blank. If
that text is cut off there, or goes on in another way from there on, the token is measured as
before: no token has a blank in it that a quote does not enclose, and no operator looks past one.
-/

namespace StackEscape

/-- A text is over, or goes on with a blank. -/
def EndsWord (rest : List Char) : Prop := ∀ c ∈ rest.head?, Text.isBlank c = true

theorem EndsWord.nil : EndsWord [] := nofun

theorem EndsWord.blank {c : Char} (h : Text.isBlank c = true) (cs : List Char) :
    EndsWord (c :: cs) := by
  intro d hd
  rwa [← Option.some.inj hd]

namespace Lexeme

/-! ## Blanks -/

section
variable {c : Char}

/-- Blanks lie outside the visible characters of ASCII. -/
theorem not_visible_of_isBlank (h : Text.isBlank c = true) : c.toNat ≤ 0x20 ∨ 0x7F ≤ c.toNat := by
  simp only [Text.isBlank, Bool.or_eq_true, Bool.and_eq_true, decide_eq_true_eq,
    beq_iff_eq] at h
  omega

theorem isLetter_eq_false_of_isBlank (h : Text.isBlank c = true) : isLetter c = false := by
  have hvisible := not_visible_of_isBlank h
  rw [Bool.eq_false_iff]
  simp only [isLetter, ne_eq, Bool.or_eq_true, Bool.and_eq_true, decide_eq_true_eq, Char.le_def,
    UInt32.le_iff_toNat_le, Char.reduceVal, UInt32.reduceToNat]
  change ¬ ((_ ≤ c.toNat ∧ c.toNat ≤ _) ∨ (_ ≤ c.toNat ∧ c.toNat ≤ _))
  omega

theorem isDigit_eq_false_of_isBlank (h : Text.isBlank c = true) : isDigit c = false := by
  have hvisible := not_visible_of_isBlank h
  rw [Bool.eq_false_iff]
  simp only [isDigit, ne_eq, Bool.and_eq_true, decide_eq_true_eq, Char.le_def,
    UInt32.le_iff_toNat_le, Char.reduceVal, UInt32.reduceToNat]
  change ¬ (_ ≤ c.toNat ∧ c.toNat ≤ _)
  omega

theorem ne_of_isBlank (h : Text.isBlank c = true) {d : Char} (hd : Text.isBlank d = false) :
    c ≠ d := by
  rintro rfl
  rw [h] at hd
  cases hd

theorem continuesName_eq_false_of_isBlank (h : Text.isBlank c = true) :
    continuesName c = false := by
  simp only [continuesName, isLetter_eq_false_of_isBlank h, isDigit_eq_false_of_isBlank h,
    Bool.false_or, beq_eq_false_iff_ne]
  exact ne_of_isBlank h (by decide)

theorem continuesNumber_eq_false_of_isBlank (h : Text.isBlank c = true) (b : Bool) (last : Char) :
    continuesNumber b last c = false := by
  have hne : ∀ {d : Char}, Text.isBlank d = false → (c == d) = false :=
    fun hd => beq_eq_false_iff_ne.mpr (ne_of_isBlank h hd)
  simp only [continuesNumber, isLetter_eq_false_of_isBlank h, isDigit_eq_false_of_isBlank h,
    hne (d := '_') (by decide), hne (d := '.') (by decide), hne (d := '\'') (by decide),
    hne (d := '+') (by decide), hne (d := '-') (by decide), Bool.or_self, Bool.false_and]

theorem ofChar?_of_isBlank (h : Text.isBlank c = true) : Quote.ofChar? c = none := by
  rw [Quote.ofChar?, if_neg (ne_of_isBlank h (by decide)), if_neg (ne_of_isBlank h (by decide))]

end

/-! ## Runs, numbers, literals and operators -/

section
variable {front tail rest : List Char}

theorem take_runLength (p : Char → Bool) (cs : List Char) :
    cs.take (runLength p cs) = cs.takeWhile p :=
  (List.prefix_iff_eq_take.mp (List.takeWhile_prefix p)).symm

theorem drop_runLength (p : Char → Bool) (cs : List Char) :
    cs.drop (runLength p cs) = cs.dropWhile p := by
  have hsplit := List.take_append_drop (runLength p cs) cs
  rw [take_runLength] at hsplit
  exact List.append_cancel_left (hsplit.trans List.takeWhile_append_dropWhile.symm)

theorem runLength_le (p : Char → Bool) (cs : List Char) : runLength p cs ≤ cs.length :=
  (List.takeWhile_prefix p).length_le

/-- A run that ends before a text is cut off ends there still. -/
theorem runLength_cut {p : Char → Bool} (hle : runLength p (front ++ tail) ≤ front.length)
    (hrest : ∀ c ∈ rest.head?, p c = false) :
    runLength p (front ++ rest) = runLength p (front ++ tail) := by
  induction front with
  | nil =>
    rw [List.nil_append, Nat.le_zero.mp hle]
    cases rest with
    | nil => rfl
    | cons c rest => simp [runLength, hrest c rfl]
  | cons c front ih =>
    cases hc : p c with
    | false => simp [runLength, hc]
    | true =>
      simp only [runLength, List.cons_append, List.takeWhile_cons, hc, if_true,
        List.length_cons] at hle ih ⊢
      rw [ih (Nat.le_of_succ_le_succ hle)]

theorem numberLength_le (b : Bool) (last : Char) (cs : List Char) :
    numberLength b last cs ≤ cs.length := by
  fun_induction numberLength b last cs with
  | case1 => exact Nat.le_refl 0
  | case2 _ _ _ _ ih => exact Nat.succ_le_succ ih
  | case3 => exact Nat.zero_le _

theorem numberLength_of_endsWord (b : Bool) (last : Char) (hrest : EndsWord rest) :
    numberLength b last rest = 0 := by
  cases rest with
  | nil => rfl
  | cons c rest =>
    rw [numberLength, continuesNumber_eq_false_of_isBlank (hrest c rfl)]
    rfl

theorem numberLength_cut {b : Bool} {last : Char}
    (hle : numberLength b last (front ++ tail) ≤ front.length) (hrest : EndsWord rest) :
    numberLength b last (front ++ rest) = numberLength b last (front ++ tail) := by
  induction front generalizing last with
  | nil =>
    rw [List.nil_append, Nat.le_zero.mp hle]
    exact numberLength_of_endsWord b last hrest
  | cons c front ih =>
    cases hc : continuesNumber b last c with
    | false => simp [numberLength, hc]
    | true =>
      simp only [List.cons_append, numberLength, hc, if_true, List.length_cons] at hle ⊢
      rw [ih (Nat.le_of_succ_le_succ hle)]

theorem quotedLength?_cons {quote c : Char} (hc : c ≠ '\\') (cs : List Char) :
    quotedLength? quote (c :: cs) =
      if c = quote then some 1
      else if c = '\n' then none
      else (quotedLength? quote cs).map (· + 1) := by
  rw [quotedLength?]
  exact fun _ _ h => absurd h hc

/-- A literal ends at its closing quote, whatever follows. -/
theorem quotedLength?_take {quote : Char} (hquote : quote ≠ '\\') {cs : List Char} {n : Nat}
    (h : quotedLength? quote cs = some n) :
    n ≤ cs.length ∧ ∀ rest, quotedLength? quote (cs.take n ++ rest) = some n := by
  fun_induction quotedLength? quote cs generalizing n with
  | case1 => cases h
  | case2 c cs ih =>
    obtain ⟨m, hm, rfl⟩ := Option.map_eq_some_iff.mp h
    obtain ⟨hle, htake⟩ := ih hm
    refine ⟨Nat.add_le_add_right hle 2, fun rest => ?_⟩
    change quotedLength? quote ('\\' :: c :: (cs.take m ++ rest)) = _
    rw [quotedLength?, htake]
    rfl
  | case3 cs =>
    obtain rfl := Option.some.inj h
    refine ⟨Nat.succ_le_succ (Nat.zero_le _), fun rest => ?_⟩
    change quotedLength? quote (quote :: rest) = _
    rw [quotedLength?_cons hquote, if_pos rfl]
  | case4 => cases h
  | case5 c cs hno hc hfeed ih =>
    obtain ⟨m, hm, rfl⟩ := Option.map_eq_some_iff.mp h
    obtain ⟨hle, htake⟩ := ih hm
    have hslash : c ≠ '\\' := by
      rintro rfl
      cases cs with
      | nil => cases hm
      | cons d cs => exact hno d cs rfl rfl
    refine ⟨Nat.succ_le_succ hle, fun rest => ?_⟩
    change quotedLength? quote (c :: (cs.take m ++ rest)) = _
    rw [quotedLength?_cons hslash, if_neg hc, if_neg hfeed, htake]
    rfl

theorem char_ne_backslash (q : Quote) : q.char ≠ '\\' := by cases q <;> decide

theorem extra_le_of_quoted {q : Quote} {mark : Nat} {body : List Char} {x : Lexeme}
    (h : quoted q mark body = .ok x) : x.extra ≤ mark + body.length := by
  unfold quoted at h
  split at h
  · next hn =>
    obtain rfl := Except.ok.inj h
    exact Nat.add_le_add_left (quotedLength?_take (char_ne_backslash q) hn).1 mark
  · cases h

theorem quoted_cut {q : Quote} {mark : Nat} {x : Lexeme} (h : quoted q mark (front ++ tail) = .ok x)
    (hle : x.extra ≤ mark + front.length) (rest : List Char) :
    quoted q mark (front ++ rest) = .ok x := by
  unfold quoted at h
  split at h
  · next n hn =>
    obtain rfl := Except.ok.inj h
    have hlength : n ≤ front.length := Nat.le_of_add_le_add_left hle
    have htake := (quotedLength?_take (char_ne_backslash q) hn).2 (front.drop n ++ rest)
    rw [List.take_append_of_le_length hlength, ← List.append_assoc, List.take_append_drop] at htake
    rw [quoted, htake]
  · cases h

/-- An operator that could be read across a blank would have one in it. -/
theorem isPrefixOf_cut {op : List Char} (hop : ∀ c ∈ op, Text.isBlank c = false) (w : List Char)
    (hrest : EndsWord rest) : op.isPrefixOf (w ++ rest) = op.isPrefixOf w := by
  induction op generalizing w with
  | nil => rfl
  | cons o op ih =>
    obtain ⟨ho, hop⟩ := List.forall_mem_cons.mp hop
    cases w with
    | cons c w =>
      rw [List.cons_append, List.isPrefixOf_cons_cons, List.isPrefixOf_cons_cons, ih hop w]
    | nil =>
      cases rest with
      | nil => rfl
      | cons c rest =>
        have hne : (o == c) = false :=
          beq_eq_false_iff_ne.mpr (ne_of_isBlank (hrest c rfl) ho).symm
        rw [List.nil_append, List.isPrefixOf_cons_cons, hne]
        rfl

theorem isBlank_eq_false_of_mem_longOperators :
    ∀ op ∈ longOperators, ∀ c ∈ op, Text.isBlank c = false := by
  have hall : (longOperators.all fun op => op.all fun c => !Text.isBlank c) = true := by decide
  intro op hop c hc
  have hc := List.all_eq_true.mp (List.all_eq_true.mp hall op hop) c hc
  rwa [Bool.not_eq_true'] at hc

theorem operatorLength_le (cs : List Char) : operatorLength cs ≤ cs.length - 1 := by
  unfold operatorLength
  split
  · next op hop =>
    have hprefix := List.find?_some hop
    exact Nat.sub_le_sub_right (List.isPrefixOf_iff_prefix.mp hprefix).length_le 1
  · exact Nat.zero_le _

/-- What is found first is found first among fewer, if it is one of them. -/
theorem find?_of_imp {α : Type} {p q : α → Bool} {l : List α} {a : α}
    (himp : ∀ x ∈ l, q x = true → p x = true) (h : l.find? p = some a) (ha : q a = true) :
    l.find? q = some a := by
  obtain ⟨_, before, behind, rfl, hbefore⟩ := List.find?_eq_some_iff_append.mp h
  refine List.find?_eq_some_iff_append.mpr ⟨ha, before, behind, rfl, fun x hx => ?_⟩
  have hno := hbefore x hx
  cases hq : q x with
  | false => rfl
  | true => rw [himp x (List.mem_append_left _ hx) hq] at hno; cases hno

/-- The longest operator stays the longest one. -/
theorem operatorLength_cut {c : Char}
    (hle : operatorLength (c :: (front ++ tail)) ≤ front.length) (hrest : EndsWord rest) :
    operatorLength (c :: (front ++ rest)) = operatorLength (c :: (front ++ tail)) := by
  have himp : ∀ op ∈ longOperators, op.isPrefixOf (c :: (front ++ rest)) = true →
      op.isPrefixOf (c :: (front ++ tail)) = true := by
    intro op hop h
    rw [← List.cons_append,
      isPrefixOf_cut (isBlank_eq_false_of_mem_longOperators op hop) _ hrest] at h
    exact List.isPrefixOf_iff_prefix.mpr
      ((List.isPrefixOf_iff_prefix.mp h).trans (List.prefix_append (c :: front) tail))
  unfold operatorLength at hle ⊢
  cases hfind : longOperators.find? (·.isPrefixOf (c :: (front ++ tail))) with
  | none =>
    have hnone : longOperators.find? (·.isPrefixOf (c :: (front ++ rest))) = none := by
      refine List.find?_eq_none.mpr fun op hop h => ?_
      exact List.find?_eq_none.mp hfind op hop (himp op hop h)
    rw [hnone]
  | some op =>
    rw [hfind] at hle
    have hfound := List.find?_some hfind
    have hop := List.isPrefixOf_iff_prefix.mp hfound
    have hfront : op <+: c :: front := by
      refine List.prefix_of_prefix_length_le hop (List.prefix_append (c :: front) tail) ?_
      rw [List.length_cons]
      dsimp only at hle
      omega
    have hrest' := List.isPrefixOf_iff_prefix.mpr
      (hfront.trans (List.prefix_append (c :: front) rest))
    rw [find?_of_imp himp hfind hrest']

end

/-! ## Tokens -/

section
variable {c : Char} {cs front tail rest : List Char} {x : Lexeme}

/-- What begins like a name is a name, or a literal that reaches farther. -/
theorem cases_named (h : named c cs = .ok x) :
    x = ⟨some .name, runLength continuesName cs⟩ ∨ runLength continuesName cs < x.extra := by
  simp only [named] at h
  split at h
  · split at h
    · unfold quoted at h
      split at h
      · obtain rfl := Except.ok.inj h
        exact .inr (by dsimp only; omega)
      · cases h
    · exact .inl (Except.ok.inj h).symm
  · exact .inl (Except.ok.inj h).symm

/-- No literal begins behind a name that ends with the text or in front of a blank. -/
theorem named_of_endsWord {word : List Char}
    (hword : runLength continuesName (word ++ rest) = word.length) (hrest : EndsWord rest) :
    named c (word ++ rest) = .ok ⟨some .name, word.length⟩ := by
  simp only [named, hword, List.drop_left, List.take_left]
  cases rest with
  | nil => rfl
  | cons d rest =>
    dsimp only
    rw [ofChar?_of_isBlank (hrest d rfl), ite_self]

theorem named_cut (h : named c (front ++ tail) = .ok x) (hle : x.extra ≤ front.length)
    (hrest : EndsWord rest) : named c (front ++ rest) = .ok x := by
  have hrun : runLength continuesName (front ++ tail) ≤ front.length := by
    rcases cases_named h with rfl | hlt
    · exact hle
    · omega
  have hcut := runLength_cut hrun fun d hd => continuesName_eq_false_of_isBlank (hrest d hd)
  rcases Nat.eq_or_lt_of_le hrun with heq | hlt
  · rcases cases_named h with rfl | hlt
    · rw [heq] at hcut ⊢
      exact named_of_endsWord hcut hrest
    · omega
  · -- the character behind the name belongs to the text in front
    generalize hn : runLength continuesName (front ++ tail) = n at hrun hcut hlt
    simp only [named, hn, List.take_append_of_le_length hrun, List.drop_append_of_le_length hrun,
      List.drop_eq_getElem_cons hlt, List.cons_append] at h
    simp only [named, hcut, List.take_append_of_le_length hrun, List.drop_append_of_le_length hrun,
      List.drop_eq_getElem_cons hlt, List.cons_append]
    split at h
    · refine quoted_cut h ?_ rest
      rw [List.length_drop]
      omega
    · exact h

/-- A number begins with a digit, or with a point that a digit belongs to. -/
theorem number_cut
    (hnumber : (isDigit c || (c == '.' && (front ++ tail).head?.any isDigit)) = true)
    (hle : numberLength (isHexadecimal c (front ++ tail)) c (front ++ tail) ≤ front.length)
    (hrest : EndsWord rest) :
    (isDigit c || (c == '.' && (front ++ rest).head?.any isDigit)) = true ∧
      numberLength (isHexadecimal c (front ++ rest)) c (front ++ rest) =
        numberLength (isHexadecimal c (front ++ tail)) c (front ++ tail) := by
  cases front with
  | cons d front =>
    refine ⟨hnumber, ?_⟩
    change numberLength (isHexadecimal c (d :: front)) c (d :: front ++ rest) = _
    exact numberLength_cut hle hrest
  | nil =>
    have hzero := Nat.le_zero.mp hle
    rw [List.nil_append] at hnumber hzero
    constructor
    · rcases Bool.or_eq_true_iff.mp hnumber with hdigit | hpoint
      · rw [hdigit, Bool.true_or]
      · -- the digit would belong to the number
        obtain ⟨_, hhead⟩ := Bool.and_eq_true_iff.mp hpoint
        cases tail with
        | nil => cases hhead
        | cons d tail =>
          have hd : isDigit d = true := hhead
          rw [numberLength, if_pos (by simp [continuesNumber, hd])] at hzero
          cases hzero
    · rw [List.nil_append, List.nil_append, hzero]
      exact numberLength_of_endsWord _ c hrest

/-- What stands at the front of a text that is not a blank stands in the text in front. -/
theorem head?_cut {p : Char → Bool} (hp : ∀ d, Text.isBlank d = true → p d = false)
    (hrest : EndsWord rest) (h : (front ++ rest).head?.any p = true) :
    (front ++ tail).head?.any p = true := by
  cases front with
  | cons d front => exact h
  | nil =>
    cases rest with
    | nil => cases h
    | cons d rest =>
      have hd : p d = true := h
      rw [hp d (hrest d rfl)] at hd
      cases hd

theorem token_cut (h : token c (front ++ tail) = .ok x) (hle : x.extra ≤ front.length)
    (hrest : EndsWord rest) : token c (front ++ rest) = .ok x := by
  unfold token at h ⊢
  split at h
  · next hc =>
    rw [if_pos hc]
    exact named_cut h hle hrest
  · next hc =>
    rw [if_neg hc]
    split at h
    · next hnumber =>
      obtain rfl := Except.ok.inj h
      obtain ⟨hnumber', hlength⟩ := number_cut hnumber hle hrest
      rw [if_pos hnumber', hlength]
    · next hnumber =>
      have hnumber' : ¬ (isDigit c || (c == '.' && (front ++ rest).head?.any isDigit)) = true := by
        intro h'
        refine hnumber (Bool.or_eq_true_iff.mpr ?_)
        refine (Bool.or_eq_true_iff.mp h').imp_right fun hpoint => ?_
        obtain ⟨hc, hdigit⟩ := Bool.and_eq_true_iff.mp hpoint
        rw [hc, head?_cut (fun _ => isDigit_eq_false_of_isBlank) hrest hdigit]
        rfl
      rw [if_neg hnumber']
      split at h
      · exact quoted_cut h (Nat.le_trans hle (Nat.le_add_left ..)) rest
      · obtain rfl := Except.ok.inj h
        rw [operatorLength_cut hle hrest]

/-- No gap begins with `c` in front of `cs`. -/
structure BeginsToken (fresh : Bool) (c : Char) (cs : List Char) : Prop where
  visible : Text.isBlank c = false
  comment : c = '/' → cs.head?.any (fun d => d = '/' || d = '*') = false
  directive : c = '#' → fresh = false

theorem measure_eq_token {fresh : Bool} (h : BeginsToken fresh c cs) :
    measure fresh c cs = token c cs := by
  have hno : ∀ d, (d = '/' || d = '*') = true → ¬ (c = '/' ∧ cs.head? = some d) := by
    rintro d hd ⟨hc, hhead⟩
    have hany := h.comment hc
    rw [hhead, Option.any_some, hd] at hany
    cases hany
  unfold measure
  rw [if_neg (Bool.eq_false_iff.mp h.visible), if_neg (hno '/' rfl), if_neg (hno '*' rfl), if_neg]
  rintro ⟨hc, hfresh⟩
  rw [h.directive hc] at hfresh
  cases hfresh

/-- Whatever is measured as a token begins one. -/
theorem beginsToken_of_measure {fresh : Bool} (h : measure fresh c cs = .ok x)
    (hkind : x.kind.isSome = true) : BeginsToken fresh c cs := by
  have hgap : ∀ {n : Nat}, (Except.ok ⟨none, n⟩ : Except LexemeFault Lexeme) ≠ .ok x := by
    rintro n h
    obtain rfl := Except.ok.inj h
    cases hkind
  unfold measure at h
  split at h
  · exact absurd h hgap
  next hblank =>
  split at h
  · exact absurd h hgap
  next hline =>
  split at h
  · split at h
    · exact absurd h hgap
    · cases h
  next hcomment =>
  split at h
  · exact absurd h hgap
  next hdirective =>
  refine ⟨Bool.eq_false_iff.mpr hblank, fun hc => ?_,
    fun hc => Bool.eq_false_iff.mpr fun hfresh => hdirective ⟨hc, hfresh⟩⟩
  cases cs with
  | nil => rfl
  | cons d cs =>
    rw [List.head?_cons, Option.any_some, Bool.eq_false_iff, Ne, Bool.or_eq_true,
      decide_eq_true_eq, decide_eq_true_eq]
    rintro (rfl | rfl)
    · exact hline ⟨hc, rfl⟩
    · exact hcomment ⟨hc, rfl⟩

/-- **Tokens are cut off alike** whatever follows the text that they stand in, if it does not run
on behind it. -/
theorem measure_cut {fresh : Bool} (h : measure fresh c (front ++ tail) = .ok x)
    (hkind : x.kind.isSome = true) (hle : x.extra ≤ front.length) (hrest : EndsWord rest) :
    measure fresh c (front ++ rest) = .ok x := by
  have hbegins := beginsToken_of_measure h hkind
  have hbegins' : BeginsToken fresh c (front ++ rest) := by
    refine { hbegins with comment := fun hc => Bool.eq_false_iff.mpr fun hany => ?_ }
    have hblank : ∀ d, Text.isBlank d = true → (d = '/' || d = '*') = false := by
      intro d hd
      simp [ne_of_isBlank hd (d := '/') (by decide), ne_of_isBlank hd (d := '*') (by decide)]
    have hno := hbegins.comment hc
    rw [head?_cut hblank hrest hany] at hno
    cases hno
  rw [measure_eq_token hbegins] at h
  rw [measure_eq_token hbegins', token_cut h hle hrest]

theorem extra_le_of_named (h : named c cs = .ok x) : x.extra ≤ cs.length := by
  simp only [named] at h
  split at h
  · next hdrop =>
    have hlength := congrArg List.length hdrop
    rw [List.length_drop, List.length_cons] at hlength
    split at h
    · have := extra_le_of_quoted h
      omega
    · obtain rfl := Except.ok.inj h
      exact runLength_le _ _
  · obtain rfl := Except.ok.inj h
    exact runLength_le _ _

/-- No token reaches beyond the text. -/
theorem extra_le_of_token (h : token c cs = .ok x) : x.extra ≤ cs.length := by
  unfold token at h
  split at h
  · exact extra_le_of_named h
  split at h
  · obtain rfl := Except.ok.inj h
    exact numberLength_le _ _ _
  split at h
  · have := extra_le_of_quoted h
    omega
  · obtain rfl := Except.ok.inj h
    exact operatorLength_le (c :: cs)

end

/-! ## One step of the scan -/

section
variable {fresh : Bool} {c : Char} {cs : List Char} {n : Nat} (p : Position)

theorem scan_nil (fresh : Bool) : scan p fresh [] = .ok [] := by rw [scan.eq_def]

theorem scan_token {kind : Kind} (h : measure fresh c cs = .ok ⟨some kind, n⟩) :
    scan p fresh (c :: cs) =
      (scan (p.advance (c :: cs.take n)) ((c :: cs.take n).contains '\n') (cs.drop n)).map
        (⟨spelling (c :: cs.take n), kind, p⟩ :: ·) := by
  rw [scan.eq_def]
  simp only [h]

theorem scan_gap (h : measure fresh c cs = .ok ⟨none, n⟩) :
    scan p fresh (c :: cs) =
      scan (p.advance (c :: cs.take n)) (fresh || (c :: cs.take n).contains '\n') (cs.drop n) := by
  rw [scan.eq_def]
  simp only [h]

/-- Blanks at the front are passed over together. -/
theorem scan_blanks (fresh : Bool) (cs : List Char) :
    scan p fresh cs =
      scan (p.advance (cs.takeWhile Text.isBlank))
        (fresh || (cs.takeWhile Text.isBlank).contains '\n') (cs.dropWhile Text.isBlank) := by
  have hnone : (([] : List Char).contains '\n') = false := rfl
  cases cs with
  | nil => rw [List.takeWhile_nil, List.dropWhile_nil, hnone, Bool.or_false, Position.advance_nil]
  | cons c cs =>
    cases hc : Text.isBlank c with
    | false =>
      rw [List.takeWhile_cons_of_neg (Bool.eq_false_iff.mp hc),
        List.dropWhile_cons_of_neg (Bool.eq_false_iff.mp hc), hnone, Bool.or_false,
        Position.advance_nil]
    | true =>
      have hmeasure : measure fresh c cs = .ok ⟨none, runLength Text.isBlank cs⟩ := by
        rw [measure, if_pos hc]
      rw [scan_gap p hmeasure, take_runLength, drop_runLength, List.takeWhile_cons_of_pos hc,
        List.dropWhile_cons_of_pos hc]

/-- So is one blank, whatever stands behind it. -/
theorem scan_blank (hc : Text.isBlank c = true) (fresh : Bool) (cs : List Char) :
    scan p fresh (c :: cs) = scan (p.next c) (fresh || c == '\n') cs := by
  rw [scan_blanks p fresh (c :: cs), scan_blanks (p.next c) _ cs, List.takeWhile_cons_of_pos hc,
    List.dropWhile_cons_of_pos hc, Position.advance_cons, List.contains_cons, Bool.or_assoc,
    Bool.beq_comm]

theorem scan_append_blanks {u : List Char} (hu : ∀ c ∈ u, Text.isBlank c = true) (fresh : Bool)
    (cs : List Char) :
    scan p fresh (u ++ cs) = scan (p.advance u) (fresh || u.contains '\n') cs := by
  induction u generalizing p fresh with
  | nil => rw [List.contains_nil, Bool.or_false]; rfl
  | cons c u ih =>
    obtain ⟨hc, hu⟩ := List.forall_mem_cons.mp hu
    rw [List.cons_append, scan_blank p hc, ih (p.next c) hu, Position.advance_cons,
      List.contains_cons, Bool.or_assoc, Bool.beq_comm]

end

end Lexeme

end StackEscape
