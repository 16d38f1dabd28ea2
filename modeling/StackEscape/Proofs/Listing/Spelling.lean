import StackEscape.Listing.Scan

/-!
# How tokens are spelled

The sort of a token shows in its text: names are the tokens that are spelled like identifiers, and
literals and numbers show by a quote or a digit.
-/

namespace StackEscape

namespace Lexeme

def isWord (w : String) : Bool := w.toList.head?.any startsName

def isIdentifier (w : String) : Bool := isWord w && w.toList.all continuesName

def isQuote (c : Char) : Bool := c == '"' || c == '\''

def beginsNumber : List Char → Bool
  | [] => false
  | c :: cs => isDigit c || (c == '.' && cs.head?.any isDigit)

/-- Whether a text has a quote in it or begins like a number. -/
def isValue (w : String) : Bool := w.toList.any isQuote || beginsNumber w.toList

/-! ## Characters -/

section
variable {c : Char}

theorem isDigit_eq_false_of_startsName (h : startsName c = true) : isDigit c = false := by
  simp only [startsName, isLetter, Bool.or_eq_true, Bool.and_eq_true, decide_eq_true_eq,
    beq_iff_eq] at h
  rw [Bool.eq_false_iff]
  simp only [isDigit, Bool.and_eq_true, decide_eq_true_eq, ne_eq, not_and]
  intro h0 h9
  rcases h with (⟨ha, _⟩ | ⟨ha, _⟩) | rfl
  · exact absurd (Char.le_trans ha h9) (by decide)
  · exact absurd (Char.le_trans ha h9) (by decide)
  · exact absurd h9 (by decide)

theorem isQuote_eq_false_of_continuesName (h : continuesName c = true) : isQuote c = false := by
  rw [Bool.eq_false_iff]
  simp only [isQuote, ne_eq, Bool.or_eq_true, beq_iff_eq]
  rintro (rfl | rfl) <;> exact absurd h (by decide)

theorem continuesName_of_startsName (h : startsName c = true) : continuesName c = true := by
  simp only [startsName, continuesName, Bool.or_eq_true] at h ⊢
  rcases h with h | h
  · exact .inl (.inl h)
  · exact .inr h

theorem isQuote_of_ofChar? {q : Quote} (h : Quote.ofChar? c = some q) : isQuote c = true := by
  unfold Quote.ofChar? at h
  repeat' split at h
  · next hc => simp [isQuote, hc]
  · next hc => simp [isQuote, hc]
  · cases h

end

/-- No identifier is spelled like a literal or a number. -/
theorem isValue_eq_false_of_isIdentifier {w : String} (h : isIdentifier w = true) :
    isValue w = false := by
  obtain ⟨hword, hall⟩ := Bool.and_eq_true_iff.mp h
  unfold isWord at hword
  unfold isValue
  cases hw : w.toList with
  | nil => rfl
  | cons c cs =>
    rw [hw] at hword hall
    simp only [List.head?_cons, Option.any_some] at hword
    have hnodot : c ≠ '.' := by
      rintro rfl
      exact absurd hword (by decide)
    have hnoquote : (c :: cs).any isQuote = false := by
      refine List.any_eq_false.mpr fun d hd => ?_
      rw [isQuote_eq_false_of_continuesName (List.all_eq_true.mp hall d hd)]
      exact Bool.false_ne_true
    rw [hnoquote, beginsNumber, isDigit_eq_false_of_startsName hword]
    simp [hnodot]

end Lexeme

structure Token.Spelled (t : Token) : Prop where
  name_iff : t.kind = .name ↔ Lexeme.isIdentifier t.text = true
  value : t.kind ≠ .name → t.kind ≠ .operator → Lexeme.isValue t.text = true

theorem Token.Spelled.isWord {t : Token} (h : t.Spelled) (hk : t.kind = .name) :
    Lexeme.isWord t.text = true := (Bool.and_eq_true_iff.mp (h.name_iff.mp hk)).1

theorem Token.spelled_of_value {t : Token} (hk : t.kind ≠ .name)
    (ht : Lexeme.isValue t.text = true) : t.Spelled := by
  refine ⟨⟨fun h => absurd h hk, fun h => ?_⟩, fun _ _ => ht⟩
  rw [Lexeme.isValue_eq_false_of_isIdentifier h] at ht
  cases ht

namespace Lexeme

theorem kind_quoted {q : Quote} {mark : Nat} {body : List Char} {x : Lexeme}
    (h : quoted q mark body = .ok x) : x.kind = some q.kind := by
  unfold quoted at h
  split at h
  · obtain rfl := Except.ok.inj h
    rfl
  · cases h

theorem kind_quoted_ne_name {q : Quote} {mark : Nat} {body : List Char} {x : Lexeme}
    (h : quoted q mark body = .ok x) : x.kind ≠ some .name := by
  rw [kind_quoted h]
  cases q <;> decide

theorem isWord_spelling {c : Char} {cs : List Char} (h : startsName c = true) :
    isWord (spelling (c :: cs)) = true := by
  have hc : c :: cs ≠ ['-', '>'] := by
    rintro ⟨⟩
    revert h
    decide
  simp [spelling, hc, isWord, h]

theorem toList_spelling {cs : List Char} (h : cs ≠ ['-', '>']) : (spelling cs).toList = cs := by
  rw [spelling, if_neg h, String.toList_ofList]

/-- Line feeds are not what spelling changes. -/
theorem contains_spelling (cs : List Char) :
    (spelling cs).toList.contains '\n' = cs.contains '\n' := by
  by_cases harrow : cs = ['-', '>']
  · rw [harrow]
    rfl
  · rw [toList_spelling harrow]

/-- A text with a quote in it, or one that begins like a number, is no arrow. -/
theorem isValue_spelling {cs : List Char} (h : (cs.any isQuote || beginsNumber cs) = true) :
    isValue (spelling cs) = true := by
  have hne : cs ≠ ['-', '>'] := by
    rintro rfl
    exact absurd h (by decide)
  rw [isValue, toList_spelling hne]
  exact h

section
variable {c : Char} {cs : List Char} {p : Position} {x : Lexeme} {kind : Kind}

theorem spelled_quoted {q : Quote} {mark : Nat} {body : List Char}
    (h : quoted q mark body = .ok x) (hquote : (c :: cs.take mark).any isQuote = true)
    (hk : x.kind = some kind) : (⟨spelling (c :: cs.take x.extra), kind, p⟩ : Token).Spelled := by
  refine Token.spelled_of_value ?_ (isValue_spelling ?_)
  · rintro rfl
    exact kind_quoted_ne_name h hk
  · unfold quoted at h
    split at h
    · next n _ =>
      obtain rfl := Except.ok.inj h
      obtain ⟨d, hd, hquote⟩ := List.any_eq_true.mp hquote
      refine Bool.or_eq_true_iff.mpr (.inl (List.any_eq_true.mpr ⟨d, ?_, hquote⟩))
      rcases List.mem_cons.mp hd with rfl | hd
      · exact List.mem_cons_self
      · exact List.mem_cons_of_mem _ (List.take_subset_take_left cs (Nat.le_add_right mark n) hd)
    · cases h

/-- The front of a text whose characters can stand in a name. -/
theorem all_take_runLength (q : Char → Bool) (cs : List Char) :
    (cs.take (runLength q cs)).all q = true := by
  have htake := List.prefix_iff_eq_take.mp (List.takeWhile_prefix q (l := cs))
  rw [runLength, ← htake]
  exact List.all_takeWhile

theorem spelled_name (hc : startsName c = true) :
    (⟨spelling (c :: cs.take (runLength continuesName cs)), .name, p⟩ : Token).Spelled := by
  have hne : c :: cs.take (runLength continuesName cs) ≠ ['-', '>'] := by
    intro h
    rw [(List.cons.inj h).1] at hc
    exact absurd hc (by decide)
  have hidentifier :
      isIdentifier (spelling (c :: cs.take (runLength continuesName cs))) = true := by
    rw [isIdentifier, isWord_spelling hc, toList_spelling hne, List.all_cons,
      continuesName_of_startsName hc, all_take_runLength]
    rfl
  exact ⟨⟨fun _ => hidentifier, fun _ => rfl⟩, fun h => absurd rfl h⟩

theorem spelled_named (hc : startsName c = true) (h : named c cs = .ok x)
    (hk : x.kind = some kind) : (⟨spelling (c :: cs.take x.extra), kind, p⟩ : Token).Spelled := by
  simp only [named] at h
  split at h
  · next q body hdrop =>
    split at h
    · next quote hquote =>
      refine spelled_quoted h ?_ hk
      have hq : isQuote q = true := by
        split at hquote
        · exact isQuote_of_ofChar? hquote
        · cases hquote
      rw [List.take_add, hdrop]
      simp [hq]
    · obtain rfl := Except.ok.inj h
      obtain rfl := Option.some.inj hk
      exact spelled_name hc
  · obtain rfl := Except.ok.inj h
    obtain rfl := Option.some.inj hk
    exact spelled_name hc

/-- A number that begins with a point has a digit behind it. -/
theorem beginsNumber_take (h : (isDigit c || (c == '.' && cs.head?.any isDigit)) = true)
    (b : Bool) :
    beginsNumber (c :: cs.take (numberLength b c cs)) = true := by
  rcases Bool.or_eq_true_iff.mp h with hdigit | hpoint
  · rw [beginsNumber, hdigit, Bool.true_or]
  · cases cs with
    | nil => exact h
    | cons d cs =>
      obtain ⟨hc, hd⟩ := Bool.and_eq_true_iff.mp hpoint
      have hcontinues : continuesNumber b c d = true := by
        rw [continuesNumber, show isDigit d = true from hd]
        simp
      rw [numberLength, if_pos hcontinues]
      exact h

theorem spelled_token (h : token c cs = .ok x) (hk : x.kind = some kind) :
    (⟨spelling (c :: cs.take x.extra), kind, p⟩ : Token).Spelled := by
  unfold token at h
  split at h
  · next hc => exact spelled_named hc h hk
  · next hc =>
    split at h
    · next hnumber =>
      obtain rfl := Except.ok.inj h
      obtain rfl := Option.some.inj hk
      refine Token.spelled_of_value nofun (isValue_spelling ?_)
      rw [beginsNumber_take hnumber, Bool.or_true]
    · split at h
      · next q hquote =>
        refine spelled_quoted h ?_ hk
        rw [List.any_cons, isQuote_of_ofChar? hquote, Bool.true_or]
      · obtain rfl := Except.ok.inj h
        obtain rfl := Option.some.inj hk
        refine ⟨⟨nofun, fun hidentifier => absurd ?_ hc⟩, fun _ h => absurd rfl h⟩
        have hword := (Bool.and_eq_true_iff.mp hidentifier).1
        unfold spelling isWord at hword
        split at hword
        · dsimp only at hword
          exact absurd hword (by decide)
        · simpa using hword

/-- Whatever is cut off as a token is spelled as its sort says. -/
theorem spelled_measure {lineStart : Bool} (h : measure lineStart c cs = .ok x)
    (hk : x.kind = some kind) : (⟨spelling (c :: cs.take x.extra), kind, p⟩ : Token).Spelled := by
  unfold measure at h
  repeat' split at h
  all_goals first
    | exact spelled_token h hk
    | (obtain rfl := Except.ok.inj h; cases hk)
    | cases h

end

/-- The tokens of a source are spelled as their sorts say. -/
theorem spelled_scan {p : Position} {lineStart : Bool} {cs : List Char} {ts : List Token}
    (h : scan p lineStart cs = .ok ts) : ∀ t ∈ ts, t.Spelled := by
  fun_induction scan p lineStart cs generalizing ts with
  | case1 =>
    obtain rfl := Except.ok.inj h
    simp
  | case2 => cases h
  | case3 =>
    rename_i ih
    exact ih h
  | case4 p lineStart c cs x hm taken after brokeLine kind hk =>
    rename_i ih
    cases hs : scan after _ (cs.drop x.extra) with
    | error fault => rw [hs] at h; cases h
    | ok rest =>
      rw [hs] at h
      obtain rfl := Except.ok.inj h
      intro t ht
      rcases List.mem_cons.mp ht with rfl | ht
      · exact spelled_measure hm hk
      · exact ih hs t ht

end Lexeme

end StackEscape
