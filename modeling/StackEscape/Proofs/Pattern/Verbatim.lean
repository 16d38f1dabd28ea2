import StackEscape.Proofs.Listing.LineEnds
import StackEscape.Proofs.Listing.Reprint
import StackEscape.Proofs.Pattern.Derivation

/-!
# Listings as patterns

The texts of a listing's tokens, with single blanks between them, make a pattern whose words are
those texts. A name, a number and an operator stand, as a word, for the token that they are, so that
the pattern matches the listing from end to end; only `|=` is taken apart at its `|`.
-/

namespace StackEscape

/-! ## The words of a text -/

namespace Text

theorem words_blank {c : Char} (h : isBlank c = true) (cs : List Char) :
    words (c :: cs) = words cs := if_pos h

theorem words_single {c : Char} (h : isBlank c = false) {rest : List Char} (hrest : EndsWord rest) :
    words (c :: rest) = [c] :: words rest := by
  refine (if_neg (Bool.eq_false_iff.mp h)).trans ?_
  split
  · next d _ w ws hwords =>
    rw [if_pos (hrest d rfl), hwords]
  · rfl

theorem words_visible {c d : Char} (hc : isBlank c = false) (hd : isBlank d = false)
    {cs w : List Char} {ws : List (List Char)} (h : words (d :: cs) = w :: ws) :
    words (c :: d :: cs) = (c :: w) :: ws := by
  refine (if_neg (Bool.eq_false_iff.mp hc)).trans ?_
  rw [h]
  exact if_neg (Bool.eq_false_iff.mp hd)

/-- A word ends where a blank or the end of the text follows. -/
theorem words_append {w rest : List Char} (hne : w ≠ []) (hw : ∀ c ∈ w, isBlank c = false)
    (hrest : EndsWord rest) : words (w ++ rest) = w :: words rest := by
  induction w with
  | nil => exact absurd rfl hne
  | cons c w ih =>
    obtain ⟨hc, hw⟩ := List.forall_mem_cons.mp hw
    cases w with
    | nil => exact words_single hc hrest
    | cons d w => exact words_visible hc (hw d List.mem_cons_self) (ih nofun hw)

end Text

namespace Lexeme

/-- The words of what is printed are the texts of the tokens. -/
theorem words_printed {ts : List Token} (h : ∀ t ∈ ts, t.text.toList ≠ [] ∧
    ∀ c ∈ t.text.toList, Text.isBlank c = false) :
    Text.words (printed ts) = ts.map (·.text.toList) := by
  induction ts with
  | nil => rfl
  | cons t ts ih =>
    obtain ⟨⟨hne, hvisible⟩, hts⟩ := List.forall_mem_cons.mp h
    have hbehind : Text.words (printedBehind ts) = ts.map (·.text.toList) := by
      cases ts with
      | nil => rfl
      | cons u us => rw [printedBehind, Text.words_blank (by decide), ih hts]
    rw [printed_cons, Text.words_append hne hvisible (endsWord_printedBehind ts), hbehind]
    rfl

end Lexeme

/-! ## Tokens as words -/

namespace Element

open Lexeme (isPlain longOperators)

/-- What begins with none of the marks of a pattern, or is only that, and has no `|` in it, or is an
operator of them, is taken literally. -/
theorem ofWord_of_unmarked {w : List Char}
    (hmarks : 1 < w.length → ∀ c ∈ ['!', '%', '['], w.head? ≠ some c)
    (hchoice : '|' ∉ w ∨ w = ['|'] ∨ w = ['|', '|']) : ofWord w = word (String.ofList w) := by
  have hatom : Atom.ofWord w = .text (String.ofList w) := by
    have hne : ∀ {v : List Char}, 1 < v.length ∧ v.head? = some '%' → w ≠ v := by
      rintro v ⟨hlength, hhead⟩ rfl
      exact hmarks hlength '%' (by decide) hhead
    unfold Atom.ofWord
    rw [if_neg (hne (by decide)), if_neg (hne (by decide)), if_neg (hne (by decide)),
      if_neg (hne (by decide)), if_neg (hne (by decide)), if_neg]
    rintro ⟨hlong, hopen, _⟩
    exact hmarks (Nat.lt_of_succ_lt hlong) '[' (by decide) hopen
  unfold ofWord
  split
  · next v => exact absurd rfl (hmarks (by simp) '!' (by decide))
  · rw [if_pos, hatom, word]
    rcases hchoice with hno | rfl | rfl
    · exact .inr (.inr hno)
    · exact .inl rfl
    · exact .inr (.inl rfl)

/-- Characters of names and numbers have no meaning of their own in a word. -/
theorem ofWord_of_isPlain {w : List Char} (h : ∀ c ∈ w, isPlain c = true) :
    ofWord w = word (String.ofList w) := by
  have hno : ∀ {c : Char}, isPlain c = false → c ∉ w := by
    intro c hc hmem
    rw [h c hmem] at hc
    cases hc
  have hmark := List.all_eq_true.mp (show ['!', '%', '['].all (!isPlain ·) = true by decide)
  refine ofWord_of_unmarked (fun _ c hc hhead => ?_) (.inl (hno (by decide)))
  exact hno ((Bool.not_eq_true' _).mp (hmark c hc)) (List.mem_of_head? hhead)

theorem ofWord_single (c : Char) : ofWord [c] = word (String.ofList [c]) := by
  refine ofWord_of_unmarked (fun hlength => absurd hlength (by simp)) ?_
  by_cases hc : c = '|'
  · exact .inr (.inl (by rw [hc]))
  · exact .inl (by simp [Ne.symm hc])

theorem ofWord_of_mem_longOperators : ∀ w ∈ longOperators, w ≠ "|=".toList →
    ofWord w = word (String.ofList w) := by
  decide

/-- An operator that only its `|` makes a choice. -/
theorem ofWord_orAssign : ofWord "|=".toList = .choice [.text "="] true := by decide

end Element

namespace Token

variable {t : Token} {fresh : Bool}

/-- The text of a token that is no literal. -/
theorem ReadsAlone.cases_text (h : t.ReadsAlone fresh)
    (hliteral : t.kind ≠ .string ∧ t.kind ≠ .character) :
    (∀ c ∈ t.text.toList, Lexeme.isPlain c = true) ∨ t.text.toList ∈ Lexeme.longOperators ∨
      ∃ c, t.text.toList = [c] ∧ Text.isBlank c = false := by
  obtain ⟨c, w, htext, _, hreads⟩ := h
  have hmeasure := hreads [] .nil
  rw [List.append_nil] at hmeasure
  have hbegins := Lexeme.beginsToken_of_measure hmeasure rfl
  rw [Lexeme.measure_eq_token hbegins] at hmeasure
  have hcases := Lexeme.cases_token hmeasure
    ⟨fun hk => hliteral.1 (Option.some.inj hk), fun hk => hliteral.2 (Option.some.inj hk)⟩
  rw [List.take_length] at hcases
  rw [htext]
  refine hcases.imp_right (Or.imp_right fun hlength => ⟨c, ?_, hbegins.visible⟩)
  rw [List.length_eq_zero_iff.mp hlength]

/-- The text of a token is one word. -/
theorem ReadsAlone.visible (h : t.ReadsAlone fresh)
    (hliteral : t.kind ≠ .string ∧ t.kind ≠ .character) :
    t.text.toList ≠ [] ∧ ∀ c ∈ t.text.toList, Text.isBlank c = false := by
  constructor
  · obtain ⟨c, w, htext, _⟩ := h
    rw [htext]
    nofun
  · intro d hd
    rcases h.cases_text hliteral with hplain | hlong | ⟨c, hc, hvisible⟩
    · exact Lexeme.isBlank_eq_false_of_isPlain (hplain d hd)
    · exact Lexeme.isBlank_eq_false_of_mem_longOperators _ hlong d hd
    · rw [hc] at hd
      rwa [List.mem_singleton.mp hd]

/-- As a word of a pattern, the text of a token stands for the token. -/
theorem ReadsAlone.ofWord_text (h : t.ReadsAlone fresh)
    (hliteral : t.kind ≠ .string ∧ t.kind ≠ .character) (hne : t.text ≠ "|=") :
    Element.ofWord t.text.toList = .word t.text := by
  have hword : Element.ofWord t.text.toList = .word (String.ofList t.text.toList) := by
    rcases h.cases_text hliteral with hplain | hlong | ⟨c, hc, _⟩
    · exact Element.ofWord_of_isPlain hplain
    · exact Element.ofWord_of_mem_longOperators _ hlong fun heq => hne (String.toList_inj.mp heq)
    · rw [hc, Element.ofWord_single]
  rw [hword, String.ofList_toList]

end Token

namespace Lexeme

/-- Every token of a source is read alone. -/
theorem AllReadAlone.readsAlone {fresh : Bool} {ts : List Token} (h : AllReadAlone fresh ts) :
    ∀ t ∈ ts, t.ReadsAlone false := by
  induction ts generalizing fresh with
  | nil => exact List.forall_mem_nil _
  | cons t ts ih => exact List.forall_mem_cons.mpr ⟨h.1.mono nofun, ih h.2⟩

end Lexeme

namespace Pattern

variable {p : Program}

/-- Words that stand for the tokens from `i` on take them all. -/
theorem place?_words {i : Nat} {ts : List Token} (h : p.listing.tokens.toList.drop i = ts) :
    place? p i (ts.map fun t => .word t.text) =
      some ((List.range' i ts.length).map some, i + ts.length) := by
  induction ts generalizing i with
  | nil => rfl
  | cons t ts ih =>
    obtain ⟨ht, hts⟩ := Bracket.get?_of_drop h
    have hplace : (Element.word t.text).place? p i = some (some i) :=
      Element.place?_of_standsAt ⟨_, List.mem_singleton_self _, t, ht, by simp [Atom.accepts]⟩
    rw [List.map_cons, place?, hplace]
    dsimp only [Option.isSome_some, if_true]
    rw [if_pos rfl, ih hts, List.length_cons, List.range'_succ, Nat.add_right_comm]
    rfl

/-- A pattern that takes as many tokens as it has words takes one with each of them. -/
theorem positions_of_taken {positions : List (Option Nat)}
    (h : (positions.filterMap id).length = positions.length) :
    positions = (positions.filterMap id).map some := by
  induction positions with
  | nil => rfl
  | cons position positions ih =>
    cases position with
    | none =>
      rw [List.filterMap_cons_none rfl, List.length_cons] at h
      have := List.length_filterMap_le id positions
      omega
    | some i =>
      have htaken : (some i :: positions).filterMap id = i :: positions.filterMap id := rfl
      rw [htaken, List.length_cons, List.length_cons] at h
      rw [htaken, List.map_cons, ← ih (Nat.succ.inj h)]

/-- A match that takes every token of a listing with as many words takes each with its own. -/
theorem positions_of_matchAt? {pattern : Pattern} {c : Captures}
    (h : pattern.matchAt? p 0 = some c) (hlength : pattern.elements.length = c.stop) :
    c.positions = (List.range c.stop).map some := by
  obtain ⟨_, hderives⟩ := derives_of_matchAt? h
  obtain ⟨_, htaken⟩ := hderives.taken_eq
  rw [Nat.sub_zero, ← List.range_eq_range'] at htaken
  rw [← htaken]
  refine positions_of_taken ?_
  rw [htaken, List.length_range, hderives.length_eq, hlength]

/-- The words of a printed listing are the texts of its tokens. -/
theorem elements_stringify {l : Listing} (h : ∀ t ∈ l.tokens.toList, t.text.toList ≠ [] ∧
    ∀ c ∈ t.text.toList, Text.isBlank c = false) :
    (ofString l.stringify).elements =
      l.tokens.toList.map fun t => Element.ofWord t.text.toList := by
  rw [ofString, Listing.toList_stringify, Lexeme.words_printed h, List.map_map]
  rfl

/-- **Listings match themselves.** Laid along a listing without literals, the texts of its tokens
take all of them, each its own, exactly if none of the tokens is `|=`. -/
theorem matchAt?_stringify_iff {file source : String} {l : Listing}
    (h : Listing.ofSource file source = .ok l)
    (hliteral : ∀ t ∈ l.tokens.toList, t.kind ≠ .string ∧ t.kind ≠ .character)
    (symbols : SymbolTable) :
    ((∃ c, (ofString l.stringify).matchAt? ⟨l, symbols⟩ 0 = some c ∧ c.stop = l.size) ↔
        ∀ t ∈ l.tokens.toList, t.text ≠ "|=") ∧
      ∀ c, (ofString l.stringify).matchAt? ⟨l, symbols⟩ 0 = some c → c.stop = l.size →
        c.positions = (List.range l.size).map some := by
  have halone := (Lexeme.allReadAlone_scan (Listing.scan_of_ofSource h).1).readsAlone
  have helements := elements_stringify fun t ht => (halone t ht).visible (hliteral t ht)
  have hpositions : ∀ c, (ofString l.stringify).matchAt? ⟨l, symbols⟩ 0 = some c →
      c.stop = l.size → c.positions = (List.range l.size).map some := by
    intro c hc hstop
    rw [← hstop]
    refine positions_of_matchAt? hc ?_
    rw [helements, List.length_map, hstop]
    rfl
  refine ⟨⟨?_, fun hno => ?_⟩, hpositions⟩
  · -- the word `|=` would have to take that token, but it stands for `=` only
    rintro ⟨c, hc, hstop⟩ t ht htext
    obtain ⟨n, hn, rfl⟩ := List.mem_iff_getElem.mp ht
    have hget : l.tokens.toList[n]? = some l.tokens.toList[n] := List.getElem?_eq_getElem hn
    have htaken : c.get? n = some n := by
      rw [Captures.get?, hpositions c hc hstop, List.getElem?_map,
        List.getElem?_range (show n < l.size from hn)]
      rfl
    obtain ⟨e, he, hplace⟩ := exists_of_get? hc htaken
    rw [helements, List.getElem?_map, hget, Option.map_some, htext, Element.ofWord_orAssign] at he
    obtain rfl := Option.some.inj he
    have hassign := (Element.standsAt_word (by decide)).mp (Element.standsAt_of_place? hplace)
    rw [Listing.text_of_get? (Array.getElem?_toList.symm.trans hget), htext] at hassign
    exact absurd hassign (by decide)
  · have hwords : (ofString l.stringify).elements =
        l.tokens.toList.map fun t => .word t.text := by
      rw [helements]
      exact List.map_congr_left fun t ht => (halone t ht).ofWord_text (hliteral t ht) (hno t ht)
    have hplace := place?_words (p := ⟨l, symbols⟩) (i := 0) List.drop_zero
    rw [← hwords, Nat.zero_add] at hplace
    exact ⟨_, congrArg (Option.map _) hplace, rfl⟩

/-- The case of names, numbers and operators of every length, `|` and `%` among them. -/
theorem matchAt?_stringify_operators : ∃ l c,
    Listing.ofSource "a.cpp" "a %= b | c || !!d[1e-3]; p->*q <<= x->y % 0x1F;" = .ok l ∧
      (∀ t ∈ l.tokens.toList, t.kind ≠ .string ∧ t.kind ≠ .character) ∧
      (ofString l.stringify).matchAt? ⟨l, .ofListing l⟩ 0 = some c ∧ c.stop = l.size ∧
      c.positions = (List.range l.size).map some := by
  obtain ⟨l, hl, hliteral, hno⟩ :
      ∃ l, Listing.ofSource "a.cpp" "a %= b | c || !!d[1e-3]; p->*q <<= x->y % 0x1F;" = .ok l ∧
        (∀ t ∈ l.tokens.toList, t.kind ≠ .string ∧ t.kind ≠ .character) ∧
        ∀ t ∈ l.tokens.toList, t.text ≠ "|=" :=
    Listing.exists_ok_of_any (by decide +kernel)
  obtain ⟨hmatches, hpositions⟩ := matchAt?_stringify_iff hl hliteral (.ofListing l)
  obtain ⟨c, hc, hstop⟩ := hmatches.mpr hno
  exact ⟨l, c, hl, hliteral, hc, hstop, hpositions c hc hstop⟩

/-- As a word, `|=` stands for `=` or nothing. -/
theorem stringify_orAssign_unmatched : ∃ l,
    Listing.ofSource "a.cpp" "a|=b;" = .ok l ∧
      (∀ t ∈ l.tokens.toList, t.kind ≠ .string ∧ t.kind ≠ .character) ∧
      (ofString l.stringify).matchAt? ⟨l, .ofListing l⟩ 0 = none :=
  Listing.exists_ok_of_any (by decide +kernel)

end Pattern

end StackEscape
