import StackEscape.Proofs.Listing.Separation
import StackEscape.Proofs.Renaming.Listing

/-!
# Listings read back

The texts of a listing's tokens, with single blanks between them, are cut into the same tokens
again. Each token is read as before in front of a blank; and the printed text begins a line where
the source began one, or later, so that no `#` in it begins a directive.
-/

namespace StackEscape

namespace Token

/-- The same text of the same sort, wherever it stands. -/
structure Alike (t u : Token) : Prop where
  text : u.text = t.text
  kind : u.kind = t.kind

/-- Alike tokens are renamed to themselves. -/
theorem Alike.renamed {t u : Token} (h : t.Alike u) (ht : t.Spelled) : t.Renamed id u where
  kind := h.kind
  name _ := h.text
  fixed w _ := by rw [h.text]
  spelled := ht.name_iff
  spelled' := h.text ▸ ht.name_iff

/-- The text of a token is read as that token where a blank or the end of the text follows. `fresh`
says that a line begins in front of it. -/
def ReadsAlone (fresh : Bool) (t : Token) : Prop :=
  ∃ c w, t.text.toList = c :: w ∧ Lexeme.spelling (c :: w) = t.text ∧
    ∀ rest, EndsWord rest → Lexeme.measure fresh c (w ++ rest) = .ok ⟨some t.kind, w.length⟩

variable {t : Token} {fresh : Bool}

theorem ReadsAlone.mono (h : t.ReadsAlone fresh) {fresh' : Bool}
    (hfresh : fresh' = true → fresh = true) : t.ReadsAlone fresh' := by
  obtain ⟨c, w, htext, hspelling, hreads⟩ := h
  refine ⟨c, w, htext, hspelling, fun rest hrest => ?_⟩
  have hmeasure := hreads rest hrest
  have hbegins := Lexeme.beginsToken_of_measure hmeasure rfl
  have hbegins' : Lexeme.BeginsToken fresh' c (w ++ rest) := by
    refine { hbegins with directive := fun hc => Bool.eq_false_iff.mpr fun hf => ?_ }
    have hno := hbegins.directive hc
    rw [hfresh hf] at hno
    cases hno
  rw [Lexeme.measure_eq_token hbegins', ← Lexeme.measure_eq_token hbegins, hmeasure]

/-- A member access is read alone, however it was written. -/
theorem readsAlone_dot (fresh : Bool) (p : Position) :
    (⟨".", .operator, p⟩ : Token).ReadsAlone fresh := by
  have htext : ".".toList = ['.'] := by decide
  refine ⟨'.', [], htext, rfl, fun rest hrest => ?_⟩
  have hend : Lexeme.measure fresh '.' ([] ++ []) = .ok ⟨some .operator, 0⟩ := by
    cases fresh <;> decide
  exact Lexeme.measure_cut hend rfl (Nat.le_refl 0) hrest

end Token

namespace Lexeme

/-- An arrow is an operator. -/
theorem kind_of_arrow {fresh : Bool} {cs : List Char} {x : Lexeme}
    (h : measure fresh '-' cs = .ok x) (hkind : x.kind.isSome = true) :
    x.kind = some .operator := by
  rw [measure_eq_token (beginsToken_of_measure h hkind)] at h
  obtain rfl := Except.ok.inj h
  rfl

/-- What is cut off as a token is read alone. -/
theorem readsAlone_of_measure {fresh : Bool} {c : Char} {cs : List Char} {x : Lexeme} {kind : Kind}
    (h : measure fresh c cs = .ok x) (hkind : x.kind = some kind) (p : Position) :
    (⟨spelling (c :: cs.take x.extra), kind, p⟩ : Token).ReadsAlone fresh := by
  have hsome : x.kind.isSome = true := by rw [hkind]; rfl
  by_cases harrow : c :: cs.take x.extra = ['-', '>']
  · obtain ⟨rfl, _⟩ := List.cons.inj harrow
    obtain rfl := Option.some.inj (hkind.symm.trans (kind_of_arrow h hsome))
    rw [spelling, if_pos harrow]
    exact Token.readsAlone_dot fresh p
  · have hlength : (cs.take x.extra).length = x.extra := by
      rw [measure_eq_token (beginsToken_of_measure h hsome)] at h
      exact List.length_take_of_le (extra_le_of_token h)
    refine ⟨c, cs.take x.extra, toList_spelling harrow, rfl, fun rest hrest => ?_⟩
    rw [← List.take_append_drop x.extra cs] at h
    rw [measure_cut h hsome (Nat.le_of_eq hlength.symm) hrest, hlength, ← hkind]

/-- All tokens are read alone where the ones before them end. -/
def AllReadAlone : Bool → List Token → Prop
  | _, [] => True
  | fresh, t :: ts => t.ReadsAlone fresh ∧ AllReadAlone (t.text.toList.contains '\n') ts

theorem AllReadAlone.mono {fresh fresh' : Bool} {ts : List Token} (h : AllReadAlone fresh ts)
    (hfresh : fresh' = true → fresh = true) : AllReadAlone fresh' ts := by
  cases ts with
  | nil => trivial
  | cons t ts => exact ⟨h.1.mono hfresh, h.2⟩

theorem allReadAlone_scan {p : Position} {fresh : Bool} {cs : List Char} {ts : List Token}
    (h : scan p fresh cs = .ok ts) : AllReadAlone fresh ts := by
  fun_induction scan p fresh cs generalizing ts with
  | case1 =>
    obtain rfl := Except.ok.inj h
    trivial
  | case2 => cases h
  | case3 p fresh c cs x _ taken after =>
    rename_i ih
    exact (ih h).mono fun hfresh => by rw [hfresh, Bool.true_or]
  | case4 p fresh c cs x hm taken after brokeLine kind hk =>
    rename_i ih
    cases hs : scan after _ (cs.drop x.extra) with
    | error fault => rw [hs] at h; cases h
    | ok rest =>
      rw [hs] at h
      obtain rfl := Except.ok.inj h
      refine ⟨readsAlone_of_measure hm hk p, ?_⟩
      rw [contains_spelling]
      exact ih hs

/-! ## Printing and reading -/

def printed (ts : List Token) : List Char := [' '].intercalate (ts.map (·.text.toList))

def printedBehind : List Token → List Char
  | [] => []
  | t :: ts => ' ' :: printed (t :: ts)

theorem printed_cons (t : Token) (ts : List Token) :
    printed (t :: ts) = t.text.toList ++ printedBehind ts := by
  cases ts with
  | nil => simp [printed, printedBehind]
  | cons u us => simp [printed, printedBehind]

theorem endsWord_printedBehind (ts : List Token) : EndsWord (printedBehind ts) := by
  cases ts with
  | nil => exact .nil
  | cons t ts => exact .blank (by decide) _

/-- **What is printed is read back**: the same texts and sorts. -/
theorem scan_printed {fresh : Bool} {ts : List Token} (h : AllReadAlone fresh ts) (p : Position) :
    ∃ us, scan p fresh (printed ts) = .ok us ∧ List.Forall₂ Token.Alike ts us := by
  induction ts generalizing fresh p with
  | nil => exact ⟨[], scan_nil p fresh, .nil⟩
  | cons t ts ih =>
    obtain ⟨⟨c, w, htext, hspelling, hreads⟩, hrest⟩ := h
    obtain ⟨us, hus, hsame⟩ : ∃ us,
        scan (p.advance (c :: w)) ((c :: w).contains '\n') (printedBehind ts) = .ok us ∧
          List.Forall₂ Token.Alike ts us := by
      rw [htext] at hrest
      cases ts with
      | nil => exact ⟨[], scan_nil _ _, .nil⟩
      | cons u us =>
        rw [printedBehind, scan_blank _ (by decide), show (' ' == '\n') = false from rfl,
          Bool.or_false]
        exact ih hrest _
    have hscan := scan_token p (hreads (printedBehind ts) (endsWord_printedBehind ts))
    rw [List.take_left, List.drop_left, hus, ← List.cons_append, ← htext, ← printed_cons, htext,
      hspelling] at hscan
    exact ⟨_, hscan, .cons ⟨rfl, rfl⟩ hsame⟩

end Lexeme

namespace Listing

theorem toList_stringify (l : Listing) : l.stringify.toList = Lexeme.printed l.tokens.toList := by
  rw [stringify, String.toList_intercalate, List.map_map]
  rfl

/-- What depends on texts and sorts only is the same for tokens that are alike. -/
theorem map_alike {α : Type} {f : Token → α} (hf : ∀ t u, t.Alike u → f u = f t)
    {ts us : List Token} (h : List.Forall₂ Token.Alike ts us) : us.map f = ts.map f := by
  induction h with
  | nil => rfl
  | cons ht _ ih => rw [List.map_cons, List.map_cons, hf _ _ ht, ih]

/-- Tokens that are alike are linked in the same way. -/
theorem link_alike {ts : Array Token} {us : List Token} {links : Array (Option Nat)}
    (hlink : Bracket.link ts = .ok links) (hsame : List.Forall₂ Token.Alike ts.toList us)
    (hspelled : ∀ t ∈ ts.toList, t.Spelled) : Bracket.link us.toArray = .ok links := by
  have hrenamed : List.Forall₂ (Token.Renamed id) ts.toList us := by
    rw [List.forall₂_iff_get] at hsame ⊢
    exact ⟨hsame.1, fun i ht hu => (hsame.2 i ht hu).renamed (hspelled _ (List.get_mem _ _))⟩
  have hsize : us.toArray.size = ts.size := hsame.length_eq.symm
  rw [Bracket.link, hsize]
  exact (Bracket.linkFrom_renamed hrenamed .nil).mpr hlink

/-- **Printed tokens are read back**: the texts of a listing, joined by single blanks, are cut into
tokens with the same texts and sorts, which are linked in the same way and print the same. -/
theorem ofSource_stringify {file source : String} {l : Listing} (h : ofSource file source = .ok l)
    (file' : String) :
    ∃ l', ofSource file' l.stringify = .ok l' ∧
      l'.tokens.map Token.text = l.tokens.map Token.text ∧
      l'.tokens.map Token.kind = l.tokens.map Token.kind ∧ l'.links = l.links ∧
      l'.stringify = l.stringify := by
  obtain ⟨hscan, hlink⟩ := scan_of_ofSource h
  obtain ⟨us, hus, hsame⟩ := Lexeme.scan_printed (Lexeme.allReadAlone_scan hscan) .start
  rw [← toList_stringify] at hus
  have htexts : us.map Token.text = l.tokens.toList.map Token.text :=
    map_alike (fun _ _ ht => ht.text) hsame
  have hkinds : us.map Token.kind = l.tokens.toList.map Token.kind :=
    map_alike (fun _ _ ht => ht.kind) hsame
  refine ⟨⟨file', us.toArray, l.links⟩, ?_, ?_, ?_, rfl, ?_⟩
  · unfold ofSource
    rw [hus]
    dsimp only
    rw [ofTokens, link_alike hlink hsame (Lexeme.spelled_scan hscan)]
  · apply Array.toList_inj.mp
    rw [Array.toList_map, Array.toList_map, ← htexts]
  · apply Array.toList_inj.mp
    rw [Array.toList_map, Array.toList_map, ← hkinds]
  · rw [stringify, stringify, ← htexts]

/-- The case of an arrow, `#` away from the front of a line, a literal with an escaped line end, a
comment and a directive. -/
theorem ofSource_stringify_arrow : ∃ l l',
    ofSource "a.cpp" "#if A\n x # y ## p->q = \"a\\\nb\" + 1e-3; /* c */ L'd' (\\)" = .ok l ∧
      ofSource "b.cpp" l.stringify = .ok l' ∧
      l'.tokens.map Token.text = l.tokens.map Token.text ∧
      l'.tokens.map Token.kind = l.tokens.map Token.kind ∧ l'.links = l.links ∧
      l'.stringify = l.stringify := by
  obtain ⟨l, hl⟩ := exists_ok
    (e := ofSource "a.cpp" "#if A\n x # y ## p->q = \"a\\\nb\" + 1e-3; /* c */ L'd' (\\)")
    (by decide +kernel)
  obtain ⟨l', hl'⟩ := ofSource_stringify hl "b.cpp"
  exact ⟨l, l', hl, hl'⟩

end Listing

end StackEscape
