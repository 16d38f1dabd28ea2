import StackEscape.Proofs.Listing.Separation
import StackEscape.Proofs.Listing.WellFormed

/-!
# The layout of a source

Cutting a source loses nothing: the source is the texts of its tokens in order, with gaps between
them, and every token stands where its line and column say. `Written` is the grammar of sources that
says so; it keeps the text that has been read, and counts positions in it.
-/

namespace StackEscape

/-! ## Positions -/

namespace Position

/-- The place behind a text: its line feeds, and the characters behind the last of them. -/
def behind (cs : List Char) : Position :=
  ⟨cs.count '\n' + 1, (cs.reverse.takeWhile (· != '\n')).length + 1⟩

theorem next_behind (cs : List Char) (c : Char) : (behind cs).next c = behind (cs ++ [c]) := by
  unfold next behind
  by_cases hc : c = '\n'
  · subst hc
    simp
  · simp [hc]

theorem advance_behind (cs ds : List Char) : (behind cs).advance ds = behind (cs ++ ds) := by
  induction ds generalizing cs with
  | nil => rw [advance_nil, List.append_nil]
  | cons d ds ih => rw [advance_cons, next_behind, ih, List.append_assoc, List.singleton_append]

/-- No text is shorter than its lines and columns. -/
theorem behind_le (cs : List Char) :
    (behind cs).line ≤ cs.length + 1 ∧ (behind cs).column ≤ cs.length + 1 := by
  refine ⟨Nat.succ_le_succ List.count_le_length, Nat.succ_le_succ ?_⟩
  exact Nat.le_trans (List.takeWhile_prefix _).length_le (Nat.le_of_eq List.length_reverse)

end Position

/-! ## Gaps -/

def EndsLine (rest : List Char) : Prop := ∀ c ∈ rest.head?, c = '\n'

/-- All line feeds of a text are continued: a backslash stands right before each. -/
inductive Continued : List Char → Prop
  | nil : Continued []
  | lineFeed {cs : List Char} : Continued cs → Continued ('\\' :: '\n' :: cs)
  | other {c : Char} {cs : List Char} : c ≠ '\n' → Continued cs → Continued (c :: cs)

/-- What may stand between tokens, in one piece, with `rest` behind it. `fresh` says that nothing
else stands before it on its line. -/
inductive Piece (fresh : Bool) : List Char → List Char → Prop
  | blank {c : Char} {rest : List Char} : Text.isBlank c = true → Piece fresh [c] rest
  | lineComment {body rest : List Char} : '\n' ∉ body → EndsLine rest →
      Piece fresh ('/' :: '/' :: body) rest
  | blockComment {body rest : List Char} : ¬ ['*', '/'] <:+: body →
      Piece fresh ('/' :: '*' :: (body ++ ['*', '/'])) rest
  | directive {body rest : List Char} : fresh = true → Continued body → EndsLine rest →
      (rest ≠ [] → body.getLast? ≠ some '\\') → Piece fresh ('#' :: body) rest

/-- A gap: any number of pieces, with `rest` behind the last one. -/
inductive Gap : Bool → List Char → List Char → Prop
  | nil {fresh : Bool} {rest : List Char} : Gap fresh [] rest
  | cons {fresh : Bool} {piece gap rest : List Char} : Piece fresh piece (gap ++ rest) →
      Gap (fresh || piece.contains '\n') gap rest → Gap fresh (piece ++ gap) rest

namespace Gap

variable {fresh : Bool} {u v rest : List Char}

theorem single (h : Piece fresh u rest) : Gap fresh u rest := by
  have hcons : Gap fresh (u ++ []) rest := .cons h .nil
  rwa [List.append_nil] at hcons

theorem append (hu : Gap fresh u (v ++ rest)) (hv : Gap (fresh || u.contains '\n') v rest) :
    Gap fresh (u ++ v) rest := by
  generalize hbehind : v ++ rest = behind at hu
  induction hu with
  | nil => simpa using hv
  | cons hpiece _ ih =>
    subst hbehind
    rw [List.append_assoc]
    refine .cons (by rwa [List.append_assoc]) (ih ?_ rfl)
    rwa [Bool.or_assoc, ← List.contains_append]

theorem blanks (h : ∀ c ∈ u, Text.isBlank c = true) : Gap fresh u rest := by
  induction u generalizing fresh with
  | nil => exact .nil
  | cons c u ih =>
    obtain ⟨hc, hu⟩ := List.forall_mem_cons.mp h
    have hcons : Gap fresh ([c] ++ u) rest := .cons (.blank hc) (ih hu)
    exact hcons

end Gap

namespace Lexeme

/-! ## What is measured as a gap -/

theorem piece_lineComment (fresh : Bool) (cs : List Char) :
    Piece fresh ('/' :: '/' :: cs.take (lineLength cs)) (cs.drop (lineLength cs)) := by
  refine .lineComment ?_ ?_
  · rw [lineLength, take_runLength]
    intro hmem
    exact absurd (List.all_eq_true.mp List.all_takeWhile '\n' hmem) (by decide)
  · rw [lineLength, drop_runLength]
    intro c hc
    have hstop := List.head?_dropWhile_not (· != '\n') cs
    rw [Option.mem_def.mp hc] at hstop
    simpa using hstop

/-- A block comment ends at the first mark of its end. -/
theorem exists_body_of_commentLength? {cs : List Char} {n : Nat} (h : commentLength? cs = some n) :
    ∃ body, cs.take n = body ++ ['*', '/'] ∧ ¬ ['*', '/'] <:+: body := by
  fun_induction commentLength? cs generalizing n with
  | case1 cs =>
    obtain rfl := Option.some.inj h
    exact ⟨[], rfl, by decide⟩
  | case2 c cs hno ih =>
    obtain ⟨m, hm, rfl⟩ := Option.map_eq_some_iff.mp h
    obtain ⟨body, hbody, hfree⟩ := ih hm
    refine ⟨c :: body, by rw [List.take_succ_cons, hbody, List.cons_append], fun hin => ?_⟩
    rcases List.infix_cons_iff.mp hin with hfront | hin
    · -- such an end would have been found in front
      obtain ⟨t, ht⟩ := hfront
      obtain ⟨hc, rfl⟩ := List.cons.inj ht
      have hcs := List.take_append_drop m cs
      rw [hbody] at hcs
      exact hno _ hc.symm hcs.symm
    · exact hfree hin
  | case3 => cases h

theorem piece_blockComment (fresh : Bool) {cs : List Char} {n : Nat}
    (h : commentLength? cs = some n) (rest : List Char) :
    Piece fresh ('/' :: '*' :: cs.take n) rest := by
  obtain ⟨body, hbody, hfree⟩ := exists_body_of_commentLength? h
  rw [hbody]
  exact .blockComment hfree

theorem continued_directive (cs : List Char) : Continued (cs.take (directiveLength cs)) := by
  fun_induction directiveLength cs with
  | case1 cs ih => exact .lineFeed ih
  | case2 cs => exact .nil
  | case3 c cs hcontinued hfeed ih =>
    rw [List.take_succ_cons]
    exact .other hfeed ih
  | case4 => exact .nil

theorem endsLine_directive (cs : List Char) : EndsLine (cs.drop (directiveLength cs)) := by
  fun_induction directiveLength cs with
  | case1 cs ih => exact ih
  | case2 cs =>
    intro c hc
    exact (Option.some.inj hc).symm
  | case3 c cs _ _ ih => exact ih
  | case4 => exact fun _ hc => nomatch hc

/-- The line feed that ends a directive is not continued. -/
theorem getLast?_directive (cs : List Char) (h : cs.drop (directiveLength cs) ≠ []) :
    (cs.take (directiveLength cs)).getLast? ≠ some '\\' := by
  have hends := endsLine_directive cs
  fun_induction directiveLength cs with
  | case1 cs ih =>
    have hlast := ih h hends
    change ('\\' :: '\n' :: cs.take (directiveLength cs)).getLast? ≠ _
    rw [List.getLast?_cons_cons]
    cases hbody : cs.take (directiveLength cs) with
    | nil => decide
    | cons d body =>
      rw [List.getLast?_cons_cons, ← hbody]
      exact hlast
  | case2 cs => simp
  | case3 c cs hcontinued _ ih =>
    have hlast := ih h hends
    rw [List.take_succ_cons]
    cases hbody : cs.take (directiveLength cs) with
    | nil =>
      -- nothing more belongs to the directive, so the line ends right behind `c`
      have hcs : cs.drop (directiveLength cs) = cs := by
        have hsplit := List.take_append_drop (directiveLength cs) cs
        rwa [hbody] at hsplit
      change cs.drop (directiveLength cs) ≠ [] at h
      change EndsLine (cs.drop (directiveLength cs)) at hends
      rw [hcs] at h hends
      obtain ⟨d, rest, rfl⟩ := List.exists_cons_of_ne_nil h
      obtain rfl := hends d rfl
      intro hlast
      exact hcontinued rest (Option.some.inj hlast) rfl
    | cons d body =>
      rw [List.getLast?_cons_cons, ← hbody]
      exact hlast
  | case4 => simp

theorem piece_directive {fresh : Bool} (h : fresh = true) (cs : List Char) :
    Piece fresh ('#' :: cs.take (directiveLength cs)) (cs.drop (directiveLength cs)) :=
  .directive h (continued_directive cs) (endsLine_directive cs) (getLast?_directive cs)

theorem isSome_kind_named {c : Char} {cs : List Char} {x : Lexeme} (h : named c cs = .ok x) :
    x.kind.isSome = true := by
  simp only [named] at h
  split at h
  · split at h
    · rw [kind_quoted h]
      rfl
    · obtain rfl := Except.ok.inj h
      rfl
  · obtain rfl := Except.ok.inj h
    rfl

/-- What is no gap is a token of some sort. -/
theorem isSome_kind_token {c : Char} {cs : List Char} {x : Lexeme} (h : token c cs = .ok x) :
    x.kind.isSome = true := by
  unfold token at h
  split at h
  · exact isSome_kind_named h
  split at h
  · obtain rfl := Except.ok.inj h
    rfl
  split at h
  · rw [kind_quoted h]
    rfl
  · obtain rfl := Except.ok.inj h
    rfl

/-- What is measured as no token is a gap. -/
theorem gap_measure {fresh : Bool} {c : Char} {cs : List Char} {x : Lexeme}
    (h : measure fresh c cs = .ok x) (hx : x.kind = none) :
    Gap fresh (c :: cs.take x.extra) (cs.drop x.extra) := by
  unfold measure at h
  split at h
  · next hblank =>
    obtain rfl := Except.ok.inj h
    refine .blanks (List.forall_mem_cons.mpr ⟨hblank, ?_⟩)
    exact List.all_eq_true.mp (all_take_runLength Text.isBlank cs)
  split at h
  · next hc =>
    obtain rfl := Except.ok.inj h
    obtain ⟨rfl, hhead⟩ := hc
    obtain ⟨rest, rfl⟩ := List.head?_eq_some_iff.mp hhead
    have hlength : lineLength ('/' :: rest) = lineLength rest + 1 := by
      simp [lineLength, runLength]
    dsimp only
    rw [hlength]
    exact .single (piece_lineComment fresh rest)
  split at h
  · next hc =>
    obtain ⟨rfl, hhead⟩ := hc
    obtain ⟨rest, rfl⟩ := List.head?_eq_some_iff.mp hhead
    split at h
    · next hn =>
      obtain rfl := Except.ok.inj h
      exact .single (piece_blockComment fresh hn _)
    · cases h
  split at h
  · next hc =>
    obtain rfl := Except.ok.inj h
    obtain ⟨rfl, hfresh⟩ := hc
    exact .single (piece_directive hfresh cs)
  · have hkind := isSome_kind_token h
    rw [hx] at hkind
    cases hkind

end Lexeme

/-! ## Sources -/

/-- The text that a token is written as: its own, except that a member access may be written as an
arrow. -/
def Token.WrittenAs (t : Token) (raw : List Char) : Prop :=
  raw ≠ [] ∧ (t.text.toList = raw ∨ raw = ['-', '>'] ∧ t.text = ".")

/-- How a source is made up of its tokens. `Written fresh before ts text` says that behind the text
`before` the tokens `ts`, each at the position it names, make up `text`, in their order and with
gaps in front of them and behind the last one. -/
inductive Written : Bool → List Char → List Token → List Char → Prop
  | done {fresh : Bool} {before gap : List Char} : Gap fresh gap [] → Written fresh before [] gap
  | token {fresh : Bool} {before gap raw rest : List Char} {t : Token} {ts : List Token} :
      Gap fresh gap (raw ++ rest) → t.WrittenAs raw → t.position = .behind (before ++ gap) →
      Written (raw.contains '\n') (before ++ gap ++ raw) ts rest →
      Written fresh before (t :: ts) (gap ++ (raw ++ rest))

namespace Written

variable {fresh : Bool} {before gap text : List Char} {ts : List Token}

theorem prepend (hgap : Gap fresh gap text)
    (h : Written (fresh || gap.contains '\n') (before ++ gap) ts text) :
    Written fresh before ts (gap ++ text) := by
  cases h with
  | done hend => exact .done ((List.append_nil text ▸ hgap).append hend)
  | @token _ _ gap' raw rest t ts hgap' hraw hposition hrest =>
    rw [← List.append_assoc]
    refine .token (hgap.append hgap') hraw ?_ ?_
    · rw [hposition, List.append_assoc]
    · rwa [← List.append_assoc before]

/-- A token stands behind a part of the text, and its position says behind which. -/
theorem exists_before (h : Written fresh before ts text) :
    ∀ t ∈ ts, ∃ front rest, before ++ text = front ++ rest ∧ t.position = .behind front := by
  induction h with
  | done => exact List.forall_mem_nil _
  | @token fresh before gap raw rest t ts _ _ hposition _ ih =>
    refine List.forall_mem_cons.mpr ⟨⟨before ++ gap, raw ++ rest, ?_, hposition⟩, ?_⟩
    · rw [List.append_assoc]
    · intro u hu
      obtain ⟨front, rest', he, hposition'⟩ := ih u hu
      refine ⟨front, rest', ?_, hposition'⟩
      rw [← he]
      simp

theorem text_ne_empty (h : Written fresh before ts text) : ∀ t ∈ ts, t.text ≠ "" := by
  induction h with
  | done => exact List.forall_mem_nil _
  | @token _ _ _ raw _ t ts _ hraw _ _ ih =>
    refine List.forall_mem_cons.mpr ⟨?_, ih⟩
    obtain ⟨hne, htext | ⟨_, htext⟩⟩ := hraw
    · intro hempty
      rw [hempty] at htext
      exact hne htext.symm
    · rw [htext]
      decide

end Written

namespace Lexeme

theorem writtenAs_spelling (c : Char) (cs : List Char) (kind : Kind) (p : Position) :
    (⟨spelling (c :: cs), kind, p⟩ : Token).WrittenAs (c :: cs) := by
  refine ⟨List.cons_ne_nil c cs, ?_⟩
  by_cases harrow : c :: cs = ['-', '>']
  · exact .inr ⟨harrow, by rw [spelling, if_pos harrow]⟩
  · exact .inl (toList_spelling harrow)

/-- The tokens that are cut from a text write it. -/
theorem written_scan {p : Position} {fresh : Bool} {before cs : List Char} {ts : List Token}
    (h : scan p fresh cs = .ok ts) (hp : p = .behind before) : Written fresh before ts cs := by
  fun_induction scan p fresh cs generalizing before ts with
  | case1 =>
    obtain rfl := Except.ok.inj h
    exact .done .nil
  | case2 => cases h
  | case3 p fresh c cs x hm taken after =>
    rename_i hk ih
    have hafter : after = .behind (before ++ taken) := by
      rw [← Position.advance_behind, ← hp]
    have hcut : c :: cs = taken ++ cs.drop x.extra := by
      rw [List.cons_append, List.take_append_drop]
    rw [hcut]
    exact .prepend (gap_measure hm hk) (ih h hafter)
  | case4 p fresh c cs x hm taken after brokeLine kind =>
    rename_i hk ih
    have hafter : after = .behind (before ++ taken) := by
      rw [← Position.advance_behind, ← hp]
    have hcut : c :: cs = taken ++ cs.drop x.extra := by
      rw [List.cons_append, List.take_append_drop]
    cases hs : scan after _ (cs.drop x.extra) with
    | error fault => rw [hs] at h; cases h
    | ok rest =>
      rw [hs] at h
      obtain rfl := Except.ok.inj h
      rw [hcut, ← List.nil_append taken, List.append_assoc]
      refine .token .nil (writtenAs_spelling c _ kind p) ?_ ?_
      · rw [List.append_nil]
        exact hp
      · rw [List.append_nil]
        exact ih hs hafter

end Lexeme

namespace Listing

/-- **Nothing is lost.** A source is written by the tokens of its listing with gaps between them,
and each of them stands where its line and column say. No token is empty, each stands behind the one
before it, and in a source of fewer than 2^32 - 1 characters lines and columns fit in 32 bits. -/
theorem written_ofSource {file source : String} {l : Listing} (h : ofSource file source = .ok l) :
    Written true [] l.tokens.toList source.toList ∧
    (∀ t ∈ l.tokens.toList, t.text ≠ "") ∧
    l.tokens.toList.Pairwise (fun t u => t.position.Precedes u.position) ∧
    (source.length < UInt32.size - 1 →
      ∀ t ∈ l.tokens.toList, t.position.line < UInt32.size ∧ t.position.column < UInt32.size) := by
  have hscan := (scan_of_ofSource h).1
  have hwritten : Written true [] l.tokens.toList source.toList := Lexeme.written_scan hscan rfl
  refine ⟨hwritten, hwritten.text_ne_empty, (Lexeme.ordered_scan hscan).2, fun hsize t ht => ?_⟩
  obtain ⟨front, rest, he, hposition⟩ := hwritten.exists_before t ht
  have hlength : source.length = front.length + rest.length := by
    rw [← String.length_toList, ← List.length_append, ← he, List.nil_append]
  have hle := Position.behind_le front
  rw [hposition]
  omega

/-- A directive with its continuation, both sorts of comment, an arrow and a literal over two
lines. -/
theorem written_ofSource_gaps :
    ∃ l, ofSource "a.cpp" "#if A \\\n B\n/* c */p->x = \"a\\\nb\"; // d" = .ok l ∧
      Written true [] l.tokens.toList
        "#if A \\\n B\n/* c */p->x = \"a\\\nb\"; // d".toList ∧
      (∀ t ∈ l.tokens.toList, t.text ≠ "") ∧
      l.tokens.toList.Pairwise (fun t u => t.position.Precedes u.position) ∧
      "#if A \\\n B\n/* c */p->x = \"a\\\nb\"; // d".length < UInt32.size - 1 ∧
      ∀ t ∈ l.tokens.toList, t.position.line < UInt32.size ∧ t.position.column < UInt32.size := by
  obtain ⟨l, hl⟩ := exists_ok
    (e := ofSource "a.cpp" "#if A \\\n B\n/* c */p->x = \"a\\\nb\"; // d") (by decide +kernel)
  obtain ⟨hwritten, hempty, hordered, hfits⟩ := written_ofSource hl
  have hsize : "#if A \\\n B\n/* c */p->x = \"a\\\nb\"; // d".length < UInt32.size - 1 := by
    decide +kernel
  exact ⟨l, hl, hwritten, hempty, hordered, hsize, hfits hsize⟩

end Listing

end StackEscape
