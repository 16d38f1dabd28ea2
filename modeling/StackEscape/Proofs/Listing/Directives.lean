import Mathlib.Logic.Relation
import StackEscape.Proofs.Listing.LineEnds

/-!
# Where directives begin

The places that the scan of a source comes to, with what it has cut up to there, as states of a
machine that passes one lexeme at a step. What the scan keeps of the line that it is in is one flag,
and the flag says that no token *begins* on that line. This is all that decides whether a `#` begins
a directive: a literal that goes over a line end and ends right before a `#` does not count.
-/

namespace StackEscape

def Token.lastLine (t : Token) : Nat := t.position.line + t.text.toList.count '\n'

namespace Lexeme

/-! ## The machine -/

/-- A place in a source, and what has been cut up to there. -/
structure Cut where
  /-- The source up to the end of the last token or directive. -/
  front : List Char
  /-- The blanks and comments passed over since. -/
  gap : List Char
  tokens : List Token
  lineStart : Bool
  rest : List Char

namespace Cut

def before (s : Cut) : List Char := s.front ++ s.gap

def position (s : Cut) : Position := .behind s.before

def start (source : List Char) : Cut := ⟨[], [], [], true, source⟩

/-- One lexeme is passed: a blank or a comment, a directive, or a token. -/
inductive Step : Cut → Cut → Prop
  | gap {s : Cut} {c : Char} {cs : List Char} {n : Nat} : s.rest = c :: cs →
      measure s.lineStart c cs = .ok ⟨none, n⟩ → c ≠ '#' →
      Step s ⟨s.front, s.gap ++ c :: cs.take n, s.tokens,
        s.lineStart || (c :: cs.take n).contains '\n', cs.drop n⟩
  | directive {s : Cut} {cs : List Char} {n : Nat} : s.rest = '#' :: cs →
      measure s.lineStart '#' cs = .ok ⟨none, n⟩ →
      Step s ⟨s.before ++ '#' :: cs.take n, [], s.tokens,
        s.lineStart || ('#' :: cs.take n).contains '\n', cs.drop n⟩
  | token {s : Cut} {c : Char} {cs : List Char} {kind : Kind} {n : Nat} : s.rest = c :: cs →
      measure s.lineStart c cs = .ok ⟨some kind, n⟩ →
      Step s ⟨s.before ++ c :: cs.take n, [],
        s.tokens ++ [⟨spelling (c :: cs.take n), kind, s.position⟩],
        (c :: cs.take n).contains '\n', cs.drop n⟩

/-- The scan of a source comes to the place `s`. -/
def Reached (source : List Char) : Cut → Prop := Relation.ReflTransGen Step (start source)

end Cut

/-! ## Blanks and comments -/

/-- Blanks and comments only, with `rest` behind them: on a line that is not fresh no piece is a
directive. -/
inductive Clear : List Char → List Char → Prop
  | nil (rest : List Char) : Clear [] rest
  | cons {piece gap rest : List Char} : Piece false piece (gap ++ rest) → Clear gap rest →
      Clear (piece ++ gap) rest

namespace Clear

variable {u v rest : List Char}

theorem single (h : Piece false u rest) : Clear u rest := by
  have hcons : Clear (u ++ []) rest := .cons h (.nil rest)
  rwa [List.append_nil] at hcons

theorem append (hu : Clear u (v ++ rest)) (hv : Clear v rest) : Clear (u ++ v) rest := by
  generalize hbehind : v ++ rest = behind at hu
  induction hu with
  | nil => exact hv
  | cons hpiece _ ih =>
    subst hbehind
    rw [List.append_assoc]
    exact .cons (by rwa [List.append_assoc]) (ih rfl)

theorem blanks (h : ∀ c ∈ u, Text.isBlank c = true) : Clear u rest := by
  induction u with
  | nil => exact .nil rest
  | cons c u ih =>
    obtain ⟨hc, hu⟩ := List.forall_mem_cons.mp h
    have hcons : Clear ([c] ++ u) rest := .cons (.blank hc) (ih hu)
    exact hcons

end Clear

theorem take_of_isBlank {fresh : Bool} {c : Char} {cs : List Char} {x : Lexeme}
    (h : measure fresh c cs = .ok x) (hblank : Text.isBlank c = true) :
    cs.take x.extra = cs.takeWhile Text.isBlank := by
  have hmeasure : measure fresh c cs = .ok ⟨none, runLength Text.isBlank cs⟩ := if_pos hblank
  obtain rfl := Except.ok.inj (hmeasure.symm.trans h)
  exact take_runLength Text.isBlank cs

/-- What is measured as a gap and does not begin with `#` is blanks or a comment. -/
theorem clear_measure {fresh : Bool} {c : Char} {cs : List Char} {n : Nat}
    (h : measure fresh c cs = .ok ⟨none, n⟩) (hc : c ≠ '#') :
    Clear (c :: cs.take n) (cs.drop n) := by
  rcases cases_gap h with hblank | ⟨rfl, hhead, rfl⟩ | ⟨rfl, ds, m, rfl, hm, rfl⟩ | ⟨hhash, _⟩
  · have hrun : cs.take n = cs.takeWhile Text.isBlank := take_of_isBlank h hblank
    rw [hrun]
    exact .blanks (List.forall_mem_cons.mpr
      ⟨hblank, fun _ hd => List.all_eq_true.mp List.all_takeWhile _ hd⟩)
  · obtain ⟨ds, rfl⟩ := List.head?_eq_some_iff.mp hhead
    exact .single (piece_lineComment false ds)
  · exact .single (piece_blockComment false hm _)
  · exact absurd hhash hc

/-! ## What the flag says -/

theorem Cut.line_behind (s : Cut) (cs : List Char) :
    (Position.behind (s.before ++ cs)).line = s.position.line + cs.count '\n' := by
  simp only [position, Position.behind, List.count_append]
  exact Nat.add_right_comm ..

theorem count_spelling (cs : List Char) : (spelling cs).toList.count '\n' = cs.count '\n' := by
  by_cases harrow : cs = ['-', '>']
  · rw [harrow]
    rfl
  · rw [toList_spelling harrow]

/-- What holds wherever the scan comes to. -/
structure Cut.Sound (source : List Char) (s : Cut) : Prop where
  text : s.before ++ s.rest = source
  scan : Lexeme.scan .start true source =
    (Lexeme.scan s.position s.lineStart s.rest).map (s.tokens ++ ·)
  clear : Clear s.gap s.rest
  above : ∀ t ∈ s.tokens, t.lastLine ≤ (Position.behind s.front).line
  untouched : s.front = [] → s.tokens = []
  /-- The place is in the first gap, or in one behind a token or behind a directive. -/
  front : s.front = [] ∨ (∃ t ∈ s.tokens, t.lastLine = (Position.behind s.front).line) ∨
    EndsLine (s.gap ++ s.rest)
  /-- The flag says that no token begins on the line. -/
  lineStart : s.lineStart = true ↔ ∀ t ∈ s.tokens, t.position.line < s.position.line

namespace Cut.Sound

variable {source : List Char} {s s' : Cut}

theorem start (source : List Char) : Cut.Sound source (Cut.start source) where
  text := rfl
  scan := by
    change _ = (Lexeme.scan .start true source).map ([] ++ ·)
    cases Lexeme.scan .start true source <;> rfl
  clear := .nil source
  above := List.forall_mem_nil _
  untouched _ := rfl
  front := .inl rfl
  lineStart := ⟨fun _ => List.forall_mem_nil _, fun _ => rfl⟩

/-- No token ends below the line of the place, or of one further on. -/
theorem lastLine_le (h : Cut.Sound source s) (cs : List Char) {t : Token} (ht : t ∈ s.tokens) :
    t.lastLine ≤ (Position.behind (s.before ++ cs)).line := by
  refine Nat.le_trans (h.above t ht) (Nat.succ_le_succ ?_)
  rw [before, List.append_assoc, List.count_append]
  exact Nat.le_add_right ..

theorem lastLine_le_position (h : Cut.Sound source s) {t : Token} (ht : t ∈ s.tokens) :
    t.lastLine ≤ s.position.line := by
  have hle := h.lastLine_le [] ht
  rwa [List.append_nil] at hle

/-- The flag where a gap has been passed: it is set by a line feed, and else stays. -/
theorem lineStart_gap (h : Cut.Sound source s) (taken : List Char) :
    (s.lineStart || taken.contains '\n') = true ↔
      ∀ t ∈ s.tokens, t.position.line < (Position.behind (s.before ++ taken)).line := by
  rw [Bool.or_eq_true, h.lineStart, List.contains_iff_mem, ← List.count_pos_iff, line_behind]
  constructor
  · rintro (hfresh | hfeed) t ht
    · exact Nat.lt_of_lt_of_le (hfresh t ht) (Nat.le_add_right ..)
    · have hle := h.lastLine_le_position ht
      have hfirst : t.position.line ≤ t.lastLine := Nat.le_add_right ..
      omega
  · intro hall
    by_cases hfeed : 0 < taken.count '\n'
    · exact .inr hfeed
    · refine .inl fun t ht => ?_
      have hlt := hall t ht
      omega

/-- The flag where a token has been passed: it is set by a line feed in the token only. -/
theorem lineStart_token (h : Cut.Sound source s) (text : String) (kind : Kind)
    (taken : List Char) :
    taken.contains '\n' = true ↔ ∀ t ∈ s.tokens ++ [⟨text, kind, s.position⟩],
      t.position.line < (Position.behind (s.before ++ taken)).line := by
  rw [List.contains_iff_mem, ← List.count_pos_iff, line_behind]
  constructor
  · refine fun hfeed => List.forall_mem_append.mpr ⟨fun t ht => ?_, ?_⟩
    · have hle := h.lastLine_le_position ht
      have hfirst : t.position.line ≤ t.lastLine := Nat.le_add_right ..
      omega
    · exact List.forall_mem_singleton.mpr (Nat.lt_add_of_pos_right hfeed)
  · intro hall
    have hlt : s.position.line < s.position.line + taken.count '\n' :=
      hall _ (List.mem_append_right _ List.mem_cons_self)
    exact Nat.pos_of_lt_add_right hlt

variable {c : Char} {cs : List Char} {n : Nat}

theorem gap (h : Cut.Sound source s) (hrest : s.rest = c :: cs)
    (hm : measure s.lineStart c cs = .ok ⟨none, n⟩) (hc : c ≠ '#') :
    Cut.Sound source ⟨s.front, s.gap ++ c :: cs.take n, s.tokens,
      s.lineStart || (c :: cs.take n).contains '\n', cs.drop n⟩ := by
  have hcut : c :: cs.take n ++ cs.drop n = s.rest := by
    rw [hrest, List.cons_append, List.take_append_drop]
  refine ⟨?_, ?_, ?_, h.above, h.untouched, ?_, ?_⟩
  · rw [← h.text, ← hcut]
    simp only [before, List.append_assoc]
  · rw [h.scan, hrest, scan_gap _ hm, position, Position.advance_behind]
    simp only [position, before, List.append_assoc]
  · refine .append ?_ (clear_measure hm hc)
    rw [hcut]
    exact h.clear
  · dsimp only
    rw [List.append_assoc, hcut]
    exact h.front
  · have hflag := h.lineStart_gap (c :: cs.take n)
    simpa only [position, before, List.append_assoc] using hflag

theorem directive (h : Cut.Sound source s) (hrest : s.rest = '#' :: cs)
    (hm : measure s.lineStart '#' cs = .ok ⟨none, n⟩) :
    Cut.Sound source ⟨s.before ++ '#' :: cs.take n, [], s.tokens,
      s.lineStart || ('#' :: cs.take n).contains '\n', cs.drop n⟩ := by
  have hcut : '#' :: cs.take n ++ cs.drop n = s.rest := by
    rw [hrest, List.cons_append, List.take_append_drop]
  have hn : n = directiveLength cs := by
    rcases cases_gap hm with hblank | ⟨hslash, _⟩ | ⟨hslash, _⟩ | ⟨_, _, hn⟩
    · exact absurd hblank (by decide)
    · exact absurd hslash (by decide)
    · exact absurd hslash (by decide)
    · exact hn
  refine ⟨?_, ?_, .nil _, ?_, fun hnil => by simp at hnil, ?_, ?_⟩
  · rw [← h.text, ← hcut]
    simp only [before, List.append_nil, List.append_assoc]
  · rw [h.scan, hrest, scan_gap _ hm, position, Position.advance_behind]
    simp only [position, before, List.append_nil]
  · exact fun t ht => h.lastLine_le _ ht
  · refine .inr (.inr ?_)
    subst hn
    exact endsLine_directive cs
  · have hflag := h.lineStart_gap ('#' :: cs.take n)
    simpa only [position, before, List.append_nil] using hflag

theorem token {kind : Kind} (h : Cut.Sound source s) (hrest : s.rest = c :: cs)
    (hm : measure s.lineStart c cs = .ok ⟨some kind, n⟩) :
    Cut.Sound source ⟨s.before ++ c :: cs.take n, [],
      s.tokens ++ [⟨spelling (c :: cs.take n), kind, s.position⟩],
      (c :: cs.take n).contains '\n', cs.drop n⟩ := by
  have hcut : c :: cs.take n ++ cs.drop n = s.rest := by
    rw [hrest, List.cons_append, List.take_append_drop]
  have hlast : (⟨spelling (c :: cs.take n), kind, s.position⟩ : Token).lastLine =
      (Position.behind (s.before ++ c :: cs.take n)).line := by
    rw [line_behind, Token.lastLine, count_spelling]
  refine ⟨?_, ?_, .nil _, ?_, fun hnil => by simp at hnil, ?_, ?_⟩
  · rw [← h.text, ← hcut]
    simp only [before, List.append_nil, List.append_assoc]
  · rw [h.scan, hrest, scan_token _ hm, position, Position.advance_behind]
    simp only [position, before, List.append_nil]
    cases Lexeme.scan _ _ (cs.drop n) with
    | ok us => simp [Except.map]
    | error fault => rfl
  · refine List.forall_mem_append.mpr ⟨fun t ht => h.lastLine_le _ ht, ?_⟩
    exact List.forall_mem_singleton.mpr (Nat.le_of_eq hlast)
  · exact .inr (.inl ⟨_, List.mem_append_right _ List.mem_cons_self, hlast⟩)
  · have hflag := h.lineStart_token (spelling (c :: cs.take n)) kind (c :: cs.take n)
    simpa only [position, before, List.append_nil] using hflag

theorem step (h : Cut.Sound source s) (hstep : Step s s') : Cut.Sound source s' := by
  cases hstep with
  | gap hrest hm hc => exact h.gap hrest hm hc
  | directive hrest hm => exact h.directive hrest hm
  | token hrest hm => exact h.token hrest hm

end Cut.Sound

theorem Cut.sound_of_reached {source : List Char} {s : Cut} (h : Reached source s) :
    Cut.Sound source s := by
  induction h with
  | refl => exact .start source
  | tail _ hstep ih => exact ih.step hstep

/-! ## Every place is met, or lies inside a lexeme -/

namespace Cut

variable {source : List Char} {ts : List Token} {s : Cut}

/-- Where the scan of a source without faults comes to, it goes on. -/
theorem exists_tokens (hscan : Lexeme.scan .start true source = .ok ts) (h : Reached source s) :
    ∃ us, Lexeme.scan s.position s.lineStart s.rest = .ok us ∧ ts = s.tokens ++ us := by
  have hcut := (sound_of_reached h).scan
  rw [hscan] at hcut
  cases hus : Lexeme.scan s.position s.lineStart s.rest with
  | error fault =>
    rw [hus] at hcut
    cases hcut
  | ok us =>
    rw [hus] at hcut
    exact ⟨us, rfl, Except.ok.inj hcut⟩

theorem exists_step {c : Char} {cs : List Char} {x : Lexeme} (hrest : s.rest = c :: cs)
    (hm : measure s.lineStart c cs = .ok x) :
    ∃ s', Step s s' ∧ s'.before = s.before ++ c :: cs.take x.extra ∧
      s'.rest = cs.drop x.extra := by
  obtain ⟨kind, n⟩ := x
  cases kind with
  | some kind => exact ⟨_, .token hrest hm, List.append_nil _, rfl⟩
  | none =>
    by_cases hc : c = '#'
    · subst hc
      exact ⟨_, .directive hrest hm, List.append_nil _, rfl⟩
    · exact ⟨_, .gap hrest hm hc, (List.append_assoc ..).symm, rfl⟩

/-- The scan takes every character of a source, as one of some lexeme. -/
theorem exists_lexeme (hscan : Lexeme.scan .start true source = .ok ts) (h : Reached source s)
    {u v : List Char} {c : Char} (hsplit : s.rest = u ++ c :: v) :
    ∃ s' d cs x k, Reached source s' ∧ s'.rest = d :: cs ∧ measure s'.lineStart d cs = .ok x ∧
      k ≤ x.extra ∧ s'.before ++ (d :: cs).take k = s.before ++ u ∧ (d :: cs).drop k = c :: v := by
  induction hlength : u.length using Nat.strongRecOn generalizing s u with
  | _ length ih =>
    subst hlength
    obtain ⟨us, hus, -⟩ := exists_tokens hscan h
    obtain ⟨d, cs, hrest⟩ : ∃ d cs, s.rest = d :: cs :=
      List.exists_cons_of_ne_nil (by rw [hsplit]; simp)
    cases hm : measure s.lineStart d cs with
    | error fault =>
      rw [hrest, scan.eq_def] at hus
      simp only [hm] at hus
      cases hus
    | ok x =>
      have hsplit' : d :: cs = u ++ c :: v := hrest.symm.trans hsplit
      by_cases hk : u.length ≤ x.extra
      · refine ⟨s, d, cs, x, u.length, h, hrest, hm, hk, ?_, ?_⟩
        · rw [hsplit', List.take_left]
        · rw [hsplit', List.drop_left]
      · -- the next lexeme ends in front of the character
        obtain ⟨s', hstep, hbefore, hrest'⟩ := exists_step hrest hm
        have htake : d :: cs.take x.extra = u.take (x.extra + 1) := by
          rw [← List.take_succ_cons, hsplit', List.take_append_of_le_length (by omega)]
        have hdrop : s'.rest = u.drop (x.extra + 1) ++ c :: v := by
          rw [hrest', ← List.drop_succ_cons (a := d), hsplit',
            List.drop_append_of_le_length (by omega)]
        obtain ⟨s'', hs''⟩ := ih _ (by rw [List.length_drop]; omega) (h.tail hstep) hdrop rfl
        rw [hbefore, htake, List.append_assoc, List.take_append_drop] at hs''
        exact ⟨s'', hs''⟩

end Cut

/-- Behind `pre` the scan of a source is within a comment, a directive, a literal or a `##`. -/
def Within (source pre : List Char) : Prop :=
  ∃ s c cs x k, Cut.Reached source s ∧ s.rest = c :: cs ∧ measure s.lineStart c cs = .ok x ∧
    0 < k ∧ k ≤ x.extra ∧ pre = s.before ++ (c :: cs).take k ∧
    (x.kind = none ∧ (c = '/' ∨ c = '#') ∨ x.kind = some .string ∨ x.kind = some .character ∨
      c :: cs.take x.extra = ['#', '#'])

/-- Whatever has a `#` behind its first character is a comment, a directive, a literal or `##`. -/
theorem cases_of_mem {fresh : Bool} {c : Char} {cs : List Char} {x : Lexeme}
    (h : measure fresh c cs = .ok x) (hmem : '#' ∈ cs.take x.extra) :
    x.kind = none ∧ (c = '/' ∨ c = '#') ∨ x.kind = some .string ∨ x.kind = some .character ∨
      c :: cs.take x.extra = ['#', '#'] := by
  obtain ⟨kind, n⟩ := x
  cases kind with
  | none =>
    refine .inl ⟨rfl, ?_⟩
    rcases cases_gap h with hblank | ⟨hc, _⟩ | ⟨hc, _⟩ | ⟨hc, _⟩
    · rw [take_of_isBlank h hblank] at hmem
      exact absurd (List.all_eq_true.mp List.all_takeWhile _ hmem) (by decide)
    · exact .inl hc
    · exact .inl hc
    · exact .inr hc
  | some kind =>
    by_cases hstring : some kind = some Kind.string
    · exact .inr (.inl hstring)
    by_cases hcharacter : some kind = some Kind.character
    · exact .inr (.inr (.inl hcharacter))
    refine .inr (.inr (.inr ?_))
    have hbegins := beginsToken_of_measure h rfl
    rw [measure_eq_token hbegins] at h
    rcases cases_token h ⟨hstring, hcharacter⟩ with hplain | hlong | hextra
    · exact absurd (hplain _ (List.mem_cons_of_mem _ hmem)) (by decide)
    · have hpaste : ∀ op ∈ longOperators, '#' ∈ op.tail → op = ['#', '#'] := by decide
      exact hpaste _ hlong hmem
    · dsimp only at hextra hmem
      rw [hextra] at hmem
      cases hmem

/-- **Every `#` of a source is met or passed over**: the scan comes to it, or is within a comment, a
directive, a literal or a `##` there. -/
theorem reached_or_within {source : List Char} {ts : List Token} {pre rest : List Char}
    (hscan : scan .start true source = .ok ts) (hsplit : source = pre ++ '#' :: rest) :
    (∃ s, Cut.Reached source s ∧ s.before = pre ∧ s.rest = '#' :: rest) ∨ Within source pre := by
  obtain ⟨s, c, cs, x, k, hreached, hrest, hm, hk, hbefore, hdrop⟩ :=
    Cut.exists_lexeme hscan (s := .start source) .refl hsplit
  have hpre : s.before ++ (c :: cs).take k = pre := hbefore
  cases k with
  | zero =>
    refine .inl ⟨s, hreached, ?_, hrest.trans hdrop⟩
    rw [← hpre, List.take_zero, List.append_nil]
  | succ k =>
    refine .inr ⟨s, c, cs, x, k + 1, hreached, hrest, hm, Nat.succ_pos k, hk, hpre.symm, ?_⟩
    refine cases_of_mem hm ?_
    have hhead : cs.drop k = '#' :: rest := hdrop
    have hget : (cs.take x.extra)[k]? = some '#' := by
      rw [List.getElem?_take_of_lt hk, ← List.head?_drop, hhead, List.head?_cons]
    exact List.mem_of_getElem? hget

/-! ## At a `#` -/

theorem text_hash (cs : List Char) :
    '#' :: cs.take (operatorLength ('#' :: cs)) = ['#'] ∨
      '#' :: cs.take (operatorLength ('#' :: cs)) = ['#', '#'] := by
  have hpaste : ∀ op ∈ longOperators, op.head? = some '#' → op = ['#', '#'] := by decide
  rcases operatorLength_cases '#' cs with hmem | hzero
  · exact .inr (hpaste _ hmem rfl)
  · rw [hzero]
    exact .inl rfl

namespace Cut

/-- The next lexeme is a directive. -/
def BeginsDirective (s : Cut) : Prop :=
  ∃ cs n, s.rest = '#' :: cs ∧ measure s.lineStart '#' cs = .ok ⟨none, n⟩

/-- No character of a token stands before the place on its line. -/
def OnFreshLine (s : Cut) : Prop := ∀ t ∈ s.tokens, t.lastLine < s.position.line

variable {source : List Char} {ts : List Token} {s : Cut} {cs : List Char}

theorem measure_hash (lineStart : Bool) (cs : List Char) :
    measure lineStart '#' cs =
      .ok (if lineStart then ⟨none, directiveLength cs⟩
        else ⟨some .operator, operatorLength ('#' :: cs)⟩) := by
  cases lineStart <;> rfl

/-- No character of a token stands before a `#` on its line exactly if all that does is blank or
part of a comment: what is passed over reaches back over a line end, or to the front of the
source. -/
theorem Sound.onFreshLine_iff (h : Cut.Sound source s) (hrest : s.rest = '#' :: cs) :
    s.OnFreshLine ↔ s.front = [] ∨ '\n' ∈ s.gap := by
  have hline : s.position.line = (Position.behind s.front).line + s.gap.count '\n' := by
    simp only [position, before, Position.behind, List.count_append]
    exact Nat.add_right_comm ..
  constructor
  · intro hfresh
    rcases h.front with hfront | ⟨t, ht, hlast⟩ | hends
    · exact .inl hfront
    · refine .inr (List.count_pos_iff.mp ?_)
      have hlt := hfresh t ht
      omega
    · cases hgap : s.gap with
      | nil =>
        rw [hgap, hrest] at hends
        exact absurd (hends '#' rfl) (by decide)
      | cons d gap =>
        rw [hgap] at hends
        exact .inr (hends d rfl ▸ List.mem_cons_self)
  · rintro (hfront | hfeed) t ht
    · rw [h.untouched hfront] at ht
      cases ht
    · have hle := h.above t ht
      have hpos := List.count_pos_iff.mpr hfeed
      omega

/-- The flag alone decides. -/
theorem beginsDirective_iff (hrest : s.rest = '#' :: cs) :
    s.BeginsDirective ↔ s.lineStart = true := by
  constructor
  · rintro ⟨ds, n, hds, hm⟩
    cases hflag : s.lineStart with
    | true => rfl
    | false =>
      rw [measure_hash, hflag] at hm
      cases congrArg Lexeme.kind (Except.ok.inj hm)
  · intro hflag
    refine ⟨cs, directiveLength cs, hrest, ?_⟩
    rw [measure_hash, hflag]
    rfl

/-- A directive is passed over up to its end. -/
theorem scan_directive (hrest : s.rest = '#' :: cs) (h : s.BeginsDirective) :
    Lexeme.scan s.position s.lineStart s.rest =
      Lexeme.scan (s.position.advance ('#' :: cs.take (directiveLength cs))) true
        (cs.drop (directiveLength cs)) := by
  have hflag := (beginsDirective_iff hrest).mp h
  have hm : measure s.lineStart '#' cs = .ok ⟨none, directiveLength cs⟩ := by
    rw [measure_hash, hflag]
    rfl
  rw [hrest, scan_gap _ hm, hflag, Bool.true_or]

/-- Any other `#` is cut as a token, and what stands behind it is cut next. -/
theorem exists_token_of_hash {us : List Token} (hrest : s.rest = '#' :: cs)
    (h : ¬ s.BeginsDirective) (hus : Lexeme.scan s.position s.lineStart s.rest = .ok us) :
    ∃ t us' behind, us = t :: us' ∧ t.kind = .operator ∧ t.position = s.position ∧
      (t.text = "#" ∨ t.text = "##") ∧ s.rest = t.text.toList ++ behind ∧
      Lexeme.scan (s.position.advance t.text.toList) false behind = .ok us' := by
  have hflag : s.lineStart = false :=
    Bool.eq_false_iff.mpr fun hflag => h ((beginsDirective_iff hrest).mpr hflag)
  have hm : measure s.lineStart '#' cs = .ok ⟨some .operator, operatorLength ('#' :: cs)⟩ := by
    rw [measure_hash, hflag]
    rfl
  have hcut : '#' :: cs.take (operatorLength ('#' :: cs)) ++ cs.drop (operatorLength ('#' :: cs)) =
      s.rest := by
    rw [hrest, List.cons_append, List.take_append_drop]
  rw [hrest, scan_token _ hm] at hus
  have htext := text_hash cs
  generalize '#' :: cs.take (operatorLength ('#' :: cs)) = taken at hus htext hcut
  have hspelling : (spelling taken).toList = taken ∧ (spelling taken = "#" ∨ spelling taken = "##") ∧
      taken.contains '\n' = false := by
    rcases htext with rfl | rfl <;> decide
  obtain ⟨hlist, htext, hfeed⟩ := hspelling
  rw [hfeed] at hus
  cases hrest' : Lexeme.scan (s.position.advance taken) false
      (cs.drop (operatorLength ('#' :: cs))) with
  | error fault =>
    rw [hrest'] at hus
    cases hus
  | ok us' =>
    rw [hrest'] at hus
    obtain rfl := Except.ok.inj hus
    refine ⟨_, us', cs.drop (operatorLength ('#' :: cs)), rfl, rfl, rfl, htext, ?_, ?_⟩
    · dsimp only
      rw [hlist, hcut]
    · dsimp only
      rw [hlist]
      exact hrest'

/-- **Where a `#` begins a directive.** The scan of a source without faults that comes to a `#` takes
it for a directive exactly if no token begins on its line before it; it then drops the directive and
nothing else. Any other `#` is a token, and the scan goes on right behind it. So a `#` begins a
directive exactly if it is on a fresh line, with blanks and comments only before it, unless a token
from a line further up ends on its line. -/
theorem directive_of_hash (hscan : Lexeme.scan .start true source = .ok ts)
    (hmet : Reached source s) (hrest : s.rest = '#' :: cs) :
    (s.BeginsDirective ↔ ∀ t ∈ s.tokens, t.position.line < s.position.line) ∧
    (s.OnFreshLine ↔ s.front = [] ∨ '\n' ∈ s.gap) ∧ Clear s.gap s.rest ∧
    ((∀ t ∈ s.tokens, t.lastLine = s.position.line → t.position.line = s.position.line) →
      (s.BeginsDirective ↔ s.OnFreshLine)) ∧
    (s.BeginsDirective → ∃ us, ts = s.tokens ++ us ∧
      Lexeme.scan (s.position.advance ('#' :: cs.take (directiveLength cs))) true
        (cs.drop (directiveLength cs)) = .ok us) ∧
    (¬ s.BeginsDirective → ∃ t us behind, ts = s.tokens ++ t :: us ∧ t.kind = .operator ∧
      t.position = s.position ∧ (t.text = "#" ∨ t.text = "##") ∧ s.rest = t.text.toList ++ behind ∧
      Lexeme.scan (s.position.advance t.text.toList) false behind = .ok us) := by
  have hsound := sound_of_reached hmet
  obtain ⟨us, hus, rfl⟩ := exists_tokens hscan hmet
  have hbegins : s.BeginsDirective ↔ ∀ t ∈ s.tokens, t.position.line < s.position.line :=
    (beginsDirective_iff hrest).trans hsound.lineStart
  refine ⟨hbegins, hsound.onFreshLine_iff hrest, hsound.clear, fun hlast => ?_, fun h => ?_,
    fun h => ?_⟩
  · rw [hbegins]
    constructor
    · intro hall t ht
      refine Nat.lt_of_le_of_ne (hsound.lastLine_le_position ht) fun he => ?_
      exact Nat.ne_of_lt (hall t ht) (hlast t ht he)
    · exact fun hfresh t ht => Nat.lt_of_le_of_lt (Nat.le_add_right ..) (hfresh t ht)
  · exact ⟨us, rfl, (scan_directive hrest h).symm.trans hus⟩
  · obtain ⟨t, us', behind, rfl, hkind, hposition, htext, hcut, hrest'⟩ :=
      exists_token_of_hash hrest h hus
    exact ⟨t, us', behind, rfl, hkind, hposition, htext, hcut, hrest'⟩

/-- A name, and a comment that goes over the end of its line to the `#`. -/
theorem directive_of_hash_comment : ∃ ts s,
    Lexeme.scan .start true "x/*\n*/#d\n#".toList = .ok ts ∧
      Reached "x/*\n*/#d\n#".toList s ∧ s.rest = '#' :: "d\n#".toList ∧
      (∀ t ∈ s.tokens, t.lastLine = s.position.line → t.position.line = s.position.line) ∧
      '\n' ∈ s.gap ∧ s.OnFreshLine ∧ s.BeginsDirective := by
  obtain ⟨ts, hts⟩ := Listing.exists_ok
    (e := Lexeme.scan .start true "x/*\n*/#d\n#".toList) (by decide +kernel)
  obtain ⟨s, hmet, hrest, hgap, hlast⟩ : ∃ s, Reached "x/*\n*/#d\n#".toList s ∧
      s.rest = '#' :: "d\n#".toList ∧ '\n' ∈ s.gap ∧
      ∀ t ∈ s.tokens, t.lastLine = s.position.line → t.position.line = s.position.line := by
    refine ⟨_, .tail (.tail .refl (.token (n := 0) rfl rfl))
      (.gap (c := '/') (n := 4) rfl rfl (by decide)), rfl, ?_, ?_⟩
    · decide +kernel
    · decide +kernel
  obtain ⟨_, hfresh, _, hiff, _⟩ := directive_of_hash hts hmet hrest
  have hline := hfresh.mpr (.inr hgap)
  exact ⟨ts, s, hts, hmet, hrest, hlast, hgap, hline, (hiff hlast).mpr hline⟩

/-- A literal that ends on the line of a `#`, right before it, leaves it a directive. -/
theorem directive_behind_literal : ∃ ts s,
    Lexeme.scan .start true "\"\\\n\"#x".toList = .ok ts ∧
      ts.map Token.text = ["\"\\\n\""] ∧
      Reached "\"\\\n\"#x".toList s ∧ s.rest = '#' :: ['x'] ∧ s.BeginsDirective ∧
      ¬ s.OnFreshLine := by
  obtain ⟨ts, hts, htexts⟩ : ∃ ts, Lexeme.scan .start true "\"\\\n\"#x".toList = .ok ts ∧
      ts.map Token.text = ["\"\\\n\""] := Listing.exists_ok_of_any (by decide +kernel)
  refine ⟨ts, _, hts, htexts, .tail .refl (.token (n := 3) rfl rfl), rfl,
    ⟨_, 1, rfl, rfl⟩, ?_⟩
  unfold OnFreshLine
  decide +kernel

end Cut

end Lexeme

end StackEscape
