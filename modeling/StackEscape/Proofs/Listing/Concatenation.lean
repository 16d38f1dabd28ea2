import StackEscape.Proofs.Listing.LineEnds

/-!
# Sources one below the other

A line feed is a seam: whatever stands above it is cut and linked as if the source ended there, and
whatever stands below it as if the source began there, only further down. The one thing that reaches
over a line feed is a backslash right in front of it, which may continue a directive.
-/

namespace StackEscape

/-! ## Further down -/

def Position.below (n : Nat) (p : Position) : Position := ⟨p.line + n, p.column⟩

def Token.below (n : Nat) (t : Token) : Token := { t with position := t.position.below n }

def SourceFault.below (n : Nat) : SourceFault → SourceFault
  | .unterminatedLiteral file line quote => .unterminatedLiteral file (line + n) quote
  | .unterminatedComment file line => .unterminatedComment file (line + n)
  | .unclosedBracket file line bracket => .unclosedBracket file (line + n) bracket
  | .unexpectedCloser file line bracket => .unexpectedCloser file (line + n) bracket
  | .unreadable path reason => .unreadable path reason

/-- A listing, and behind it one of a text that begins `n` lines further down. -/
def Listing.above (l : Listing) (n : Nat) (l' : Listing) : Listing where
  file := l.file
  tokens := l.tokens ++ l'.tokens.map (Token.below n)
  links := l.links ++ l'.links.map (Option.map (· + l.size))

namespace Position

theorem advance_below (n : Nat) (p : Position) (cs : List Char) :
    (p.below n).advance cs = (p.advance cs).below n := by
  induction cs generalizing p with
  | nil => rfl
  | cons c cs ih =>
    have hnext : (p.below n).next c = (p.next c).below n := by
      unfold next below
      split
      · rw [Nat.add_right_comm]
      · rfl
    rw [advance_cons, advance_cons, hnext, ih]

/-- Behind a line feed a line begins, which the line feeds in front of it count. -/
theorem next_advance_start (cs : List Char) :
    (start.advance cs).next '\n' = start.below (cs.count '\n' + 1) := by
  change ((behind []).advance cs).next '\n' = _
  rw [advance_behind, next_behind, behind, below, start]
  simp [Nat.add_comm]

end Position

namespace Lexeme

/-! ## What stands above -/

section
variable {c : Char} {cs : List Char}

theorem suffix_of_cons {u : List Char} (h : ¬ u <:+ c :: cs) : ¬ u <:+ cs :=
  fun hu => h (hu.trans (List.suffix_cons c cs))

/-- A block comment ends where it ends, whatever stands behind. -/
theorem commentLength?_append {n : Nat} (h : commentLength? cs = some n) (ds : List Char) :
    n ≤ cs.length ∧ commentLength? (cs ++ ds) = some n := by
  fun_induction commentLength? cs generalizing n with
  | case1 cs =>
    obtain rfl := Option.some.inj h
    exact ⟨Nat.succ_le_succ (Nat.succ_le_succ (Nat.zero_le _)), rfl⟩
  | case2 c cs hno ih =>
    obtain ⟨m, hm, rfl⟩ := Option.map_eq_some_iff.mp h
    obtain ⟨hle, happend⟩ := ih hm
    refine ⟨Nat.succ_le_succ hle, ?_⟩
    rw [List.cons_append, commentLength?_cons, happend]
    · rfl
    · rintro rfl hhead
      cases cs with
      | nil => cases hm
      | cons d cs =>
        obtain rfl := Option.some.inj hhead
        exact hno cs rfl rfl
  | case3 => cases h

theorem lineLength_lineFeed (cs ds : List Char) : lineLength (cs ++ '\n' :: ds) = lineLength cs := by
  induction cs with
  | nil => rfl
  | cons c cs ih =>
    simp only [lineLength, runLength, List.cons_append, List.takeWhile_cons] at ih ⊢
    split
    · rw [List.length_cons, List.length_cons, ih]
    · rfl

/-- A directive goes on below only behind a backslash. -/
theorem directiveLength_lineFeed (h : ¬ ['\\'] <:+ cs) (ds : List Char) :
    directiveLength cs ≤ cs.length ∧ directiveLength (cs ++ '\n' :: ds) = directiveLength cs := by
  fun_induction directiveLength cs with
  | case1 cs ih =>
    obtain ⟨hle, happend⟩ := ih (suffix_of_cons (suffix_of_cons h))
    refine ⟨Nat.add_le_add_right hle 2, ?_⟩
    rw [List.cons_append, List.cons_append, directiveLength, happend]
  | case2 cs => exact ⟨Nat.zero_le _, rfl⟩
  | case3 c cs hno hc ih =>
    obtain ⟨hle, happend⟩ := ih (suffix_of_cons h)
    refine ⟨Nat.succ_le_succ hle, ?_⟩
    rw [List.cons_append, directiveLength_cons (fun he => hc he), happend]
    rintro rfl d hd rfl
    cases cs with
    | nil => exact h (List.suffix_refl _)
    | cons e cs =>
      obtain rfl := Option.some.inj hd
      exact hno cs rfl rfl
  | case4 => exact ⟨Nat.le_refl _, rfl⟩

/-- What is no blank is measured as before if a line feed and more stands behind the text. -/
theorem measure_lineFeed {fresh : Bool} {x : Lexeme} (h : measure fresh c cs = .ok x)
    (hc : Text.isBlank c = false) (hend : ¬ ['\\'] <:+ cs) (ds : List Char) :
    x.extra ≤ cs.length ∧ measure fresh c (cs ++ '\n' :: ds) = .ok x := by
  obtain ⟨kind, n⟩ := x
  cases kind with
  | some kind =>
    have hle : n ≤ cs.length := by
      rw [measure_eq_token (beginsToken_of_measure h rfl)] at h
      exact extra_le_of_token h
    refine ⟨hle, ?_⟩
    rw [← List.append_nil cs] at h
    exact measure_cut h rfl hle (.blank (by decide) ds)
  | none =>
    rcases cases_gap h with hblank | ⟨rfl, hhead, rfl⟩ | ⟨rfl, es, m, rfl, hm, rfl⟩ |
        ⟨rfl, rfl, rfl⟩
    · rw [hc] at hblank
      cases hblank
    · obtain ⟨es, rfl⟩ := List.head?_eq_some_iff.mp hhead
      refine ⟨runLength_le _ _, ?_⟩
      rw [← lineLength_lineFeed _ ds]
      simp [measure, hc]
    · obtain ⟨hle, happend⟩ := commentLength?_append hm ('\n' :: ds)
      refine ⟨Nat.succ_le_succ hle, ?_⟩
      simp [measure, hc, happend]
    · obtain ⟨hle, happend⟩ := directiveLength_lineFeed hend ds
      refine ⟨hle, ?_⟩
      simp [measure, hc, happend]

end

/-- **What stands above a line feed is cut as if the text ended there**, and the scan goes on below
at the start of a line. -/
theorem scan_lineFeed {p : Position} {fresh : Bool} {cs : List Char} {ts : List Token}
    (h : scan p fresh cs = .ok ts) (hend : ¬ ['\\'] <:+ cs) (ds : List Char) :
    scan p fresh (cs ++ '\n' :: ds) =
      (scan ((p.advance cs).next '\n') true ds).map (ts ++ ·) := by
  fun_induction scan p fresh cs generalizing ts with
  | case1 p fresh =>
    obtain rfl := Except.ok.inj h
    have hseam : (fresh || '\n' == '\n') = true := by simp
    rw [List.nil_append, scan_blank p (by decide), hseam]
    exact (congrFun Except.map_id _).symm
  | case2 => cases h
  | case3 p fresh c cs x hx =>
    rename_i taken after brokeLine hk ih
    have hcut : c :: cs = taken ++ cs.drop x.extra := by
      rw [List.cons_append, List.take_append_drop]
    have hrest := ih h fun hu => suffix_of_cons hend (hu.trans (List.drop_suffix _ _))
    rw [← Position.advance_append, ← hcut] at hrest
    rw [← hrest]
    cases hc : Text.isBlank c with
    | true =>
      -- the blanks at the end of the text join those that stand behind it
      have hblank : ∀ d ∈ taken, Text.isBlank d = true := by
        rw [measure, if_pos hc] at hx
        obtain rfl := Except.ok.inj hx
        exact List.forall_mem_cons.mpr
          ⟨hc, List.all_eq_true.mp (all_take_runLength Text.isBlank cs)⟩
      rw [hcut, List.append_assoc, scan_append_blanks p hblank]
    | false =>
      obtain ⟨hle, happend⟩ := measure_lineFeed hx hc (suffix_of_cons hend) ds
      obtain ⟨kind, n⟩ := x
      obtain rfl : kind = none := hk
      rw [List.cons_append, scan_gap p happend, List.take_append_of_le_length hle,
        List.drop_append_of_le_length hle]
  | case4 p fresh c cs x hx =>
    rename_i taken after brokeLine kind hk ih
    have hcut : c :: cs = taken ++ cs.drop x.extra := by
      rw [List.cons_append, List.take_append_drop]
    cases hs : scan after brokeLine (cs.drop x.extra) with
    | error fault => rw [hs] at h; cases h
    | ok rest =>
      rw [hs] at h
      obtain rfl := Except.ok.inj h
      have hrest := ih hs fun hu => suffix_of_cons hend (hu.trans (List.drop_suffix _ _))
      rw [← Position.advance_append, ← hcut] at hrest
      have hvisible := (beginsToken_of_measure hx (by rw [hk]; rfl)).visible
      obtain ⟨hle, happend⟩ := measure_lineFeed hx hvisible (suffix_of_cons hend) ds
      obtain ⟨kind, n⟩ := x
      obtain rfl : kind = some _ := hk
      rw [List.cons_append, scan_token p happend, List.take_append_of_le_length hle,
        List.drop_append_of_le_length hle, hrest]
      cases scan ((p.advance (c :: cs)).next '\n') true ds <;> rfl

/-! ## What stands below -/

/-- A text that begins further down is cut into the same tokens further down. -/
theorem scan_below (n : Nat) (p : Position) (fresh : Bool) (cs : List Char) :
    scan (p.below n) fresh cs =
      ((scan p fresh cs).map (List.map (Token.below n))).mapError fun f => (f.1, f.2 + n) := by
  fun_induction scan p fresh cs with
  | case1 => exact scan_nil _ _
  | case2 p fresh c cs fault hx =>
    rw [scan.eq_def]
    simp only [hx]
    rfl
  | case3 p fresh c cs x hx =>
    rename_i taken after brokeLine hk ih
    obtain ⟨kind, m⟩ := x
    obtain rfl : kind = none := hk
    rw [scan_gap _ hx, Position.advance_below, ih]
  | case4 p fresh c cs x hx =>
    rename_i taken after brokeLine kind hk ih
    obtain ⟨kind, m⟩ := x
    obtain rfl : kind = some _ := hk
    rw [scan_token _ hx, Position.advance_below, ih]
    cases scan after brokeLine (cs.drop m) <;> rfl

end Lexeme

namespace Bracket

def Fault.below (n : Nat) : Fault → Fault
  | .unclosed t => .unclosed (t.below n)
  | .unexpected t => .unexpected (t.below n)

/-- Partners that stand in front of further links are joined there. -/
theorem join_append {links : Array (Option Nat)} {o c : Nat} (ho : o < links.size)
    (hc : c < links.size) (behind : Array (Option Nat)) :
    join (links ++ behind) o c = join links o c ++ behind := by
  have hc' : c < (links.setIfInBounds o (some c)).size := by rwa [Array.size_setIfInBounds]
  rw [join, Array.setIfInBounds_append_left ho, Array.setIfInBounds_append_left hc', ← join]

/-- Links, and behind them those of tokens that stand behind. -/
def putBehind (front links : Array (Option Nat)) : Array (Option Nat) :=
  front ++ links.map (Option.map (· + front.size))

/-- Partners that stand behind other links are joined there. -/
theorem join_putBehind (front links : Array (Option Nat)) (o c : Nat) :
    join (putBehind front links) (o + front.size) (c + front.size) =
      putBehind front (join links o c) := by
  have hle : ∀ i, front.size ≤ i + front.size := fun i => Nat.le_add_left _ i
  rw [join, putBehind, Array.setIfInBounds_append_right (hle o),
    Array.setIfInBounds_append_right (hle c), Nat.add_sub_cancel, Nat.add_sub_cancel, putBehind,
    join, Array.map_setIfInBounds, Array.map_setIfInBounds]
  rfl

/-- Tokens whose brackets pair leave nothing open to those that stand behind them. -/
theorem linkFrom_append {ts : List Token} {i : Nat} {opened : List (Nat × Token)}
    {links links' : Array (Option Nat)} (h : linkFrom i opened links ts = .ok links')
    (hsize : i + ts.length ≤ links.size) (hopened : ∀ b ∈ opened, b.1 < i)
    (behind : Array (Option Nat)) (us : List Token) :
    linkFrom i opened (links ++ behind) (ts ++ us) =
      linkFrom (i + ts.length) [] (links' ++ behind) us := by
  fun_induction linkFrom i opened links ts with
  | case1 i links =>
    obtain rfl := Except.ok.inj h
    rfl
  | case2 => cases h
  | case3 i opened links t ts hopen ih =>
    rw [List.length_cons] at hsize ⊢
    simp only [List.cons_append, linkFrom, if_pos hopen]
    rw [ih h (by omega), Nat.add_right_comm, Nat.add_assoc]
    refine List.forall_mem_cons.mpr ⟨Nat.lt_succ_self i, fun b hb => ?_⟩
    exact Nat.lt_succ_of_lt (hopened b hb)
  | case4 i links t ts hopen hclose o bracket outer hpair ih =>
    obtain ⟨ho, houter⟩ := List.forall_mem_cons.mp hopened
    rw [List.length_cons] at hsize ⊢
    dsimp only at ho
    have hjoin : join (links ++ behind) o i = join links o i ++ behind :=
      join_append (by omega) (by omega) behind
    simp only [List.cons_append, linkFrom, if_neg hopen, if_pos hclose, if_pos hpair]
    rw [hjoin, ih h (by simp [join]; omega) fun b hb => Nat.lt_succ_of_lt (houter b hb),
      Nat.add_right_comm, Nat.add_assoc]
  | case5 => cases h
  | case6 => cases h
  | case7 i opened links t ts hopen hclose ih =>
    rw [List.length_cons] at hsize ⊢
    simp only [List.cons_append, linkFrom, if_neg hopen, if_neg hclose]
    rw [ih h (by omega) fun b hb => Nat.lt_succ_of_lt (hopened b hb), Nat.add_right_comm,
      Nat.add_assoc]

/-- Tokens that stand behind others, with nothing open, are linked as they are alone. -/
theorem linkFrom_below (n : Nat) (front : Array (Option Nat)) (i : Nat)
    (opened : List (Nat × Token)) (links : Array (Option Nat)) (ts : List Token) :
    linkFrom (i + front.size) (opened.map fun b => (b.1 + front.size, b.2.below n))
        (putBehind front links) (ts.map (Token.below n)) =
      ((linkFrom i opened links ts).map (putBehind front)).mapError (Fault.below n) := by
  have htext : ∀ t : Token, (t.below n).text = t.text := fun _ => rfl
  fun_induction linkFrom i opened links ts with
  | case1 => rfl
  | case2 => rfl
  | case3 i opened links t ts hopen ih =>
    rw [Nat.add_right_comm, List.map_cons] at ih
    simp only [List.map_cons, linkFrom, htext, if_pos hopen, ih]
  | case4 i links t ts hopen hclose o bracket outer hpair ih =>
    rw [Nat.add_right_comm] at ih
    simp only [List.map_cons, linkFrom, htext, if_neg hopen, if_pos hclose, if_pos hpair,
      join_putBehind, ih]
  | case5 i links t ts hopen hclose o bracket outer hpair =>
    simp only [List.map_cons, linkFrom, htext, if_neg hopen, if_pos hclose, if_neg hpair]
    rfl
  | case6 i links t ts hopen hclose =>
    simp only [List.map_cons, List.map_nil, linkFrom, htext, if_neg hopen, if_pos hclose]
    rfl
  | case7 i opened links t ts hopen hclose ih =>
    rw [Nat.add_right_comm] at ih
    simp only [List.map_cons, linkFrom, htext, if_neg hopen, if_neg hclose, ih]

/-- **Brackets that pair do not reach beyond their tokens**: what stands behind is linked as it is
alone. -/
theorem link_append {ts : Array Token} {links : Array (Option Nat)} (h : link ts = .ok links)
    (n : Nat) (us : Array Token) :
    link (ts ++ us.map (Token.below n)) =
      ((link us).map (putBehind links)).mapError (Fault.below n) := by
  have hlinks : links.size = ts.size := by
    rw [size_linkFrom h, Array.size_replicate]
  have hnone : Array.replicate (ts ++ us.map (Token.below n)).size none =
      Array.replicate ts.size none ++
        (Array.replicate us.size none).map (Option.map (· + links.size)) := by
    simp [Array.replicate_append_replicate]
  rw [link, hnone, Array.toList_append, Array.toList_map,
    linkFrom_append h (by simp) (List.forall_mem_nil _)]
  have hbelow := linkFrom_below n links 0 [] (Array.replicate us.size none) us.toList
  rw [Nat.zero_add, Array.length_toList, ← hlinks]
  rwa [Nat.zero_add] at hbelow

end Bracket

namespace Listing

theorem file_of_ofSource {file source : String} {l : Listing} (h : ofSource file source = .ok l) :
    l.file = file := by
  unfold ofSource ofTokens at h
  repeat' split at h
  · obtain rfl := Except.ok.inj h
    rfl
  · cases h
  · cases h

/-- Behind a listing, tokens make the listing that they make alone. -/
theorem ofTokens_above {l : Listing} (hlink : Bracket.link l.tokens = .ok l.links) (n : Nat)
    (us : Array Token) :
    ofTokens l.file (l.tokens ++ us.map (Token.below n)) =
      ((ofTokens l.file us).map (l.above n)).mapError (SourceFault.below n) := by
  have hsize : l.links.size = l.size := by
    rw [Bracket.size_linkFrom hlink, Array.size_replicate, size]
  rw [ofTokens, ofTokens, Bracket.link_append hlink]
  cases hus : Bracket.link us with
  | ok links =>
    have habove : l.above n ⟨l.file, us, links⟩ =
        ⟨l.file, l.tokens ++ us.map (Token.below n), Bracket.putBehind l.links links⟩ := by
      rw [above, Bracket.putBehind, hsize]
    exact congrArg Except.ok habove.symm
  | error fault =>
    cases fault <;> rfl

/-- **A line feed separates.** Below a source that has a listing and does not end with a backslash,
any text is cut and linked as it is alone: its tokens stand further down, and so does its fault, if
it has one. -/
theorem ofSource_above {file above : String} {l : Listing} (h : ofSource file above = .ok l)
    (hend : above.toList.getLast? ≠ some '\\') (below : String) :
    ofSource file (above ++ "\n" ++ below) =
      ((ofSource file below).map (l.above (above.toList.count '\n' + 1))).mapError
        (SourceFault.below (above.toList.count '\n' + 1)) := by
  obtain ⟨hscan, hlink⟩ := scan_of_ofSource h
  obtain rfl := file_of_ofSource h
  have hsuffix : ¬ ['\\'] <:+ above.toList := by
    rintro ⟨front, hfront⟩
    exact hend (List.getLast?_eq_some_iff.mpr ⟨front, hfront.symm⟩)
  have hcut := Lexeme.scan_lineFeed hscan hsuffix below.toList
  have htext : (above ++ "\n" ++ below).toList = above.toList ++ '\n' :: below.toList := by simp
  rw [Position.next_advance_start, Lexeme.scan_below, ← htext] at hcut
  unfold ofSource
  rw [hcut]
  cases Lexeme.scan .start true below.toList with
  | ok us =>
    have htokens := ofTokens_above hlink (above.toList.count '\n' + 1) us.toArray
    have harray : (l.tokens.toList ++ us.map (Token.below (above.toList.count '\n' + 1))).toArray =
        l.tokens ++ us.toArray.map (Token.below (above.toList.count '\n' + 1)) := by simp
    rw [← harray] at htokens
    exact htokens
  | error fault =>
    obtain ⟨fault, line⟩ := fault
    cases fault <;> rfl

/-- A continued directive with half a comment above, a name that would mark a literal at the seam,
and below it that literal, or another one without an end. -/
theorem ofSource_above_mark : ∃ l l',
    ofSource "a.cpp" "#if A \\\n /*\nf(1) L" = .ok l ∧
      "#if A \\\n /*\nf(1) L".toList.getLast? ≠ some '\\' ∧
      ofSource "a.cpp" "\"b\" [0] #\n#c" = .ok l' ∧
      ofSource "a.cpp" ("#if A \\\n /*\nf(1) L" ++ "\n" ++ "\"b\" [0] #\n#c") =
        .ok (l.above 3 l') ∧
      ofSource "a.cpp" ("#if A \\\n /*\nf(1) L" ++ "\n" ++ "[ 'c") =
        .error (.unterminatedLiteral "a.cpp" 4 .character) := by
  obtain ⟨l, hl⟩ := exists_ok (e := ofSource "a.cpp" "#if A \\\n /*\nf(1) L") (by decide +kernel)
  obtain ⟨l', hl'⟩ := exists_ok (e := ofSource "a.cpp" "\"b\" [0] #\n#c") (by decide +kernel)
  have hend : "#if A \\\n /*\nf(1) L".toList.getLast? ≠ some '\\' := by decide +kernel
  have hlines : "#if A \\\n /*\nf(1) L".toList.count '\n' + 1 = 3 := by decide +kernel
  have hfault : ofSource "a.cpp" "[ 'c" = .error (.unterminatedLiteral "a.cpp" 1 .character) :=
    eq_error_of_any (by decide +kernel)
  have hbelow := ofSource_above hl hend "\"b\" [0] #\n#c"
  have hfaulty := ofSource_above hl hend "[ 'c"
  rw [hlines, hl'] at hbelow
  rw [hlines, hfault] at hfaulty
  exact ⟨l, l', hl, hend, hl', hbelow, hfaulty⟩

end Listing

end StackEscape
