import StackEscape.Proofs.Text
import StackEscape.Toml.Printer
import StackEscape.Toml.Quoted

/-!
# TOML strings are read back

A text is written in the first of four forms that can hold it. Between single quotes it has to be
plain; between double quotes each character stands for itself or has an escape. In the forms with
three quotes, quotes of the text may stand right before the closing ones: no more than two stand
together, so that the closing ones are found.
-/

namespace StackEscape.Toml

/-! ## Characters -/

/-- How a character is written between double quotes: as it is, or by an escape that stands for
it. -/
inductive Writes (c : Char) : List Char → Prop
  | plain (hbackslash : c ≠ '\\') (hplain : isPlain c = true) : Writes c [c]
  | escaped {e : Char} {es : List Char} (hspace : isSpace e = false) (hend : e ≠ '\n' ∧ e ≠ '\r')
      (hread : ∀ cs, escaped? (e :: es ++ cs) = some (c, es.length + 1)) :
      Writes c ('\\' :: e :: es)

theorem escaped?_hexDigits (c : Char) (h : c.toNat < 0x10000) (cs : List Char) :
    escaped? ('u' :: (Text.hexDigits 4 c.toNat).map Char.toUpper ++ cs) = some (c, 5) := by
  have hvalid : c.toNat.isValidChar := c.valid
  have hnumber := Text.hexNumber_hexDigits Text.keepsDigits_toUpper (Nat.succ_pos 3) h cs
  change escaped?.scalar 4 ((Text.hexDigits 4 c.toNat).map Char.toUpper ++ cs) = _
  unfold escaped?.scalar
  rw [hnumber]
  simp only [hvalid, if_true, Char.ofNat_toNat]

theorem writes_escape (c : Char) : Writes c (escape c) := by
  unfold escape
  -- Five characters have an escape of their own.
  iterate 5
    split
    · next h => subst h; exact .escaped (by decide) (by decide) fun _ => rfl
  split
  · next hcontrol =>
    have hlt : c.toNat < 0x10000 := by
      simp only [isControl, Bool.or_eq_true, decide_eq_true_eq] at hcontrol
      omega
    refine .escaped (by decide) (by decide) fun cs => ?_
    rw [List.length_map, Text.length_hexDigits (by decide) hlt]
    exact escaped?_hexDigits c hlt cs
  · next hbackslash _ _ _ _ hcontrol =>
    refine .plain hbackslash ?_
    simp only [isControl, isPlain, Bool.or_eq_true, decide_eq_true_eq, Bool.and_eq_true,
      bne_iff_ne] at hcontrol ⊢
    omega

theorem writes_quote : Writes '"' ['\\', '"'] := .escaped (by decide) (by decide) fun _ => rfl

theorem writes_lineFeed : Writes '\n' ['\\', 'n'] := .escaped (by decide) (by decide) fun _ => rfl

theorem head?_escape {c : Char} (h : c ≠ '"') : (escape c).head? ≠ some '"' := by
  unfold escape
  repeat' split
  all_goals simp_all

/-! ## Between double quotes -/

theorem basicText_cons (c : Char) (cs : List Char) :
    ∃ w, Writes c w ∧ w.head? ≠ some '"' ∧ basicText (c :: cs) = w ++ basicText cs := by
  rw [basicText]
  split
  · next h => subst h; exact ⟨_, writes_quote, by decide, rfl⟩
  split
  · next h => subst h; exact ⟨_, writes_lineFeed, by decide, rfl⟩
  · next hquote _ => exact ⟨_, writes_escape c, head?_escape hquote, rfl⟩

theorem basicBody_of_writes {c : Char} {w : List Char} (h : Writes c w)
    (hquote : w.head? ≠ some '"') (cs : List Char) :
    basicBody (w ++ cs) = (basicBody cs).map fun (text, rest) => (c :: text, rest) := by
  cases h with
  | plain hbackslash hplain =>
    have hc : c ≠ '"' := by simpa using hquote
    rw [List.singleton_append, basicBody, if_neg hc, if_neg hbackslash, if_pos hplain]
  | @escaped e es hspace hend hread =>
    have hdrop : (e :: es ++ cs).drop (es.length + 1) = cs := List.drop_left' rfl
    rw [List.cons_append, basicBody, if_neg (by decide), if_pos rfl, hread]
    dsimp only
    rw [hdrop]

theorem basicBody_basicText (cs rest : List Char) :
    basicBody (basicText cs ++ '"' :: rest) = some (cs, rest) := by
  induction cs with
  | nil => rw [basicText, List.nil_append, basicBody, if_pos rfl]
  | cons c cs ih =>
    obtain ⟨w, hw, hquote, htext⟩ := basicText_cons c cs
    rw [htext, List.append_assoc, basicBody_of_writes hw hquote, ih]
    rfl

/-! ## Between single quotes -/

theorem literalBody_append {cs : List Char} (h : ∀ c ∈ cs, c ≠ '\'' ∧ isPlain c = true)
    (rest : List Char) : literalBody (cs ++ '\'' :: rest) = some (cs, rest) := by
  induction cs with
  | nil => rfl
  | cons c cs ih =>
    obtain ⟨⟨hquote, hplain⟩, hcs⟩ := List.forall_mem_cons.mp h
    rw [List.cons_append, literalBody, if_neg hquote, if_pos hplain, ih hcs]
    rfl

/-! ## Line ends -/

theorem afterLineEnd?_of_ne {c : Char} (h : c ≠ '\n' ∧ c ≠ '\r') (cs : List Char) :
    afterLineEnd? (c :: cs) = none := by
  unfold afterLineEnd?
  split
  · next heq => exact absurd (List.cons.inj heq).1 h.1
  · next heq => exact absurd (List.cons.inj heq).1 h.2
  · rfl

theorem afterLineEnd?_of_isPlain {c : Char} (h : isPlain c = true) (cs : List Char) :
    afterLineEnd? (c :: cs) = none := by
  refine afterLineEnd?_of_ne ⟨?_, ?_⟩ cs
  · rintro rfl
    exact absurd h (by decide)
  · rintro rfl
    exact absurd h (by decide)

theorem Writes.afterLineEnd?_append {c : Char} {w : List Char} (h : Writes c w) (cs : List Char) :
    afterLineEnd? (w ++ cs) = none := by
  cases h with
  | plain _ hplain => exact afterLineEnd?_of_isPlain hplain cs
  | escaped => exact afterLineEnd?_of_ne (by decide) _

/-! ## Runs of quotes -/

theorem quoteCount_cons_self (q : Char) (cs : List Char) :
    quoteCount q (q :: cs) = quoteCount q cs + 1 := by
  simp [quoteCount]

theorem quoteCount_cons_of_ne {q c : Char} (h : c ≠ q) (cs : List Char) :
    quoteCount q (c :: cs) = 0 := by
  rw [quoteCount, List.takeWhile_cons_of_neg (by simpa using h), List.length_nil]

theorem quoteCount_of_head? {q : Char} {cs : List Char} (h : cs.head? ≠ some q) :
    quoteCount q cs = 0 := by
  cases cs with
  | nil => rfl
  | cons c cs => exact quoteCount_cons_of_ne (by simpa using h) cs

theorem Writes.quoteCount_append {c : Char} {w : List Char} (h : Writes c w)
    (hquote : w.head? ≠ some '"') (cs : List Char) : quoteCount '"' (w ++ cs) = 0 := by
  refine quoteCount_of_head? ?_
  cases h <;> exact hquote

theorem quoteCount_replicate (q : Char) (k : Nat) {rest : List Char} (h : rest.head? ≠ some q) :
    quoteCount q (List.replicate k q ++ rest) = k := by
  induction k with
  | zero => exact quoteCount_of_head? h
  | succ k ih => rw [List.replicate_succ, List.cons_append, quoteCount_cons_self, ih]

theorem le_longestRun (q : Char) (n : Nat) (cs : List Char) : n ≤ longestRun q n cs := by
  induction cs generalizing n with
  | nil => exact Nat.le_refl n
  | cons c cs ih =>
    rw [longestRun]
    split
    · exact Nat.le_of_succ_le (ih (n + 1))
    · exact Nat.le_max_left _ _

theorem longestRun_mono (q : Char) {m n : Nat} (h : m ≤ n) (cs : List Char) :
    longestRun q m cs ≤ longestRun q n cs := by
  induction cs generalizing m n with
  | nil => exact h
  | cons c cs ih =>
    unfold longestRun
    split
    · exact ih (Nat.succ_le_succ h)
    · omega

/-- The longest run of the rest of a text is no longer than that of the text. -/
theorem longestRun_tail (q c : Char) (n : Nat) (cs : List Char) :
    longestRun q 0 cs ≤ longestRun q n (c :: cs) := by
  rw [longestRun]
  split
  · exact longestRun_mono q (Nat.zero_le _) cs
  · omega

theorem not_mem_of_longestRun {q : Char} {cs : List Char} (h : longestRun q 0 cs = 0) :
    q ∉ cs := by
  induction cs with
  | nil => exact List.not_mem_nil
  | cons c cs ih =>
    have htail := longestRun_tail q c 0 cs
    rw [List.mem_cons]
    rintro (rfl | hmem)
    · have hrun := le_longestRun q (0 + 1) cs
      rw [longestRun, if_pos rfl] at h
      omega
    · exact ih (by omega) hmem

/-- A text is a short run of quotes; or its own characters end the run at its front, whatever stands
behind it. -/
theorem replicate_or_quoteCount_le (q : Char) (n : Nat) (cs : List Char) :
    (∃ k, cs = List.replicate k q ∧ n + k ≤ longestRun q n cs) ∨
      ∀ rest, n + quoteCount q (cs ++ rest) ≤ longestRun q n cs := by
  induction cs generalizing n with
  | nil => exact .inl ⟨0, rfl, Nat.le_refl n⟩
  | cons c cs ih =>
    by_cases hc : c = q
    · subst hc
      rw [longestRun, if_pos rfl]
      rcases ih (n + 1) with ⟨k, hk, hle⟩ | hle
      · exact .inl ⟨k + 1, by rw [hk]; rfl, by omega⟩
      · refine .inr fun rest => ?_
        have := hle rest
        rw [List.cons_append, quoteCount_cons_self]
        omega
    · refine .inr fun rest => ?_
      rw [List.cons_append, quoteCount_cons_of_ne hc]
      exact le_longestRun q n (c :: cs)

/-- The quotes that close a text, with up to two quotes of the text right before them. -/
theorem closing_quotes (q : Char) {k : Nat} (hk : k ≤ 2) {rest : List Char}
    (hrest : rest.head? ≠ some q) :
    ∃ cs, List.replicate k q ++ ([q, q, q] ++ rest) = q :: cs ∧
      quoteCount q (q :: cs) = k + 3 ∧ (q :: cs).drop (min (k + 3) 5) = rest := by
  have htext : List.replicate k q ++ ([q, q, q] ++ rest) = List.replicate (k + 3) q ++ rest := by
    rw [← List.append_assoc, ← List.replicate_append_replicate]
    rfl
  have hcount := quoteCount_replicate q (k + 3) hrest
  have hdrop : (List.replicate (k + 3) q ++ rest).drop (k + 3) = rest :=
    List.drop_left' List.length_replicate
  refine ⟨List.replicate (k + 2) q ++ rest, htext, hcount, ?_⟩
  rw [Nat.min_eq_left (by omega)]
  exact hdrop

/-! ## Between three single quotes -/

theorem longLiteralBody_close {k : Nat} (hk : k ≤ 2) {rest : List Char}
    (hrest : rest.head? ≠ some '\'') :
    longLiteralBody (List.replicate k '\'' ++ (['\'', '\'', '\''] ++ rest)) =
      some (List.replicate k '\'', rest) := by
  obtain ⟨cs, htext, hcount, hdrop⟩ := closing_quotes '\'' hk hrest
  rw [htext, longLiteralBody, if_pos rfl]
  dsimp only
  rw [hcount, if_pos (by omega), hdrop, Nat.min_eq_left (by omega), Nat.add_sub_cancel]

theorem longLiteralBody_of_isPlain {c : Char} (hquote : c ≠ '\'') (hplain : isPlain c = true)
    (cs : List Char) : longLiteralBody (c :: cs) =
      (longLiteralBody cs).map fun (text, rest) => (c :: text, rest) := by
  rw [longLiteralBody, if_neg hquote]
  split
  · next heq => exact absurd heq (by simp [afterLineEnd?_of_isPlain hplain])
  · exact if_pos hplain

theorem longLiteralBody_lineFeed (cs : List Char) : longLiteralBody ('\n' :: cs) =
    (longLiteralBody cs).map fun (text, rest) => ('\n' :: text, rest) := by
  rw [longLiteralBody, if_neg (by decide)]
  rfl

theorem longLiteralBody_append {cs : List Char} (hplain : ∀ c ∈ cs, isPlain c = true ∨ c = '\n')
    (hrun : longestRun '\'' 0 cs ≤ 2) {rest : List Char} (hrest : rest.head? ≠ some '\'') :
    longLiteralBody (cs ++ (['\'', '\'', '\''] ++ rest)) = some (cs, rest) := by
  induction cs with
  | nil => exact longLiteralBody_close (Nat.zero_le 2) hrest
  | cons c cs ih =>
    obtain ⟨hc, hcs⟩ := List.forall_mem_cons.mp hplain
    have ih := ih hcs (Nat.le_trans (longestRun_tail '\'' c 0 cs) hrun)
    rcases replicate_or_quoteCount_le '\'' 0 (c :: cs) with ⟨k, hk, hle⟩ | hle
    · rw [hk] at hle hrun ⊢
      exact longLiteralBody_close (by omega) hrest
    have hcount := hle (['\'', '\'', '\''] ++ rest)
    rw [List.cons_append] at hcount ⊢
    by_cases hquote : c = '\''
    · subst hquote
      rw [longLiteralBody, if_pos rfl]
      dsimp only
      rw [if_neg (by omega), ih]
      rfl
    rcases hc with hc | rfl
    · rw [longLiteralBody_of_isPlain hquote hc, ih]
      rfl
    · rw [longLiteralBody_lineFeed, ih]
      rfl

/-! ## Between three double quotes -/

theorem longBasicBody_close {k : Nat} (hk : k ≤ 2) {rest : List Char}
    (hrest : rest.head? ≠ some '"') :
    longBasicBody (List.replicate k '"' ++ (['"', '"', '"'] ++ rest)) =
      some (List.replicate k '"', rest) := by
  obtain ⟨cs, htext, hcount, hdrop⟩ := closing_quotes '"' hk hrest
  rw [htext, longBasicBody, if_pos rfl]
  dsimp only
  rw [hcount, if_pos (by omega), hdrop, Nat.min_eq_left (by omega), Nat.add_sub_cancel]

theorem longBasicBody_of_writes {c : Char} {w : List Char} (h : Writes c w)
    (hquote : w.head? ≠ some '"') (cs : List Char) :
    longBasicBody (w ++ cs) = (longBasicBody cs).map fun (text, rest) => (c :: text, rest) := by
  cases h with
  | plain hbackslash hplain =>
    have hc : c ≠ '"' := by simpa using hquote
    rw [List.singleton_append, longBasicBody, if_neg hc, if_neg hbackslash]
    split
    · next heq => exact absurd heq (by simp [afterLineEnd?_of_isPlain hplain])
    · exact if_pos hplain
  | @escaped e es hspace hend hread =>
    have hdrop : (e :: es ++ cs).drop (es.length + 1) = cs := List.drop_left' rfl
    have hcontinuation : afterContinuation? (e :: es ++ cs) = none := by
      rw [afterContinuation?, List.cons_append, List.dropWhile_cons_of_neg (by simp [hspace]),
        afterLineEnd?_of_ne hend]
      rfl
    rw [List.cons_append, longBasicBody, if_neg (by decide), if_pos rfl]
    split
    · next heq => rw [hcontinuation] at heq; cases heq
    · rw [hread]
      dsimp only
      rw [hdrop]

theorem longBasicBody_lineFeed (cs : List Char) : longBasicBody ('\n' :: cs) =
    (longBasicBody cs).map fun (text, rest) => ('\n' :: text, rest) := by
  rw [longBasicBody, if_neg (by decide), if_neg (by decide)]
  rfl

/-- A character is written as a quote, as a line end, or by what stands for it. -/
theorem longBasicText_cons (run : Nat) (c : Char) (cs : List Char) :
    (c = '"' ∧ run < 2 ∧ longBasicText run (c :: cs) = '"' :: longBasicText (run + 1) cs) ∨
    (c = '\n' ∧ longBasicText run (c :: cs) = '\n' :: longBasicText 0 cs) ∨
    ∃ w, Writes c w ∧ w.head? ≠ some '"' ∧
      longBasicText run (c :: cs) = w ++ longBasicText 0 cs := by
  rw [longBasicText]
  split
  · next h =>
    subst h
    split
    · next hlt => exact .inl ⟨rfl, hlt, rfl⟩
    · exact .inr (.inr ⟨_, writes_quote, by decide, rfl⟩)
  split
  · next h => exact .inr (.inl ⟨h, rfl⟩)
  · next hquote _ => exact .inr (.inr ⟨_, writes_escape c, head?_escape hquote, rfl⟩)

/-- The text that is written is a short run of quotes; or it ends the run at its front, whatever
stands behind it. -/
theorem longBasicText_quotes {run : Nat} (h : run ≤ 2) (cs : List Char) :
    (∃ k, cs = List.replicate k '"' ∧ longBasicText run cs = List.replicate k '"' ∧ run + k ≤ 2) ∨
      ∀ rest, run + quoteCount '"' (longBasicText run cs ++ rest) ≤ 2 := by
  induction cs generalizing run with
  | nil => exact .inl ⟨0, rfl, rfl, h⟩
  | cons c cs ih =>
    rcases longBasicText_cons run c cs with ⟨rfl, hlt, htext⟩ | ⟨-, htext⟩ | ⟨w, hw, hquote, htext⟩
    · rw [htext]
      rcases ih (by omega : run + 1 ≤ 2) with ⟨k, hk, hwritten, hle⟩ | hle
      · exact .inl ⟨k + 1, by rw [hk]; rfl, by rw [hwritten]; rfl, by omega⟩
      · refine .inr fun rest => ?_
        have := hle rest
        rw [List.cons_append, quoteCount_cons_self]
        omega
    · refine .inr fun rest => ?_
      rw [htext, List.cons_append, quoteCount_cons_of_ne (by decide)]
      exact h
    · refine .inr fun rest => ?_
      rw [htext, List.append_assoc, hw.quoteCount_append hquote]
      exact h

theorem longBasicBody_longBasicText {run : Nat} (h : run ≤ 2) (cs : List Char) {rest : List Char}
    (hrest : rest.head? ≠ some '"') :
    longBasicBody (longBasicText run cs ++ (['"', '"', '"'] ++ rest)) = some (cs, rest) := by
  induction cs generalizing run with
  | nil => exact longBasicBody_close (Nat.zero_le 2) hrest
  | cons c cs ih =>
    rcases longBasicText_quotes h (c :: cs) with ⟨k, hk, htext, hle⟩ | hle
    · rw [htext, hk]
      exact longBasicBody_close (by omega) hrest
    rcases longBasicText_cons run c cs with
      ⟨rfl, hlt, htext⟩ | ⟨rfl, htext⟩ | ⟨w, hw, hquote, htext⟩
    · have hcount := hle (['"', '"', '"'] ++ rest)
      rw [htext, List.cons_append] at hcount ⊢
      rw [longBasicBody, if_pos rfl]
      dsimp only
      rw [if_neg (by omega), ih (Nat.succ_le_of_lt hlt)]
      rfl
    · rw [htext, List.cons_append, longBasicBody_lineFeed, ih (Nat.zero_le 2)]
      rfl
    · rw [htext, List.append_assoc, longBasicBody_of_writes hw hquote, ih (Nat.zero_le 2)]
      rfl

/-! ## All four forms -/

theorem isPlain_of_features {cs : List Char} (h : (features cs).controls = false) :
    ∀ c ∈ cs, isPlain c = true ∨ c = '\n' := by
  intro c hc
  have hcontrol := List.any_eq_false.mp h c hc
  by_cases htab : c = '\t'
  · exact .inl (by rw [htab]; rfl)
  by_cases hline : c = '\n'
  · exact .inr hline
  simpa [isControl, isPlain, htab, hline] using hcontrol

theorem lineFeed_of_features {cs : List Char} (h : (features cs).lineEnd = false) : '\n' ∉ cs := by
  simpa [features] using h

/-- A text after whose opening quote no two more stand is on one line. -/
theorem anyString_of_quoteCount {q : Char} {cs : List Char} (h : quoteCount q cs < 2) :
    anyString (q :: cs) = shortString (q :: cs) := by
  have hne : ∀ tail, cs ≠ q :: q :: tail := by
    rintro tail rfl
    simp only [quoteCount_cons_self] at h
    omega
  unfold anyString
  split
  · next heq =>
    obtain ⟨rfl, htail⟩ := List.cons.inj heq
    exact absurd htail (hne _)
  · next heq =>
    obtain ⟨rfl, htail⟩ := List.cons.inj heq
    exact absurd htail (hne _)
  · rfl

variable {rest : List Char}

theorem anyString_basic (cs : List Char) (h : rest.head? ≠ some '"') :
    anyString (enclose ['"'] false (basicText cs) ++ rest) = some (String.ofList cs, rest) := by
  have htext : enclose ['"'] false (basicText cs) ++ rest =
      '"' :: (basicText cs ++ '"' :: rest) := by
    simp [enclose]
  have hcount : quoteCount '"' (basicText cs ++ '"' :: rest) < 2 := by
    cases cs with
    | nil =>
      rw [basicText, List.nil_append, quoteCount_cons_self, quoteCount_of_head? h]
      decide
    | cons c cs =>
      obtain ⟨w, hw, hquote, htext⟩ := basicText_cons c cs
      rw [htext, List.append_assoc, hw.quoteCount_append hquote]
      decide
  rw [htext, anyString_of_quoteCount hcount, shortString, basicBody_basicText]
  rfl

theorem anyString_literal {cs : List Char} (hplain : ∀ c ∈ cs, c ≠ '\'' ∧ isPlain c = true)
    (h : rest.head? ≠ some '\'') :
    anyString (enclose ['\''] false cs ++ rest) = some (String.ofList cs, rest) := by
  have htext : enclose ['\''] false cs ++ rest = '\'' :: (cs ++ '\'' :: rest) := by
    simp [enclose]
  have hcount : quoteCount '\'' (cs ++ '\'' :: rest) < 2 := by
    cases cs with
    | nil =>
      rw [List.nil_append, quoteCount_cons_self, quoteCount_of_head? h]
      decide
    | cons c cs =>
      rw [List.cons_append, quoteCount_cons_of_ne (hplain c List.mem_cons_self).1]
      decide
  rw [htext, anyString_of_quoteCount hcount, shortString, literalBody_append hplain]
  rfl

/-- A text of several lines begins behind the first line end, and one of a single line at once. -/
theorem skipFirstLineEnd_append {lineEnd : Bool} {cs : List Char}
    (h : lineEnd = false → afterLineEnd? cs = none) :
    skipFirstLineEnd ((if lineEnd then ['\n'] else []) ++ cs) = cs := by
  cases lineEnd with
  | true => rfl
  | false =>
    rw [if_neg (by decide), List.nil_append, skipFirstLineEnd, h rfl]
    rfl

theorem anyString_longBasic {cs : List Char} {lineEnd : Bool} (hline : lineEnd = false → '\n' ∉ cs)
    (h : rest.head? ≠ some '"') :
    anyString (enclose ['"', '"', '"'] lineEnd (longBasicText 0 cs) ++ rest) =
      some (String.ofList cs, rest) := by
  have hfirst : lineEnd = false →
      afterLineEnd? (longBasicText 0 cs ++ (['"', '"', '"'] ++ rest)) = none := by
    intro hend
    cases cs with
    | nil => rfl
    | cons c cs =>
      rcases longBasicText_cons 0 c cs with ⟨-, -, htext⟩ | ⟨rfl, -⟩ | ⟨w, hw, -, htext⟩
      · rw [htext]
        exact afterLineEnd?_of_ne (by decide) _
      · exact absurd List.mem_cons_self (hline hend)
      · rw [htext, List.append_assoc]
        exact hw.afterLineEnd?_append _
  have hskip := skipFirstLineEnd_append hfirst
  have hbody := longBasicBody_longBasicText (Nat.zero_le 2) cs h
  simp only [enclose, List.append_assoc, List.cons_append, List.nil_append] at hskip hbody ⊢
  rw [anyString, hskip, hbody]
  rfl

theorem anyString_longLiteral {cs : List Char} {lineEnd : Bool}
    (hline : lineEnd = false → '\n' ∉ cs) (hplain : ∀ c ∈ cs, isPlain c = true ∨ c = '\n')
    (hrun : longestRun '\'' 0 cs ≤ 2) (h : rest.head? ≠ some '\'') :
    anyString (enclose ['\'', '\'', '\''] lineEnd cs ++ rest) = some (String.ofList cs, rest) := by
  have hfirst : lineEnd = false → afterLineEnd? (cs ++ (['\'', '\'', '\''] ++ rest)) = none := by
    intro hend
    cases cs with
    | nil => rfl
    | cons c cs =>
      rcases hplain c List.mem_cons_self with hc | rfl
      · exact afterLineEnd?_of_isPlain hc _
      · exact absurd List.mem_cons_self (hline hend)
  have hskip := skipFirstLineEnd_append hfirst
  have hbody := longLiteralBody_append hplain hrun h
  simp only [enclose, List.append_assoc, List.cons_append, List.nil_append] at hskip hbody ⊢
  rw [anyString, hskip, hbody]
  rfl

/-- **A text that is written with quotes is read back**, whatever it is. -/
theorem anyString_quoted (cs : List Char) (hsingle : rest.head? ≠ some '\'')
    (hdouble : rest.head? ≠ some '"') :
    anyString (quoted cs ++ rest) = some (String.ofList cs, rest) := by
  unfold quoted
  dsimp only
  split
  · exact anyString_basic cs hdouble
  split
  · next h =>
    simp only [Bool.and_eq_true, Bool.not_eq_true', decide_eq_true_eq] at h
    obtain ⟨⟨hcontrols, hsingles⟩, hend⟩ := h
    refine anyString_literal (fun c hc => ⟨?_, ?_⟩) hsingle
    · rintro rfl
      exact not_mem_of_longestRun hsingles hc
    · refine (isPlain_of_features hcontrols c hc).resolve_right ?_
      rintro rfl
      exact lineFeed_of_features hend hc
  split
  · exact anyString_longBasic lineFeed_of_features hdouble
  split
  · next h =>
    simp only [Bool.and_eq_true, Bool.not_eq_true', decide_eq_true_eq] at h
    exact anyString_longLiteral lineFeed_of_features (isPlain_of_features h.1) h.2 hsingle
  split
  · exact anyString_longBasic (fun h => nomatch h) hdouble
  · exact anyString_basic cs hdouble

end StackEscape.Toml
