import StackEscape.Json.Parser
import StackEscape.Json.Printer
import StackEscape.Proofs.Text

/-!
# JSON is read back as it was written

A value whose strings are texts and whose numbers are natural is what its text is read as. A string
is read back because each of its characters is, and a list because each of its items is.
-/

namespace StackEscape.Json

open Text (iterate ItemText Round Reader)

/-! ## Strings -/

theorem units_of_escaped {cs : List Char} {n taken : Nat} (h : escaped? cs = some (n, taken)) :
    units ('\\' :: cs) = (units (cs.drop taken)).map fun (ns, rest) => (n :: ns, rest) := by
  rw [units, if_neg (by decide), if_pos rfl, h]

theorem units_of_plain {c : Char} (hquote : c ≠ '"') (hbackslash : c ≠ '\\')
    (hcontrol : ¬ c.toNat < 0x20) (cs : List Char) :
    units (c :: cs) = (units cs).map fun (ns, rest) => (c.toNat :: ns, rest) := by
  rw [units, if_neg hquote, if_neg hbackslash, if_neg hcontrol]

/-- The characters behind a backslash that stand for one other character. -/
def shortEscapes : List (Char × Nat) :=
  [('"', 0x22), ('\\', 0x5C), ('b', 0x08), ('t', 0x09), ('n', 0x0A), ('f', 0x0C), ('r', 0x0D)]

theorem escaped?_short {e : Char} {n : Nat} (h : (e, n) ∈ shortEscapes) (cs : List Char) :
    escaped? (e :: cs) = some (n, 1) := by
  simp only [shortEscapes, List.mem_cons, Prod.mk.injEq, List.not_mem_nil, or_false] at h
  rcases h with h | h | h | h | h | h | h <;> (obtain ⟨rfl, rfl⟩ := h; rfl)

theorem escaped?_hexDigits {n : Nat} (h : n < 0x10000) (cs : List Char) :
    escaped? ('u' :: Text.hexDigits 4 n ++ cs) = some (n, 5) := by
  have hnumber : Text.hexNumber 4 (Text.hexDigits 4 n ++ cs) = some (n, cs) := by
    have hdigits := Text.hexNumber_hexDigits Text.keepsDigits_id (Nat.succ_pos 3) h cs
    rwa [List.map_id] at hdigits
  change (Text.hexNumber 4 (Text.hexDigits 4 n ++ cs)).map _ = _
  rw [hnumber]
  rfl

/-- What is written for a character is read as that character. -/
theorem units_escape (c : Char) (cs : List Char) :
    units (escape c.toNat ++ cs) = (units cs).map fun (ns, rest) => (c.toNat :: ns, rest) := by
  have hvalid : c.toNat.isValidChar := c.valid
  unfold escape
  -- Seven characters have an escape of their own.
  iterate 7
    split
    · next h => rw [h]; exact units_of_escaped (escaped?_short (by decide) cs)
  split
  · next h =>
    have hcontrol : c.toNat < 0x20 := h.resolve_right (not_not_intro hvalid)
    have hlt : c.toNat < 0x10000 := Nat.lt_trans hcontrol (by decide)
    have hlength : (Text.hexDigits 4 c.toNat).length = 4 := Text.length_hexDigits (by decide) hlt
    have hdrop : ('u' :: Text.hexDigits 4 c.toNat ++ cs).drop 5 = cs :=
      List.drop_left' (by rw [List.length_cons, hlength])
    rw [List.cons_append, units_of_escaped (escaped?_hexDigits hlt cs), hdrop]
  · next hquote hbackslash _ _ _ _ _ h =>
    rw [Char.ofNat_toNat]
    refine units_of_plain ?_ ?_ (fun hlt => h (.inl hlt)) cs
    · rintro rfl; exact hquote rfl
    · rintro rfl; exact hbackslash rfl

/-- No character is half of a surrogate pair. -/
theorem isHighSurrogate_toNat (c : Char) : isHighSurrogate c.toNat = false := by
  have hvalid : c.toNat.isValidChar := c.valid
  unfold Nat.isValidChar at hvalid
  simp only [isHighSurrogate, Bool.and_eq_false_iff, decide_eq_false_iff_not]
  omega

theorem joinSurrogates_toNat (cs : List Char) :
    joinSurrogates (cs.map Char.toNat) = cs.map Char.toNat := by
  induction cs with
  | nil => rfl
  | cons c cs ih =>
    cases cs with
    | nil => rfl
    | cons d cs =>
      rw [List.map_cons] at ih ⊢
      rw [List.map_cons, joinSurrogates, isHighSurrogate_toNat, Bool.false_and,
        if_neg (by decide), ih]

theorem units_flatMap_escape (cs rest : List Char) :
    units ((cs.map Char.toNat).flatMap escape ++ '"' :: rest) = some (cs.map Char.toNat, rest) := by
  induction cs with
  | nil => rw [List.map_nil, List.flatMap_nil, List.nil_append, units, if_pos rfl]
  | cons c cs ih =>
    rw [List.map_cons, List.flatMap_cons, List.append_assoc, units_escape, ih]
    rfl

/-- A text is read back from behind its opening quote. -/
theorem stringBody_codePoints (s : String) (rest : List Char) :
    stringBody ((codePoints s).flatMap escape ++ '"' :: rest) = some (codePoints s, rest) := by
  have hjoin := joinSurrogates_toNat s.toList
  rw [stringBody, codePoints, units_flatMap_escape, Option.map_some]
  exact congrArg (fun ns => some (ns, rest)) hjoin

/-! ## Numbers -/

def EndsNumber (rest : List Char) : Prop :=
  ∀ c ∈ rest.head?, c.isDigit = false ∧ c ≠ '.' ∧ c ≠ 'e' ∧ c ≠ 'E'

theorem digits_append {ds rest : List Char} (hds : ∀ c ∈ ds, c.isDigit = true) (hne : ds ≠ [])
    (hrest : ∀ c ∈ rest.head?, c.isDigit = false) : digits (ds ++ rest) = some (ds, rest) := by
  have hend : rest.takeWhile Char.isDigit = [] := by
    cases rest with
    | nil => rfl
    | cons c cs => exact List.takeWhile_cons_of_neg (by simpa using hrest c rfl)
  have htake : (ds ++ rest).takeWhile Char.isDigit = ds := by
    rw [List.takeWhile_append_of_pos hds, hend, List.append_nil]
  unfold digits
  rw [htake]
  cases ds with
  | nil => exact absurd rfl hne
  | cons d ds => simp

/-- Only zero is written with a zero in front. -/
theorem eq_zero_of_toDigits {n : Nat} {ds : List Char} (h : Nat.toDigits 10 n = '0' :: ds) :
    n = 0 := by
  induction n using Nat.strongRecOn generalizing ds with
  | ind n ih =>
    rw [Nat.toDigits_eq_if (by decide)] at h
    split at h
    · exact Nat.digitChar_eq_zero.mp (List.cons.inj h).1
    · next hn =>
      cases hfront : Nat.toDigits 10 (n / 10) with
      | nil => exact absurd hfront Nat.toDigits_ne_nil
      | cons c cs =>
        rw [hfront, List.cons_append] at h
        rw [(List.cons.inj h).1] at hfront
        have := ih (n / 10) (by omega) hfront
        omega

theorem isDigit_of_mem_toDigits {n : Nat} {c : Char} (h : c ∈ Nat.toDigits 10 n) :
    c.isDigit = true := Nat.isDigit_of_mem_toDigits (by decide) (by decide) h

theorem wholePart_toDigits (n : Nat) {rest : List Char} (hrest : EndsNumber rest) :
    wholePart (Nat.toDigits 10 n ++ rest) = some (Nat.toDigits 10 n, rest) := by
  have hdigits : digits (Nat.toDigits 10 n ++ rest) = some (Nat.toDigits 10 n, rest) :=
    digits_append (fun _ => isDigit_of_mem_toDigits) Nat.toDigits_ne_nil
      fun c hc => (hrest c hc).1
  unfold wholePart
  split
  · next cs heq =>
    cases hn : Nat.toDigits 10 n with
    | nil => exact absurd hn Nat.toDigits_ne_nil
    | cons c ds =>
      rw [hn] at heq
      obtain ⟨rfl, hcs⟩ := List.cons.inj heq
      obtain rfl := eq_zero_of_toDigits hn
      obtain rfl := (List.cons.inj hn).2
      rw [← hcs]
      rfl
  · exact hdigits

theorem fractionPart_of_endsNumber {rest : List Char} (hrest : EndsNumber rest) :
    fractionPart rest = some ([], rest) := by
  unfold fractionPart
  split
  · exact absurd rfl (hrest _ rfl).2.1
  · rfl

theorem exponentPart_of_endsNumber {rest : List Char} (hrest : EndsNumber rest) :
    exponentPart rest = some ([], rest) := by
  cases rest with
  | nil => rfl
  | cons c cs =>
    obtain ⟨-, -, he, hE⟩ := hrest c rfl
    unfold exponentPart
    exact if_neg (by simp [he, hE])

theorem exists_toDigits (n : Nat) : ∃ c ds, Nat.toDigits 10 n = c :: ds ∧ c.isDigit = true := by
  cases h : Nat.toDigits 10 n with
  | nil => exact absurd h Nat.toDigits_ne_nil
  | cons c ds => exact ⟨c, ds, rfl, isDigit_of_mem_toDigits (h ▸ List.mem_cons_self)⟩

/-- A natural number is read back. -/
theorem numberLiteral_toDigits (n : Nat) {rest : List Char} (hrest : EndsNumber rest) :
    numberLiteral (Nat.toDigits 10 n ++ rest) = some (Nat.toDigits 10 n, rest) := by
  obtain ⟨c, ds, hc, hdigit⟩ := exists_toDigits n
  unfold numberLiteral
  split
  next sign cs heq =>
    split at heq
    · next hminus =>
      rw [hc, List.cons_append] at hminus
      rw [(List.cons.inj hminus).1] at hdigit
      exact absurd hdigit (by decide)
    · obtain ⟨rfl, rfl⟩ := Prod.mk.inj heq
      simp [wholePart_toDigits n hrest, fractionPart_of_endsNumber hrest,
        exponentPart_of_endsNumber hrest]

theorem endsNumber_comma (rest : List Char) : EndsNumber (',' :: rest) := by
  rintro _ ⟨⟩
  decide

theorem endsNumber_newLine (depth : Nat) (rest : List Char) :
    EndsNumber (newLine depth ++ rest) := by
  rintro _ ⟨⟩
  decide

/-! ## Blanks -/

/-- Blanks that may stand in front of a value. -/
def Blank (lead : List Char) : Prop := ∀ c ∈ lead, isSpace c = true

theorem blank_nil : Blank [] := fun _ h => (nomatch h)

theorem blank_newLine (depth : Nat) : Blank (newLine depth) := by
  intro c h
  rcases List.mem_cons.mp h with rfl | h
  · decide
  · rw [List.eq_of_mem_replicate h]
    decide

theorem skipSpace_append {lead : List Char} (h : Blank lead) (cs : List Char) :
    skipSpace (lead ++ cs) = skipSpace cs := List.dropWhile_append_of_pos h

theorem skipSpace_of_head {c : Char} (h : isSpace c = false) (cs : List Char) :
    skipSpace (c :: cs) = c :: cs := List.dropWhile_cons_of_neg (by simp [h])

theorem skipSpace_newLine (depth : Nat) {c : Char} (h : isSpace c = false) (cs : List Char) :
    skipSpace (newLine depth ++ c :: cs) = c :: cs := by
  rw [skipSpace_append (blank_newLine depth), skipSpace_of_head h]

/-! ## Values -/

/-- Values whose strings are texts and whose numbers are natural. -/
inductive Textual : Json → Prop
  | null : Textual .null
  | bool (b : Bool) : Textual (.bool b)
  | natural (n : Nat) : Textual (ofNat n)
  | text (s : String) : Textual (ofString s)
  | array {es : List Json} (h : ∀ e ∈ es, Textual e) : Textual (.array es)
  | object {ms : List (List Nat × Json)} (hnames : ∀ m ∈ ms, ∃ s, m.1 = codePoints s)
      (hvalues : ∀ m ∈ ms, Textual m.2) : Textual (.object ms)

/-- The first character of a value is no blank and closes nothing. -/
theorem exists_pretty {v : Json} (hv : Textual v) (depth : Nat) :
    ∃ c cs, pretty depth v = c :: cs ∧ isSpace c = false ∧ c ≠ ']' := by
  cases hv with
  | null => exact ⟨_, _, rfl, by decide⟩
  | bool b => cases b <;> exact ⟨_, _, rfl, by decide⟩
  | natural n =>
    obtain ⟨c, ds, hc, hdigit⟩ := exists_toDigits n
    refine ⟨c, ds, hc, ?_, ?_⟩
    · simp only [isSpace, Bool.or_eq_false_iff, decide_eq_false_iff_not]
      refine ⟨⟨⟨?_, ?_⟩, ?_⟩, ?_⟩ <;> (rintro rfl; exact absurd hdigit (by decide))
    · rintro rfl; exact absurd hdigit (by decide)
  | text s => exact ⟨_, _, rfl, by decide⟩
  | @array es h => cases es <;> exact ⟨_, _, rfl, by decide⟩
  | @object ms hnames hvalues => cases ms <;> exact ⟨_, _, rfl, by decide⟩

theorem skipSpace_pretty {v : Json} (hv : Textual v) (depth : Nat) (rest : List Char) :
    skipSpace (pretty depth v ++ rest) = pretty depth v ++ rest := by
  obtain ⟨c, cs, hc, hspace, -⟩ := exists_pretty hv depth
  rw [hc, List.cons_append, skipSpace_of_head hspace]

/-- What is written for a value is read as that value, nested as deep as `fuel` admits. -/
def ReadsBack (fuel depth : Nat) (v : Json) : Prop :=
  ∀ rest, EndsNumber rest → value fuel (pretty depth v ++ rest) = some (v, rest)

/-- No other value begins with a digit. -/
theorem value_of_isDigit {c : Char} (h : c.isDigit = true) (fuel : Nat) (cs : List Char) :
    value (fuel + 1) (c :: cs) =
      (numberLiteral (c :: cs)).map fun (n, rest) => (.number n, rest) := by
  unfold value
  split
  case h_7 => rfl
  all_goals
    next heq =>
      rw [(List.cons.inj heq).1] at h
      exact absurd h (by decide)

theorem readsBack_natural (fuel depth n : Nat) : ReadsBack (fuel + 1) depth (ofNat n) := by
  intro rest hrest
  obtain ⟨c, ds, hc, hdigit⟩ := exists_toDigits n
  have hnumber := numberLiteral_toDigits n hrest
  change value (fuel + 1) (Nat.toDigits 10 n ++ rest) = _
  rw [hc, List.cons_append] at hnumber ⊢
  rw [value_of_isDigit hdigit, hnumber, ← hc]
  rfl

theorem readsBack_text (fuel depth : Nat) (s : String) :
    ReadsBack (fuel + 1) depth (ofString s) := by
  intro rest _
  have hbody := stringBody_codePoints s rest
  change (stringBody ((codePoints s).flatMap escape ++ ['"'] ++ rest)).map _ = _
  rw [List.append_assoc, List.singleton_append, hbody]
  rfl

/-! ## Arrays -/

theorem prettyElements_eq (depth : Nat) (es : List Json) :
    prettyElements depth es = es.flatMap fun e => ',' :: (newLine depth ++ pretty depth e) := by
  induction es with
  | nil => rfl
  | cons e es ih => rw [prettyElements, ih, List.flatMap_cons]; rfl

def elementsRound (value : Reader Json) (read : List Json) :
    Reader (Round (List Json) (List Json)) := fun cs => do
  let (e, cs) ← value (skipSpace cs)
  match skipSpace cs with
  | ',' :: cs => some (.more (e :: read), cs)
  | ']' :: cs => some (.done (e :: read).reverse, cs)
  | _ => none

theorem itemText_element {fuel depth outer : Nat} {v : Json} (hv : Textual v)
    (h : ReadsBack fuel depth v) {lead : List Char} (hlead : Blank lead) :
    ItemText (elementsRound (value fuel)) (newLine outer ++ [']']) (lead ++ pretty depth v) v := by
  constructor
  · intro read rest
    have hvalue := h (',' :: rest) (endsNumber_comma rest)
    rw [elementsRound, List.append_assoc, skipSpace_append hlead, skipSpace_pretty hv, hvalue]
    rfl
  · intro read rest
    have hvalue := h (newLine outer ++ ']' :: rest) (endsNumber_newLine outer _)
    have hclose : skipSpace (newLine outer ++ ']' :: rest) = ']' :: rest :=
      skipSpace_newLine outer (by decide) rest
    have htext : lead ++ pretty depth v ++ (newLine outer ++ [']']) ++ rest =
        lead ++ (pretty depth v ++ (newLine outer ++ ']' :: rest)) := by
      simp only [List.append_assoc, List.singleton_append]
    rw [elementsRound, htext, skipSpace_append hlead, skipSpace_pretty hv, hvalue]
    simp [hclose]

theorem arrayBody_of_skipSpace {value : Reader Json} {text items : List Char}
    (hitems : skipSpace text = items) (hopen : ∀ cs, items ≠ ']' :: cs) :
    arrayBody value text = (elements value items).map fun (es, rest) => (.array es, rest) := by
  unfold arrayBody
  rw [hitems]
  split
  · next heq => exact absurd rfl (hopen _)
  · rfl

theorem readsBack_array {fuel depth : Nat} {es : List Json} (hes : ∀ e ∈ es, Textual e)
    (h : ∀ e ∈ es, ReadsBack fuel (depth + 1) e) : ReadsBack (fuel + 1) depth (.array es) := by
  intro rest _
  cases es with
  | nil => rfl
  | cons e es =>
    obtain ⟨he, hes⟩ := List.forall_mem_cons.mp hes
    obtain ⟨hread, hreads⟩ := List.forall_mem_cons.mp h
    let items := pretty (depth + 1) e ++
      es.flatMap (fun e => ',' :: (newLine (depth + 1) ++ pretty (depth + 1) e)) ++
      (newLine depth ++ [']']) ++ rest
    have htext : pretty depth (.array (e :: es)) ++ rest =
        '[' :: (newLine (depth + 1) ++ items) := by
      simp only [items, pretty, prettyElements_eq, List.cons_append, List.append_assoc]
    have hskip : skipSpace (newLine (depth + 1) ++ items) = items := by
      rw [skipSpace_append (blank_newLine (depth + 1))]
      simp only [items, List.append_assoc]
      exact skipSpace_pretty he _ _
    have hopen : ∀ cs, items ≠ ']' :: cs := by
      obtain ⟨c, cs, hc, -, hclose⟩ := exists_pretty he (depth + 1)
      intro cs' heq
      simp only [items, hc, List.cons_append] at heq
      exact hclose (List.cons.inj heq).1
    have hloop : elements (value fuel) items = some (e :: es, rest) :=
      Text.iterate_items (itemText_element he hread blank_nil)
        (fun x hx => itemText_element (hes x hx) (hreads x hx) (blank_newLine _))
        [] rest
    rw [htext]
    change arrayBody (value fuel) _ = _
    rw [arrayBody_of_skipSpace hskip hopen, hloop]
    rfl

/-! ## Objects -/

def prettyMember (depth : Nat) (m : List Nat × Json) : List Char :=
  quote m.1 ++ [':', ' '] ++ pretty depth m.2

theorem prettyMembers_eq (depth : Nat) (ms : List (List Nat × Json)) :
    prettyMembers depth ms =
      ms.flatMap fun m => ',' :: (newLine depth ++ prettyMember depth m) := by
  induction ms with
  | nil => rfl
  | cons m ms ih =>
    obtain ⟨name, v⟩ := m
    rw [prettyMembers, ih, List.flatMap_cons]
    simp only [prettyMember, List.cons_append, List.append_assoc]

theorem member_prettyMember {fuel depth : Nat} {m : List Nat × Json}
    (hname : ∃ s, m.1 = codePoints s) (hv : Textual m.2) (h : ReadsBack fuel depth m.2)
    {lead : List Char} (hlead : Blank lead) {rest : List Char}
    (hrest : EndsNumber rest) :
    member (value fuel) (lead ++ prettyMember depth m ++ rest) = some (m, rest) := by
  obtain ⟨name, v⟩ := m
  obtain ⟨s, rfl⟩ := hname
  have hbody := stringBody_codePoints s (':' :: ' ' :: (pretty depth v ++ rest))
  have htext : skipSpace (lead ++ prettyMember depth (codePoints s, v) ++ rest) =
      '"' :: ((codePoints s).flatMap escape ++ '"' :: ':' :: ' ' :: (pretty depth v ++ rest)) := by
    rw [List.append_assoc, skipSpace_append hlead]
    simp only [prettyMember, quote, List.cons_append, List.append_assoc, List.nil_append]
    exact skipSpace_of_head (by decide) _
  have hcolon : skipSpace (':' :: ' ' :: (pretty depth v ++ rest)) =
      ':' :: ' ' :: (pretty depth v ++ rest) := skipSpace_of_head (by decide) _
  have hvalue : skipSpace ([' '] ++ (pretty depth v ++ rest)) = pretty depth v ++ rest := by
    rw [skipSpace_append (List.forall_mem_singleton.mpr rfl), skipSpace_pretty hv]
  rw [List.singleton_append] at hvalue
  unfold member
  rw [htext]
  simp only [hbody]
  simp [hcolon, hvalue, h rest hrest]

def membersRound (value : Reader Json) (read : List (List Nat × Json)) :
    Reader (Round (List (List Nat × Json)) (List (List Nat × Json))) := fun cs => do
  let (m, cs) ← member value cs
  match skipSpace cs with
  | ',' :: cs => some (.more (m :: read), cs)
  | '\x7d' :: cs => some (.done (m :: read).reverse, cs)
  | _ => none

theorem itemText_member {fuel depth outer : Nat} {m : List Nat × Json}
    (hname : ∃ s, m.1 = codePoints s) (hv : Textual m.2) (h : ReadsBack fuel depth m.2)
    {lead : List Char} (hlead : Blank lead) :
    ItemText (membersRound (value fuel)) (newLine outer ++ ['\x7d'])
      (lead ++ prettyMember depth m) m := by
  constructor
  · intro read rest
    rw [membersRound, member_prettyMember hname hv h hlead (endsNumber_comma rest)]
    rfl
  · intro read rest
    have hclose : skipSpace (newLine outer ++ '\x7d' :: rest) = '\x7d' :: rest :=
      skipSpace_newLine outer (by decide) rest
    have htext : lead ++ prettyMember depth m ++ (newLine outer ++ ['\x7d']) ++ rest =
        lead ++ prettyMember depth m ++ (newLine outer ++ '\x7d' :: rest) := by
      simp only [List.append_assoc, List.singleton_append]
    rw [membersRound, htext,
      member_prettyMember hname hv h hlead (endsNumber_newLine outer _)]
    simp [hclose]

theorem objectBody_of_skipSpace {value : Reader Json} {text items : List Char}
    (hitems : skipSpace text = items) (hopen : ∀ cs, items ≠ '\x7d' :: cs) :
    objectBody value text = (members value items).map fun (ms, rest) => (.object ms, rest) := by
  unfold objectBody
  rw [hitems]
  split
  · next heq => exact absurd rfl (hopen _)
  · rfl

theorem readsBack_object {fuel depth : Nat} {ms : List (List Nat × Json)}
    (hnames : ∀ m ∈ ms, ∃ s, m.1 = codePoints s) (hvalues : ∀ m ∈ ms, Textual m.2)
    (h : ∀ m ∈ ms, ReadsBack fuel (depth + 1) m.2) : ReadsBack (fuel + 1) depth (.object ms) := by
  intro rest _
  cases ms with
  | nil => rfl
  | cons m ms =>
    obtain ⟨hname, hnames⟩ := List.forall_mem_cons.mp hnames
    obtain ⟨hvalue, hvalues⟩ := List.forall_mem_cons.mp hvalues
    obtain ⟨hread, hreads⟩ := List.forall_mem_cons.mp h
    let items := prettyMember (depth + 1) m ++
      ms.flatMap (fun m => ',' :: (newLine (depth + 1) ++ prettyMember (depth + 1) m)) ++
      (newLine depth ++ ['\x7d']) ++ rest
    have htext : pretty depth (.object (m :: ms)) ++ rest =
        '\x7b' :: (newLine (depth + 1) ++ items) := by
      simp only [items, pretty, prettyMembers_eq, prettyMember, List.cons_append,
        List.append_assoc]
    have hskip : skipSpace (newLine (depth + 1) ++ items) = items := by
      rw [skipSpace_append (blank_newLine (depth + 1))]
      exact skipSpace_of_head (by decide) _
    have hopen : ∀ cs, items ≠ '\x7d' :: cs := fun cs heq =>
      absurd (List.cons.inj heq).1 (by decide)
    have hloop : members (value fuel) items = some (m :: ms, rest) :=
      Text.iterate_items (itemText_member hname hvalue hread blank_nil)
        (fun x hx => itemText_member (hnames x hx) (hvalues x hx) (hreads x hx)
          (blank_newLine _)) [] rest
    rw [htext]
    change objectBody (value fuel) _ = _
    rw [objectBody_of_skipSpace hskip hopen, hloop]
    rfl

/-! ## The whole text -/

theorem length_le_flatMap {α β : Type} (f : α → List β) {l : List α} {a : α} (h : a ∈ l) :
    (f a).length ≤ (l.flatMap f).length := by
  rw [List.flatMap_def]
  exact (List.sublist_flatten_of_mem (List.mem_map_of_mem h)).length_le

theorem length_element_lt (depth : Nat) {es : List Json} {e : Json} (h : e ∈ es) :
    (pretty (depth + 1) e).length + 1 < (pretty depth (.array es)).length := by
  cases es with
  | nil => cases h
  | cons x xs =>
    have hlength : (pretty depth (.array (x :: xs))).length =
        (newLine (depth + 1)).length + (pretty (depth + 1) x).length +
          (prettyElements (depth + 1) xs).length + (newLine depth).length + 2 := by
      simp only [pretty, List.length_append, List.length_cons, List.length_nil]
      omega
    rcases List.mem_cons.mp h with rfl | h
    · omega
    · have hle := length_le_flatMap
        (fun e => ',' :: (newLine (depth + 1) ++ pretty (depth + 1) e)) h
      rw [← prettyElements_eq, List.length_cons, List.length_append] at hle
      omega

theorem length_member_lt (depth : Nat) {ms : List (List Nat × Json)} {m : List Nat × Json}
    (h : m ∈ ms) : (pretty (depth + 1) m.2).length + 1 < (pretty depth (.object ms)).length := by
  cases ms with
  | nil => cases h
  | cons x xs =>
    have hlength : (pretty depth (.object (x :: xs))).length =
        (newLine (depth + 1)).length + (prettyMember (depth + 1) x).length +
          (prettyMembers (depth + 1) xs).length + (newLine depth).length + 2 := by
      simp only [pretty, prettyMember, List.length_append, List.length_cons, List.length_nil]
      omega
    have hmember : (pretty (depth + 1) m.2).length ≤ (prettyMember (depth + 1) m).length := by
      rw [prettyMember, List.length_append]
      omega
    rcases List.mem_cons.mp h with rfl | h
    · omega
    · have hle := length_le_flatMap
        (fun m => ',' :: (newLine (depth + 1) ++ prettyMember (depth + 1) m)) h
      rw [← prettyMembers_eq, List.length_cons, List.length_append] at hle
      omega

/-- A value is read back with any fuel beyond the length of its text. -/
theorem readsBack_of_length {v : Json} (hv : Textual v) {fuel depth : Nat}
    (hfuel : (pretty depth v).length ≤ fuel) : ReadsBack (fuel + 1) depth v := by
  induction hv generalizing fuel depth with
  | null => exact fun _ _ => rfl
  | bool b => cases b <;> exact fun _ _ => rfl
  | natural n => exact readsBack_natural fuel depth n
  | text s => exact readsBack_text fuel depth s
  | array hes ih =>
    refine readsBack_array hes fun e he => ?_
    have hlt := length_element_lt depth he
    obtain ⟨fuel, rfl⟩ := Nat.exists_eq_add_one.mpr (by omega : 0 < fuel)
    exact ih e he (by omega)
  | object hnames hvalues ih =>
    refine readsBack_object hnames hvalues fun m hm => ?_
    have hlt := length_member_lt depth hm
    obtain ⟨fuel, rfl⟩ := Nat.exists_eq_add_one.mpr (by omega : 0 < fuel)
    exact ih m hm (by omega)

/-- **A value is what its text is read as**, if its strings are texts and its numbers natural. -/
theorem ofText?_toText {v : Json} (hv : Textual v) : ofText? v.toText = some v := by
  have hread := readsBack_of_length hv (Nat.le_refl (pretty 0 v).length) [] fun _ h => (nomatch h)
  have hskip := skipSpace_pretty hv 0 []
  rw [List.append_nil] at hread hskip
  simp only [ofText?, toText, String.toList_ofList, hskip, hread]
  rfl

end StackEscape.Json
