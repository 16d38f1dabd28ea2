import StackEscape.Proofs.Text
import StackEscape.Proofs.Toml.Quoted
import StackEscape.Toml.Parser

/-!
# TOML documents are read back

A document of one table is read back, if its keys are distinct and need no quotes and if the text of
each value is read. Among the texts that are read are the words for truth values, and arrays of
strings on one line or with one string a line.
-/

namespace StackEscape.Toml

open Text (Reader Round iterate)

/-! ## Between the parts -/

def beginsGap (c : Char) : Bool := c = ' ' || c = '\t' || c = '\n' || c = '\r' || c = '#'

theorem skipGaps_of_not_beginsGap {c : Char} (h : beginsGap c = false) (cs : List Char) :
    skipGaps (c :: cs) = c :: cs := by
  simp only [beginsGap, Bool.or_eq_false_iff, decide_eq_false_iff_not] at h
  unfold skipGaps
  split
  all_goals next heq => simp_all

theorem skipGaps_space (cs : List Char) : skipGaps (' ' :: cs) = skipGaps cs := by
  rw [skipGaps]

theorem skipGaps_lineFeed (cs : List Char) : skipGaps ('\n' :: cs) = skipGaps cs := by
  rw [skipGaps]

theorem afterLine?_lineFeed (cs : List Char) : afterLine? ('\n' :: cs) = some cs := rfl

/-! ## Keys -/

def IsBareKey (name : String) : Prop := name ≠ "" ∧ name.toList.all isBare = true

instance (name : String) : Decidable (IsBareKey name) := inferInstanceAs (Decidable (_ ∧ _))

theorem ne_of_isBare {c d : Char} (h : isBare c = true) (hd : isBare d = false) : c ≠ d := by
  rintro rfl
  rw [h] at hd
  cases hd

theorem not_isSpace_of_isBare {c : Char} (h : isBare c = true) : isSpace c = false := by
  refine Bool.eq_false_iff.mpr fun hspace => ?_
  simp only [isSpace, Bool.or_eq_true, decide_eq_true_eq] at hspace
  rcases hspace with rfl | rfl <;> exact absurd h (by decide)

theorem not_beginsGap_of_isBare {c : Char} (h : isBare c = true) : beginsGap c = false := by
  refine Bool.eq_false_iff.mpr fun hgap => ?_
  simp only [beginsGap, Bool.or_eq_true, decide_eq_true_eq] at hgap
  rcases hgap with (((rfl | rfl) | rfl) | rfl) | rfl <;> exact absurd h (by decide)

theorem IsBareKey.exists_cons {name : String} (h : IsBareKey name) :
    ∃ c cs, name.toList = c :: cs ∧ isBare c = true := by
  cases hname : name.toList with
  | nil => exact absurd (String.toList_eq_nil_iff.mp hname) h.1
  | cons c cs => exact ⟨c, cs, rfl, List.all_eq_true.mp h.2 c (hname ▸ List.mem_cons_self)⟩

theorem keyPart_of_isBareKey {name : String} (h : IsBareKey name) {c : Char}
    (hc : isBare c = false) (cs : List Char) :
    keyPart (name.toList ++ c :: cs) = some (name, c :: cs) := by
  have htake : (name.toList ++ c :: cs).takeWhile isBare = name.toList := by
    rw [List.takeWhile_append_of_pos (List.all_eq_true.mp h.2),
      List.takeWhile_cons_of_neg (by simp [hc]), List.append_nil]
  obtain ⟨c', cs', hname, -⟩ := h.exists_cons
  rw [keyPart, htake]
  split
  · next heq => rw [hname] at heq; cases heq
  · rw [List.drop_left, String.ofList_toList]

/-- A key without quotes is read, and the blanks behind it with it. -/
theorem key_of_isBareKey {name : String} (h : IsBareKey name) {c next : Char} {cs rest : List Char}
    (hc : isBare c = false) (hrest : (c :: cs).dropWhile isSpace = next :: rest)
    (hnext : next ≠ '.') :
    key (name.toList ++ c :: cs) = some (([], name), next :: rest) := by
  obtain ⟨c', cs', hname, hc'⟩ := h.exists_cons
  have hdrop : (name.toList ++ c :: cs).dropWhile isSpace = name.toList ++ c :: cs := by
    rw [hname, List.cons_append,
      List.dropWhile_cons_of_neg (by simp [not_isSpace_of_isBare hc'])]
  unfold key
  rw [Text.iterate_of_done (?_ : _ = some (Round.done ([], name), next :: rest))]
  · rfl
  · rw [hdrop, keyPart_of_isBareKey h hc]
    dsimp only [bind, Option.bind]
    rw [hrest]
    split
    · next heq => exact absurd (List.cons.inj heq).1 hnext
    · rfl

theorem pair_of_isBareKey {name : String} (h : IsBareKey name) {value : Reader Value}
    {cs rest : List Char} {v : Value} (hspace : cs.dropWhile isSpace = cs)
    (hvalue : value cs = some (v, rest)) :
    pair value (name.toList ++ ([' ', '=', ' '] ++ cs)) = some ((([], name), v), rest) := by
  have hkey : key (name.toList ++ ([' ', '=', ' '] ++ cs)) = some (([], name), '=' :: ' ' :: cs) :=
    key_of_isBareKey h (by decide) rfl (by decide)
  have hdrop : (' ' :: cs).dropWhile isSpace = cs := hspace
  rw [pair, hkey]
  simp only [bind, Option.bind, Text.literal, List.isPrefixOf, List.drop, BEq.rfl, Bool.and_true,
    if_true, List.length_singleton, hdrop, hvalue]
  rfl

/-! ## Values -/

theorem exists_quoted_eq (cs : List Char) :
    ∃ q body, quoted cs = q :: body ∧ (q = '"' ∨ q = '\'') := by
  unfold quoted enclose
  dsimp only
  split
  · exact ⟨_, _, rfl, .inl rfl⟩
  split
  · exact ⟨_, _, rfl, .inr rfl⟩
  split
  · exact ⟨_, _, rfl, .inl rfl⟩
  split
  · exact ⟨_, _, rfl, .inr rfl⟩
  split
  · exact ⟨_, _, rfl, .inl rfl⟩
  · exact ⟨_, _, rfl, .inl rfl⟩

/-- A string in quotes is read at any depth. -/
theorem value_quoted (depth : Nat) (cs : List Char) {rest : List Char}
    (hsingle : rest.head? ≠ some '\'') (hdouble : rest.head? ≠ some '"') :
    value depth (quoted cs ++ rest) = some (.string (String.ofList cs), rest) := by
  have hread := anyString_quoted cs hsingle hdouble
  obtain ⟨q, body, hquoted, hq⟩ := exists_quoted_eq cs
  have hscalar : scalar (quoted cs ++ rest) = some (.string (String.ofList cs), rest) := by
    rw [hquoted, List.cons_append] at hread ⊢
    rw [scalar, if_pos hq, hread]
    rfl
  cases depth with
  | zero => exact hscalar
  | succ depth =>
    rw [hquoted, List.cons_append] at hscalar ⊢
    rw [value]
    rcases hq with rfl | rfl <;> exact hscalar

theorem value_true (depth : Nat) (rest : List Char) :
    value depth ('t' :: 'r' :: 'u' :: 'e' :: rest) = some (.boolean true, rest) := by
  cases depth <;> rfl

theorem value_false (depth : Nat) (rest : List Char) :
    value depth ('f' :: 'a' :: 'l' :: 's' :: 'e' :: rest) = some (.boolean false, rest) := by
  cases depth <;> rfl

/-! ## Arrays of strings -/

theorem skipGaps_quoted (cs rest : List Char) :
    skipGaps (quoted cs ++ rest) = quoted cs ++ rest := by
  obtain ⟨q, body, hquoted, hq⟩ := exists_quoted_eq cs
  rw [hquoted, List.cons_append]
  refine skipGaps_of_not_beginsGap ?_ _
  rcases hq with rfl | rfl <;> decide

theorem quoted_append_ne (cs rest : List Char) {c : Char} (hsingle : c ≠ '\'') (hdouble : c ≠ '"')
    (tail : List Char) : quoted cs ++ rest ≠ c :: tail := by
  obtain ⟨q, body, hquoted, hq⟩ := exists_quoted_eq cs
  rw [hquoted, List.cons_append]
  intro heq
  obtain rfl := (List.cons.inj heq).1
  rcases hq with h | h
  · exact hdouble h
  · exact hsingle h

variable {depth : Nat} {rest : List Char}

/-- What follows an element of an array: a comma, or the end of the array. -/
def elementEnd (read : List Value) : Reader (Round (List Value) Value) := fun cs =>
  match skipGaps cs with
  | ',' :: cs => some (.more read, cs)
  | ']' :: cs => some (.done (.array read), cs)
  | _ => none

def arrayRound (value : Reader Value) (read : List Value) : Reader (Round (List Value) Value) :=
  fun cs =>
    match skipGaps cs with
    | ']' :: cs => some (.done (.array read), cs)
    | cs => do
      let (v, cs) ← value cs
      elementEnd (read ++ [v]) cs

theorem arrayBody_eq_iterate (value : Reader Value) :
    arrayBody value = iterate (arrayRound value) [] := rfl

theorem elementEnd_comma (read : List Value) (rest : List Char) :
    elementEnd read (',' :: rest) = some (.more read, rest) := by
  rw [elementEnd, skipGaps_of_not_beginsGap (by decide)]
  rfl

theorem elementEnd_bracket (read : List Value) (rest : List Char) :
    elementEnd read (']' :: rest) = some (.done (.array read), rest) := by
  rw [elementEnd, skipGaps_of_not_beginsGap (by decide)]
  rfl

theorem arrayRound_bracket {cs rest : List Char} (h : skipGaps cs = ']' :: rest)
    (value : Reader Value) (read : List Value) :
    arrayRound value read cs = some (.done (.array read), rest) := by
  rw [arrayRound, h]
  rfl

theorem arrayRound_string {cs rest : List Char} {s : String}
    (h : skipGaps cs = quoted s.toList ++ rest) (hsingle : rest.head? ≠ some '\'')
    (hdouble : rest.head? ≠ some '"') (depth : Nat) (read : List Value) :
    arrayRound (value depth) read cs = elementEnd (read ++ [.string s]) rest := by
  rw [arrayRound, h]
  split
  · next heq => exact absurd heq (quoted_append_ne _ _ (by decide) (by decide) _)
  · rw [value_quoted depth _ hsingle hdouble, String.ofList_toList]
    rfl

variable {depth : Nat} {rest : List Char}

theorem arrayBody_nil : arrayBody (value depth) (']' :: rest) = some (.array [], rest) :=
  Text.iterate_of_done (arrayRound_bracket (skipGaps_of_not_beginsGap (by decide) _) _ _)

theorem arrayBody_singleton (s : String) :
    arrayBody (value depth) (quoted s.toList ++ ']' :: rest) = some (.array [.string s], rest) := by
  rw [arrayBody_eq_iterate]
  refine Text.iterate_of_done ?_
  rw [arrayRound_string (skipGaps_quoted _ _) (by simp) (by simp), elementEnd_bracket]
  rfl

/-- A string on a line of its own, with the line end before it. -/
def elementLine (s : String) : List Char :=
  ['\n', ' ', ' ', ' ', ' '] ++ quoted s.toList ++ [',']

theorem skipGaps_elementLine (s : String) (rest : List Char) :
    skipGaps (elementLine s ++ rest) = quoted s.toList ++ ',' :: rest := by
  simp only [elementLine, List.cons_append, List.nil_append, List.append_assoc, skipGaps_lineFeed,
    skipGaps_space, skipGaps_quoted]

theorem arrayBody_elementLines (ss : List String) :
    arrayBody (value depth) (ss.flatMap elementLine ++ '\n' :: ']' :: rest) =
      some (.array (ss.map .string), rest) := by
  have hrun :
      iterate (arrayRound (value depth)) [] (ss.flatMap elementLine ++ '\n' :: ']' :: rest) =
        iterate (arrayRound (value depth)) (ss.map .string) ('\n' :: ']' :: rest) := by
    refine Text.iterate_flatMap (List.map Value.string) ?_ ?_ _
    · intro s _
      exact List.cons_ne_nil _ _
    · intro seen s todo _ rest
      rw [arrayRound_string (skipGaps_elementLine s rest) (by simp) (by simp), elementEnd_comma,
        List.map_append]
      rfl
  have hclose : skipGaps ('\n' :: ']' :: rest) = ']' :: rest := by
    rw [skipGaps_lineFeed, skipGaps_of_not_beginsGap (by decide)]
  rw [arrayBody_eq_iterate, hrun, Text.iterate_of_done (arrayRound_bracket hclose _ _)]

/-! ## Documents of one table -/

theorem Entries.lookup_of_not_mem {key : String} {entries : Entries}
    (h : key ∉ entries.map Prod.fst) : entries.lookup key = none := by
  refine List.lookup_eq_none_iff.mpr fun entry hmem => ?_
  refine bne_iff_ne.mpr fun heq => h ?_
  rw [heq]
  exact List.mem_map_of_mem hmem

theorem Entries.set_of_not_mem {key : String} {entries : Entries}
    (h : key ∉ entries.map Prod.fst) (v : Value) : entries.set key v = entries ++ [(key, v)] := by
  induction entries with
  | nil => rfl
  | cons entry entries ih =>
    rw [List.map_cons, List.mem_cons, not_or] at h
    rw [Entries.set, if_neg (Ne.symm h.1), ih h.2]
    rfl

def Document.single (name : String) (entries : Entries) : Document :=
  ⟨[(name, .table .header entries)], [name]⟩

theorem Document.addValue_single (name : String) {entries : Entries} {key : String}
    (h : key ∉ entries.map Prod.fst) (v : Value) :
    (single name entries).addValue [] key v = some (single name (entries ++ [(key, v)])) := by
  have hadd : Toml.addValue [] key v .header entries =
      some (.header, entries ++ [(key, v)]) := by
    simp [Toml.addValue, descend, Entries.lookup_of_not_mem h, Entries.set_of_not_mem h]
  simp [Document.addValue, Document.change, single, descend, hadd, Entries.set]

/-- A key with a value, and a text of the value. -/
structure Item where
  key : String
  text : List Char
  value : Value

namespace Item

/-- The key needs no quotes, and the text is that of the value. -/
structure Reads (item : Item) : Prop where
  isBareKey : IsBareKey item.key
  not_space : ∀ rest, (item.text ++ rest).dropWhile isSpace = item.text ++ rest
  value : ∀ rest, Toml.value nestingLimit (item.text ++ '\n' :: rest) =
    some (item.value, '\n' :: rest)

def entry (item : Item) : String × Value := (item.key, item.value)

def line (item : Item) : List Char :=
  item.key.toList ++ ([' ', '=', ' '] ++ (item.text ++ ['\n']))

theorem line_append (item : Item) (rest : List Char) : item.line ++ rest =
    item.key.toList ++ ([' ', '=', ' '] ++ (item.text ++ '\n' :: rest)) := by
  simp only [line, List.append_assoc, List.cons_append, List.nil_append]

theorem Reads.pairLine {item : Item} (h : item.Reads) {d next : Document}
    (hadd : d.addValue [] item.key item.value = some next) (rest : List Char) :
    pairLine d (item.line ++ rest) = some (next, rest) := by
  have hpair := pair_of_isBareKey h.isBareKey (h.not_space _) (h.value rest)
  rw [line_append, Toml.pairLine, hpair]
  simp only [bind, Option.bind, afterLine?_lineFeed, hadd]
  rfl

theorem Reads.exists_line {item : Item} (h : item.Reads) :
    ∃ c cs, item.line = c :: cs ∧ beginsGap c = false ∧ c ≠ '[' := by
  obtain ⟨c, cs, hkey, hc⟩ := h.isBareKey.exists_cons
  exact ⟨c, _, by rw [line, hkey]; rfl, not_beginsGap_of_isBare hc, ne_of_isBare hc (by decide)⟩

end Item

theorem tableLine_of_isBareKey {name : String} (hname : IsBareKey name) (rest : List Char) :
    tableLine .empty (name.toList ++ ']' :: '\n' :: rest) = some (.single name [], rest) := by
  have hkey : key (name.toList ++ ']' :: '\n' :: rest) = some (([], name), ']' :: '\n' :: rest) :=
    key_of_isBareKey hname (by decide) rfl (by decide)
  rw [tableLine, hkey]
  rfl

def lineRound (d : Document) : Reader (Round Document Document) := fun cs =>
  match skipGaps cs with
  | [] => some (.done d, [])
  | cs => (line d cs).map fun (d, rest) => (.more d, rest)

theorem lines_eq_iterate : lines = iterate lineRound .empty := rfl

theorem lineRound_nil (d : Document) : lineRound d [] = some (.done d, []) := by
  simp [lineRound, skipGaps]

theorem lineRound_of_line {c : Char} (hc : beginsGap c = false) {d next : Document}
    {cs rest : List Char} (h : line d (c :: cs) = some (next, rest)) :
    lineRound d (c :: cs) = some (.more next, rest) := by
  rw [lineRound, skipGaps_of_not_beginsGap hc]
  dsimp only
  rw [h]
  rfl

theorem lineRound_table {name : String} (hname : IsBareKey name) (rest : List Char) :
    lineRound .empty ('[' :: (name.toList ++ ']' :: '\n' :: rest)) =
      some (.more (.single name []), rest) := by
  refine lineRound_of_line (by decide) ?_
  obtain ⟨c, cs, hcons, hc⟩ := hname.exists_cons
  have hbracket : c ≠ '[' := ne_of_isBare hc (by decide)
  have htable := tableLine_of_isBareKey hname rest
  rw [hcons, List.cons_append] at htable ⊢
  rw [line, htable]
  intro cs heq
  exact absurd (List.cons.inj heq).1 hbracket

theorem lineRound_item {item : Item} (h : item.Reads) {d next : Document}
    (hadd : d.addValue [] item.key item.value = some next) (rest : List Char) :
    lineRound d (item.line ++ rest) = some (.more next, rest) := by
  have hpair := h.pairLine hadd rest
  obtain ⟨c, cs, hline, hgap, hbracket⟩ := h.exists_line
  rw [hline, List.cons_append] at hpair ⊢
  refine lineRound_of_line hgap ?_
  rw [line, hpair]
  · intro cs heq
    exact hbracket (List.cons.inj heq).1
  · intro cs heq
    exact hbracket (List.cons.inj heq).1

/-- **A document of one table is read back**, if its keys are distinct. -/
theorem ofText?_table {name : String} (hname : IsBareKey name) {items : List Item}
    (hitems : ∀ item ∈ items, item.Reads) (hnodup : (items.map Item.key).Nodup) :
    ofText? (String.ofList ('[' :: (name.toList ++ ']' :: '\n' :: items.flatMap Item.line))) =
      some [(name, .table .header (items.map Item.entry))] := by
  have hrun : iterate lineRound (.single name []) (items.flatMap Item.line ++ []) =
      iterate lineRound (.single name (items.map Item.entry)) [] := by
    refine Text.iterate_flatMap (fun seen => Document.single name (seen.map Item.entry)) ?_ ?_ []
    · intro item hmem
      obtain ⟨c, cs, hline, -⟩ := (hitems item hmem).exists_line
      rw [hline]
      exact List.cons_ne_nil c cs
    · intro seen item todo hsplit rest
      have hmem : item ∈ items := hsplit ▸ List.mem_append_right seen List.mem_cons_self
      have hfresh : item.key ∉ (seen.map Item.entry).map Prod.fst := by
        rw [List.map_map]
        rw [hsplit, List.map_append, List.map_cons] at hnodup
        intro hseen
        exact (List.nodup_append.mp hnodup).2.2 _ hseen _ List.mem_cons_self rfl
      rw [List.map_append]
      exact lineRound_item (hitems item hmem) (Document.addValue_single name hfresh _) rest
  have hlines : lines ('[' :: (name.toList ++ ']' :: '\n' :: items.flatMap Item.line)) =
      some (.single name (items.map Item.entry), []) := by
    rw [List.append_nil] at hrun
    rw [lines_eq_iterate, Text.iterate_of_more (lineRound_table hname _), hrun,
      Text.iterate_of_done (lineRound_nil _)]
    simp only [List.length_cons, List.length_append]
    omega
  rw [ofText?, String.toList_ofList, skipMark]
  · rw [hlines]
    rfl
  · intro cs heq
    cases heq

end StackEscape.Toml
