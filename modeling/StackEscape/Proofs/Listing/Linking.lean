import StackEscape.Proofs.Listing.Blocks
import StackEscape.Proofs.Listing.Dyck

/-!
# Linking is exact

Brackets can be linked exactly if they are balanced, and links join partners. Where they are not
balanced, the fault names the first closing bracket that no continuation could save or else the last
opening one that nothing closes. `Pending` is what carries this through the linking loop: it says
what stands between the brackets that are open at some place.
-/

namespace StackEscape

namespace Bracket

def brackets (ts : List Token) : List String := (ts.map Token.text).filter isBracket

def bracketsIn (ts : List Token) (i j : Nat) : List String := brackets ((ts.take j).drop i)

/-- The bracket at `c` closes the one at `o`: it stands behind it and belongs to the same pair, and
the brackets between the two are balanced. -/
def Partners (ts : List Token) (o c : Nat) : Prop :=
  ∃ t u, ts[o]? = some t ∧ ts[c]? = some u ∧ o < c ∧ closerOf? t.text = some u.text ∧
    Dyck (bracketsIn ts (o + 1) c)

/-! ## Faults -/

/-- The token `t` at `i` is the first closing bracket that cannot be read on from: whatever follows,
the brackets up to it are not the beginning of a balanced sequence. -/
structure FirstUnexpected (ts : List Token) (i : Nat) (t : Token) : Prop where
  get : ts[i]? = some t
  isCloser : isCloser t.text = true
  stuck : ¬ Extends (bracketsIn ts 0 (i + 1))
  before : ∀ j u, j < i → ts[j]? = some u → Bracket.isCloser u.text = true →
    Extends (bracketsIn ts 0 (j + 1))

/-- The token `t` at `i` is the last opening bracket that nothing closes. -/
structure LastUnclosed (ts : List Token) (i : Nat) (t : Token) : Prop where
  get : ts[i]? = some t
  isOpener : isOpener t.text = true
  unclosed : ∀ c, ¬ Partners ts i c
  behind : ∀ j u, i < j → ts[j]? = some u → Bracket.isOpener u.text = true → ∃ c, Partners ts j c

inductive Blames (file : String) (ts : List Token) : SourceFault → Prop
  | unexpected {i : Nat} {t : Token} (first : FirstUnexpected ts i t) :
      Blames file ts (.unexpectedCloser file t.position.line t.text)
  | unclosed {i : Nat} {t : Token}
      (none : ∀ j u, ts[j]? = some u → isCloser u.text = true → Extends (bracketsIn ts 0 (j + 1)))
      (last : LastUnclosed ts i t) : Blames file ts (.unclosedBracket file t.position.line t.text)

/-! ## Stretches of tokens -/

section
variable {ts : List Token} {i j k : Nat} {t : Token}

theorem brackets_append (ts us : List Token) :
    brackets (ts ++ us) = brackets ts ++ brackets us := by
  simp [brackets]

@[simp] theorem bracketsIn_self (ts : List Token) (i : Nat) : bracketsIn ts i i = [] := by
  have h : (ts.take i).drop i = [] := List.drop_eq_nil_of_le (List.length_take_le i ts)
  rw [bracketsIn, h]
  rfl

/-- A stretch is cut in two. -/
theorem bracketsIn_split (hik : i ≤ k) (hkj : k ≤ j) :
    bracketsIn ts i j = bracketsIn ts i k ++ bracketsIn ts k j := by
  unfold bracketsIn
  rw [← brackets_append]
  congr 1
  rcases Nat.le_total k ts.length with hk | hk
  · have hlen : (ts.take k).length = k := List.length_take_of_le hk
    have h := List.take_append_drop k (ts.take j)
    rw [List.take_take, Nat.min_eq_left hkj] at h
    rw [← List.drop_append_of_le_length (by omega), h]
  · rw [List.take_of_length_le hk, List.take_of_length_le (by omega), List.drop_eq_nil_of_le hk,
      List.append_nil]

theorem bracketsIn_one (h : ts[i]? = some t) :
    bracketsIn ts i (i + 1) = if isBracket t.text then [t.text] else [] := by
  obtain ⟨hi, rfl⟩ := List.getElem?_eq_some_iff.mp h
  have hlen : (ts.take i).length = i := List.length_take_of_le (Nat.le_of_lt hi)
  have hone : (ts.take (i + 1)).drop i = [ts[i]] := by
    rw [List.take_succ_eq_append_getElem hi, List.drop_left' hlen]
  rw [bracketsIn, hone, brackets, List.map_singleton, List.filter_cons, List.filter_nil]

theorem bracketsIn_bracket (h : ts[i]? = some t) (ht : isBracket t.text = true) :
    bracketsIn ts i (i + 1) = [t.text] := by rw [bracketsIn_one h, if_pos ht]

theorem isBracket_of_isOpener {w : String} (h : isOpener w = true) : isBracket w = true := by
  rw [isBracket, h, Bool.true_or]

theorem isBracket_of_isCloser {w : String} (h : isCloser w = true) : isBracket w = true := by
  rw [isBracket, h, Bool.or_true]

/-- Partners with what stands between them are balanced. -/
theorem Partners.dyck (h : Partners ts i j) : Dyck (bracketsIn ts i (j + 1)) := by
  obtain ⟨t, u, ht, hu, hij, hpair, hin⟩ := h
  have hopen := isBracket_of_isOpener (isOpener_of_closerOf? hpair)
  have hclose := isBracket_of_isCloser (isCloser_of_closerOf? hpair)
  have houter : bracketsIn ts i (j + 1) =
      bracketsIn ts i (i + 1) ++ bracketsIn ts (i + 1) (j + 1) :=
    bracketsIn_split (Nat.le_succ i) (by omega)
  have hinner : bracketsIn ts (i + 1) (j + 1) =
      bracketsIn ts (i + 1) j ++ bracketsIn ts j (j + 1) := bracketsIn_split hij (Nat.le_succ j)
  rw [houter, hinner, bracketsIn_bracket ht hopen, bracketsIn_bracket hu hclose]
  exact .pair hpair hin .nil

end

/-! ## The brackets that are open -/

/-- The brackets in `opened`, the innermost first, are those that are open before the token at `i`
is read: between them stand balanced sequences. -/
inductive Pending (ts : List Token) : Nat → List (Nat × Token) → Prop
  | bottom {i : Nat} : Dyck (bracketsIn ts 0 i) → Pending ts i []
  | opened {i o : Nat} {t : Token} {outer : List (Nat × Token)} : Pending ts o outer →
      ts[o]? = some t → isOpener t.text = true → o < i → Dyck (bracketsIn ts (o + 1) i) →
      Pending ts i ((o, t) :: outer)

namespace Pending

variable {ts : List Token} {i j o : Nat} {t b : Token} {opened outer : List (Nat × Token)}

theorem lt (h : Pending ts i opened) : ∀ b ∈ opened, b.1 < i := by
  induction h with
  | bottom => exact List.forall_mem_nil _
  | opened _ _ _ hoi _ ih =>
    exact List.forall_mem_cons.mpr ⟨hoi, fun b hb => Nat.lt_trans (ih b hb) hoi⟩

/-- A balanced stretch leaves the open brackets alone. -/
theorem balanced (h : Pending ts i opened) (hij : i ≤ j) (hd : Dyck (bracketsIn ts i j)) :
    Pending ts j opened := by
  cases h with
  | bottom hbottom =>
    refine .bottom ?_
    rw [bracketsIn_split (Nat.zero_le i) hij]
    exact hbottom.append hd
  | opened houter ht hopen hoi hin =>
    refine .opened houter ht hopen (by omega) ?_
    rw [bracketsIn_split hoi hij]
    exact hin.append hd

/-- A token that is no bracket leaves the open brackets alone. -/
theorem plain (h : Pending ts i opened) (ht : ts[i]? = some t) (hno : isBracket t.text = false) :
    Pending ts (i + 1) opened := by
  refine h.balanced (Nat.le_succ i) ?_
  rw [bracketsIn_one ht, hno]
  exact .nil

theorem push (h : Pending ts i opened) (ht : ts[i]? = some t) (hopen : isOpener t.text = true) :
    Pending ts (i + 1) ((i, t) :: opened) :=
  .opened h ht hopen (Nat.lt_succ_self i) (by rw [bracketsIn_self]; exact .nil)

/-- A closing bracket that fits is the partner of the innermost open one. -/
theorem pop (h : Pending ts i ((o, b) :: outer)) (ht : ts[i]? = some t)
    (hpair : closerOf? b.text = some t.text) : Pending ts (i + 1) outer ∧ Partners ts o i := by
  cases h with
  | opened houter hb _ hoi hin =>
    have hpartners : Partners ts o i := ⟨b, t, hb, ht, hoi, hpair, hin⟩
    exact ⟨houter.balanced (by omega) hpartners.dyck, hpartners⟩

/-- Reading with a stack ends with the open brackets on it. -/
theorem openAfter_eq (h : Pending ts i opened) :
    openAfter [] (bracketsIn ts 0 i) = some (opened.map (·.2.text)) := by
  induction h with
  | bottom hd => exact hd.openAfter_eq []
  | @opened i o t outer _ ht hopen hoi hin ih =>
    rw [bracketsIn_split (Nat.zero_le o) (Nat.le_of_lt hoi), openAfter_append, ih,
      bracketsIn_split (Nat.le_succ o) hoi, bracketsIn_bracket ht (isBracket_of_isOpener hopen)]
    exact (openAfter_opener hopen).trans (hin.openAfter_eq _)

theorem extends_upTo (h : Pending ts i opened) (hji : j ≤ i) : Extends (bracketsIn ts 0 j) := by
  refine Extends.of_append (v := bracketsIn ts j i) ?_
  rw [← bracketsIn_split (Nat.zero_le j) hji, extends_iff, h.openAfter_eq]
  rfl

/-- A closing bracket that does not fit is the first one that cannot be read on from. -/
theorem firstUnexpected (h : Pending ts i opened) (ht : ts[i]? = some t)
    (hclose : isCloser t.text = true) (hno : ∀ b ∈ opened.head?, closerOf? b.2.text ≠ some t.text) :
    FirstUnexpected ts i t := by
  refine ⟨ht, hclose, ?_, fun j u hji _ _ => h.extends_upTo hji⟩
  rw [extends_iff, bracketsIn_split (Nat.zero_le i) (Nat.le_succ i), openAfter_append,
    h.openAfter_eq, bracketsIn_bracket ht (isBracket_of_isCloser hclose), Option.bind_some,
    openAfter_eq_none (isOpener_eq_false hclose)]
  · exact Bool.false_ne_true
  · intro o ho
    rw [List.head?_map] at ho
    obtain ⟨b, hb, rfl⟩ := Option.map_eq_some_iff.mp ho
    exact hno b hb

/-- What is open in the end is never closed: its partner would stand in a balanced sequence. -/
theorem not_partners (h : Pending ts ts.length ((o, b) :: outer)) (c : Nat) :
    ¬ Partners ts o c := by
  intro ⟨t, u, _, hu, hoc, hpair, hin⟩
  cases h with
  | opened _ _ _ _ hend =>
    have hc : c < ts.length := (List.getElem?_eq_some_iff.mp hu).1
    have hclose := isCloser_of_closerOf? hpair
    have hread := hend.openAfter_eq []
    rw [bracketsIn_split hoc (Nat.le_of_lt hc), openAfter_append, hin.openAfter_eq,
      bracketsIn_split (Nat.le_succ c) hc, bracketsIn_bracket hu (isBracket_of_isCloser hclose),
      Option.bind_some, List.singleton_append,
      openAfter_eq_none (isOpener_eq_false hclose) (by simp)] at hread
    cases hread

end Pending

/-! ## The linking loop -/

/-- What is known in the middle of linking: which brackets are open, and that all others that were
opened have partners. -/
structure Reading (ts : List Token) (i : Nat) (opened : List (Nat × Token)) : Prop where
  pending : Pending ts i opened
  closed : ∀ j u, j < i → ts[j]? = some u → isOpener u.text = true →
    (∃ b ∈ opened, b.1 = j) ∨ ∃ c, Partners ts j c

namespace Reading

variable {ts : List Token} {i o : Nat} {t b : Token} {opened outer : List (Nat × Token)}

theorem start (ts : List Token) : Reading ts 0 [] :=
  ⟨.bottom (by rw [bracketsIn_self]; exact .nil), fun _ _ hj => absurd hj (Nat.not_lt_zero _)⟩

theorem plain (h : Reading ts i opened) (ht : ts[i]? = some t) (hopen : isOpener t.text = false)
    (hclose : isCloser t.text = false) : Reading ts (i + 1) opened := by
  refine ⟨h.pending.plain ht (by rw [isBracket, hopen, hclose]; rfl), fun j u hj hu hu' => ?_⟩
  rcases Nat.eq_or_lt_of_le (Nat.le_of_lt_succ hj) with rfl | hj
  · obtain rfl := Option.some.inj (ht.symm.trans hu)
    rw [hopen] at hu'
    cases hu'
  · exact h.closed j u hj hu hu'

theorem push (h : Reading ts i opened) (ht : ts[i]? = some t) (hopen : isOpener t.text = true) :
    Reading ts (i + 1) ((i, t) :: opened) := by
  refine ⟨h.pending.push ht hopen, fun j u hj hu hu' => ?_⟩
  rcases Nat.eq_or_lt_of_le (Nat.le_of_lt_succ hj) with rfl | hj
  · exact .inl ⟨(j, t), List.mem_cons_self, rfl⟩
  · exact (h.closed j u hj hu hu').imp_left fun ⟨b, hb, he⟩ => ⟨b, List.mem_cons_of_mem _ hb, he⟩

theorem pop (h : Reading ts i ((o, b) :: outer)) (ht : ts[i]? = some t)
    (hpair : closerOf? b.text = some t.text) : Reading ts (i + 1) outer := by
  obtain ⟨hpending, hpartners⟩ := h.pending.pop ht hpair
  refine ⟨hpending, fun j u hj hu hu' => ?_⟩
  rcases Nat.eq_or_lt_of_le (Nat.le_of_lt_succ hj) with rfl | hj
  · obtain rfl := Option.some.inj (ht.symm.trans hu)
    rw [isOpener_eq_false (isCloser_of_closerOf? hpair)] at hu'
    cases hu'
  · rcases h.closed j u hj hu hu' with ⟨x, hx, rfl⟩ | hc
    · rcases List.mem_cons.mp hx with rfl | hx
      · exact .inr ⟨i, hpartners⟩
      · exact .inl ⟨x, hx, rfl⟩
    · exact .inr hc

/-- The innermost of the brackets that are open in the end is the last one that nothing closes. -/
theorem lastUnclosed (h : Reading ts ts.length ((o, t) :: outer)) : LastUnclosed ts o t := by
  have hunclosed := h.pending.not_partners
  have hclosed := h.closed
  cases h.pending with
  | opened houter ht hopen _ _ =>
    refine ⟨ht, hopen, hunclosed, fun j u hoj hu hu' => ?_⟩
    have hj : j < ts.length := (List.getElem?_eq_some_iff.mp hu).1
    refine (hclosed j u hj hu hu').resolve_left fun ⟨b, hb, he⟩ => ?_
    rcases List.mem_cons.mp hb with rfl | hb
    · exact absurd he (Nat.ne_of_lt hoj)
    · have := houter.lt b hb
      omega

end Reading

/-- What linking comes to: links if the brackets are balanced, a fault that is to blame if not. -/
def Settles (file : String) (ts : List Token) : Except Fault (Array (Option Nat)) → Prop
  | .ok _ => Dyck (brackets ts)
  | .error fault => ¬ Dyck (brackets ts) ∧ Blames file ts (.ofBracket file fault)

theorem bracketsIn_all (ts : List Token) : bracketsIn ts 0 ts.length = brackets ts := by
  rw [bracketsIn, List.take_length, List.drop_zero]

/-- A closing bracket that cannot be read on from spoils the balance. -/
theorem settles_unexpected {file : String} {ts : List Token} {i : Nat} {t : Token}
    (h : FirstUnexpected ts i t) : Settles file ts (.error (.unexpected t)) := by
  have hi : i + 1 ≤ ts.length := (List.getElem?_eq_some_iff.mp h.get).1
  refine ⟨fun hd => h.stuck ⟨bracketsIn ts (i + 1) ts.length, ?_⟩, .unexpected h⟩
  rwa [← bracketsIn_split (Nat.zero_le _) hi, bracketsIn_all]

/-- **Linking settles the brackets**, whatever they are. -/
theorem settles_linkFrom (file : String) {ts rest : List Token} {i : Nat}
    {opened : List (Nat × Token)} {links : Array (Option Nat)} (h : Reading ts i opened)
    (hrest : ts.drop i = rest) (hend : i + rest.length = ts.length) :
    Settles file ts (linkFrom i opened links rest) := by
  fun_induction linkFrom i opened links rest with
  | case1 i links =>
    obtain rfl : i = ts.length := hend
    rw [Settles, ← bracketsIn_all, dyck_iff]
    exact h.pending.openAfter_eq
  | case2 i links o bracket outer =>
    obtain rfl : i = ts.length := hend
    refine ⟨?_, .unclosed (fun j u hu _ => ?_) h.lastUnclosed⟩
    · rw [← bracketsIn_all, dyck_iff, h.pending.openAfter_eq]
      simp
    · exact h.pending.extends_upTo (List.getElem?_eq_some_iff.mp hu).1
  | case3 i opened links t rest hopen ih =>
    obtain ⟨ht, hrest⟩ := getElem?_of_drop hrest
    exact ih (h.push ht hopen) hrest (by simp at hend; omega)
  | case4 i links t rest hopen hclose o bracket outer hpair ih =>
    obtain ⟨ht, hrest⟩ := getElem?_of_drop hrest
    exact ih (h.pop ht hpair) hrest (by simp at hend; omega)
  | case5 i links t rest hopen hclose o bracket outer hpair =>
    obtain ⟨ht, _⟩ := getElem?_of_drop hrest
    exact settles_unexpected (h.pending.firstUnexpected ht hclose (by simpa using hpair))
  | case6 i links t rest hopen hclose =>
    obtain ⟨ht, _⟩ := getElem?_of_drop hrest
    exact settles_unexpected (h.pending.firstUnexpected ht hclose (by simp))
  | case7 i opened links t rest hopen hclose ih =>
    obtain ⟨ht, hrest⟩ := getElem?_of_drop hrest
    exact ih (h.plain ht (by simpa using hopen) (by simpa using hclose)) hrest
      (by simp at hend; omega)

end Bracket

namespace Listing

/-- The links of a listing are those of its brackets: all of them have partners, each the other's,
of the same pair and in order, and pairs do not cross. -/
structure LinksBrackets (l : Listing) : Prop where
  isSome_iff : ∀ i, (l.link? i).isSome = true ↔ Bracket.isBracket (l.text i) = true
  symm : ∀ i j, l.link? i = some j → l.link? j = some i
  joins : ∀ i j, l.link? i = some j →
    i < j ∧ Bracket.closerOf? (l.text i) = some (l.text j) ∨
      j < i ∧ Bracket.closerOf? (l.text j) = some (l.text i)
  nested : ∀ o c i, l.link? o = some c → o < i → i < c →
    Bracket.isBracket (l.text i) = true → ∃ j, l.link? i = some j ∧ o < j ∧ j < c

theorem WellFormed.joins_of_link? {l : Listing} (h : l.WellFormed) {i j : Nat}
    (hl : l.link? i = some j) : i < j ∧ Bracket.closerOf? (l.text i) = some (l.text j) ∨
      j < i ∧ Bracket.closerOf? (l.text j) = some (l.text i) := by
  have hi := h.lt_size_of_link? hl
  have hne := (h.nests.link_symm (Nat.zero_le i) hi hl).1
  rcases Nat.lt_or_gt_of_ne hne with hlt | hlt
  · exact .inl ⟨hlt, (h.nests.pair_of_link (Nat.zero_le i) hi hl hlt).closes⟩
  · have hback := h.link?_symm hl
    exact .inr ⟨hlt, (h.nests.pair_of_link (Nat.zero_le j) (h.lt_size_of_link? hback) hback
      hlt).closes⟩

theorem WellFormed.isSome_link?_iff {l : Listing} (h : l.WellFormed) (i : Nat) :
    (l.link? i).isSome = true ↔ Bracket.isBracket (l.text i) = true := by
  constructor
  · intro hi
    obtain ⟨j, hj⟩ := Option.isSome_iff_exists.mp hi
    rcases h.joins_of_link? hj with ⟨_, hpair⟩ | ⟨_, hpair⟩
    · exact Bracket.isBracket_of_isOpener (Bracket.isOpener_of_closerOf? hpair)
    · exact Bracket.isBracket_of_isCloser (Bracket.isCloser_of_closerOf? hpair)
  · intro hi
    have hlt : i < l.size := lt_size_of_text rfl fun he => by rw [he] at hi; cases hi
    rcases Bool.or_eq_true_iff.mp hi with hopen | hclose
    · obtain ⟨c, hc, _⟩ := h.nests.exists_link_of_isOpener (Nat.zero_le i) hlt hopen
      rw [hc]
      rfl
    · obtain ⟨o, ho, _⟩ := h.nests.exists_link_of_isCloser (Nat.zero_le i) hlt hclose
      rw [ho]
      rfl

theorem WellFormed.linksBrackets {l : Listing} (h : l.WellFormed) : l.LinksBrackets := by
  refine ⟨h.isSome_link?_iff, fun i j => h.link?_symm, fun i j => h.joins_of_link?, ?_⟩
  intro o c i ho hoi hic hi
  obtain ⟨j, hj⟩ := Option.isSome_iff_exists.mp ((h.isSome_link?_iff i).mpr hi)
  exact ⟨j, hj, h.nests.no_crossing (Nat.zero_le o) (h.lt_size_of_link? ho) ho hoi hic hj⟩

/-- **Linking is exact.** A text without lexical fault has a listing exactly if its brackets are
balanced. The listing has all of its tokens and links its brackets; otherwise the fault is the one
that is to blame. -/
theorem ofSource_exact {file source : String} {ts : List Token}
    (h : Lexeme.scan .start true source.toList = .ok ts) :
    ((∃ l, ofSource file source = .ok l) ↔ Bracket.Dyck (Bracket.brackets ts)) ∧
    (∀ l, ofSource file source = .ok l → l.tokens.toList = ts ∧ l.LinksBrackets) ∧
    (∀ fault, ofSource file source = .error fault → Bracket.Blames file ts fault) := by
  have hsettles : Bracket.Settles file ts (Bracket.link ts.toArray) :=
    Bracket.settles_linkFrom file (.start ts) (List.drop_zero) (Nat.zero_add _)
  have hsource : ofSource file source = ofTokens file ts.toArray := by rw [ofSource, h]
  have hresult : ofTokens file ts.toArray = match Bracket.link ts.toArray with
    | .ok links => .ok ⟨file, ts.toArray, links⟩
    | .error fault => .error (.ofBracket file fault) := rfl
  cases hlink : Bracket.link ts.toArray with
  | ok links =>
    rw [hlink] at hsettles hresult
    have hok : ofSource file source = .ok ⟨file, ts.toArray, links⟩ := hsource.trans hresult
    refine ⟨⟨fun _ => hsettles, fun _ => ⟨_, hok⟩⟩, fun l hl => ?_, fun fault hfault => ?_⟩
    · have hw := wellFormed_ofSource hl
      obtain rfl := Except.ok.inj (hok.symm.trans hl)
      exact ⟨rfl, hw.linksBrackets⟩
    · rw [hok] at hfault
      cases hfault
  | error fault =>
    rw [hlink] at hsettles hresult
    have herror : ofSource file source = .error (.ofBracket file fault) := hsource.trans hresult
    refine ⟨⟨fun ⟨l, hl⟩ => ?_, fun hd => absurd hd hsettles.1⟩, fun l hl => ?_,
      fun fault' hf => ?_⟩
    · rw [herror] at hl
      cases hl
    · rw [herror] at hl
      cases hl
    · obtain rfl := Except.error.inj (herror.symm.trans hf)
      exact hsettles.2

/-- Nested brackets are linked, and crossing ones are not. -/
theorem ofSource_exact_crossed :
    (∃ ts l, Lexeme.scan .start true "f(a[1]){}".toList = .ok ts ∧
      ofSource "a.cpp" "f(a[1]){}" = .ok l ∧ Bracket.Dyck (Bracket.brackets ts) ∧
      l.tokens.toList = ts ∧ l.LinksBrackets) ∧
    (∃ ts fault, Lexeme.scan .start true "f(a[1)]".toList = .ok ts ∧
      ofSource "a.cpp" "f(a[1)]" = .error fault ∧ ¬ Bracket.Dyck (Bracket.brackets ts) ∧
      Bracket.Blames "a.cpp" ts fault) := by
  constructor
  · obtain ⟨ts, hts⟩ := exists_ok
      (e := Lexeme.scan .start true "f(a[1]){}".toList) (by decide +kernel)
    obtain ⟨l, hl⟩ := exists_ok (e := ofSource "a.cpp" "f(a[1]){}") (by decide +kernel)
    obtain ⟨hiff, hok, _⟩ := @ofSource_exact "a.cpp" "f(a[1]){}" ts hts
    exact ⟨ts, l, hts, hl, hiff.mp ⟨l, hl⟩, hok l hl⟩
  · obtain ⟨ts, hts⟩ := exists_ok
      (e := Lexeme.scan .start true "f(a[1)]".toList) (by decide +kernel)
    obtain ⟨hiff, _, hfault⟩ := @ofSource_exact "a.cpp" "f(a[1)]" ts hts
    have hfails : (ofSource "a.cpp" "f(a[1)]").toOption.isSome = false := by decide +kernel
    cases hsource : ofSource "a.cpp" "f(a[1)]" with
    | ok l =>
      rw [hsource] at hfails
      cases hfails
    | error fault =>
      refine ⟨ts, fault, hts, rfl, fun hd => ?_, hfault fault hsource⟩
      obtain ⟨l, hl⟩ := hiff.mpr hd
      rw [hsource] at hl
      cases hl

end Listing

end StackEscape
