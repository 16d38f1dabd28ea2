import StackEscape.Proofs.Outline.Regions

/-!
# Fences

Declarations and statements are read in ranges: the whole listing, or what stands between two linked
braces. Some of what reads them looks for the end of its range and some does not, and either way
nothing runs over it. This comes from two properties of a range alone, `Fenced`: a bracket that opens
in it closes in it, and the token behind it, a closing brace or none at all, ends whatever is being
read.
-/

namespace StackEscape

namespace Listing

/-- The ranges that declarations and statements are read in. -/
inductive Range (l : Listing) : Nat → Nat → Prop
  | all : Range l 0 l.size
  | braces {o c : Nat} : l.text o = "\x7b" → l.closing? o = some c → Range l (o + 1) c

/-- What keeps a reader in the range from `start` to `stop`. -/
structure Fenced (l : Listing) (start stop : Nat) : Prop where
  pairs : l.PairsWithin start stop
  fence : l.text stop = "\x7d" ∨ l.text stop = ""
  isName : l.isName stop = false
  isString : l.isString stop = false

/-- In the listing of a source no closing brace is a literal. -/
theorem isString_eq_false_of_brace {file source : String} {l : Listing}
    (h : ofSource file source = .ok l) {i : Nat} (hi : l.text i = "\x7d") :
    l.isString i = false := by
  cases hget : l.get? i with
  | none =>
    unfold isString hasKind
    rw [hget]
  | some t =>
    have hmem : t ∈ l.tokens.toList := Array.mem_toList_iff.mpr (Array.mem_of_getElem? hget)
    have hspelled := Lexeme.spelled_scan (scan_of_ofSource h).1 t hmem
    rw [text_of_get? hget] at hi
    have hkind : t.kind ≠ .string := by
      intro hkind
      have hvalue := hspelled.value (by rw [hkind]; decide) (by rw [hkind]; decide)
      rw [hi] at hvalue
      exact absurd hvalue (by decide)
    unfold isString hasKind
    rw [hget]
    exact decide_eq_false hkind

theorem Range.fenced {file source : String} {l : Listing} (h : ofSource file source = .ok l)
    {start stop : Nat} (hr : l.Range start stop) : l.Fenced start stop := by
  have hl := wellFormed_ofSource h
  cases hr with
  | all =>
    have hnone : l.get? l.size = none := Array.getElem?_eq_none (Nat.le_refl _)
    refine ⟨.of_nests hl.nests, .inr (text_eq_empty (Nat.le_refl _)), ?_, ?_⟩
    · unfold isName hasKind
      rw [hnone]
    · unfold isString hasKind
      rw [hnone]
  | braces hbrace hclose =>
    have htext := hl.text_close_brace hclose hbrace
    refine ⟨.of_nests (hl.pair_of_closing? hclose).2.inside, .inl htext, ?_,
      isString_eq_false_of_brace h htext⟩
    refine hl.isName_eq_false ?_
    rw [htext]
    decide

namespace Fenced

variable {l : Listing} {start stop i j : Nat}

theorem mono (h : l.Fenced start stop) (hi : start ≤ i) : l.Fenced i stop :=
  { h with pairs := h.pairs.mono hi }

theorem closes (h : l.Fenced start stop) {o c : Nat} (ho : start ≤ o) (hs : o < stop)
    (hc : l.closing? o = some c) : c < stop := h.pairs o c ho hs hc

/-- A token that does not end a range stands in front of the end. -/
theorem lt_of_text (h : l.Fenced start stop) {w : String} (hj : j ≤ stop) (ht : l.text j = w)
    (hw : w ≠ "\x7d" ∧ w ≠ "") : j < stop := by
  refine Nat.lt_of_le_of_ne hj ?_
  rintro rfl
  exact h.fence.elim (fun hbrace => hw.1 (ht.symm.trans hbrace))
    fun hempty => hw.2 (ht.symm.trans hempty)

theorem lt_of_contains (h : l.Fenced start stop) {words : List String} (hj : j ≤ stop)
    (ht : words.contains (l.text j) = true) (hw : "\x7d" ∉ words ∧ "" ∉ words) : j < stop := by
  have hmem := List.contains_iff_mem.mp ht
  exact h.lt_of_text hj rfl ⟨fun he => hw.1 (he ▸ hmem), fun he => hw.2 (he ▸ hmem)⟩

theorem lt_of_isName (h : l.Fenced start stop) (hj : j ≤ stop) (hname : l.isName j = true) :
    j < stop := by
  refine Nat.lt_of_le_of_ne hj ?_
  rintro rfl
  rw [h.isName] at hname
  cases hname

theorem lt_of_isString (h : l.Fenced start stop) (hj : j ≤ stop) (hstring : l.isString j = true) :
    j < stop := by
  refine Nat.lt_of_le_of_ne hj ?_
  rintro rfl
  rw [h.isString] at hstring
  cases hstring

/-! ## Extents -/

theorem passBracket_le (h : l.Fenced start stop) (hi : start ≤ i) (hs : i < stop) :
    l.passBracket i ≤ stop := by
  unfold passBracket
  split
  · next hc => exact h.closes hi hs hc
  · exact hs

theorem initializerEnd_le (h : l.Fenced start stop) (hi : start ≤ i) (hs : i ≤ stop) :
    i ≤ l.initializerEnd stop i ∧ l.initializerEnd stop i ≤ stop := by
  fun_induction l.initializerEnd stop i with
  | case1 i hlt => exact ⟨Nat.le_refl i, hs⟩
  | case2 i hlt w _ _ ih =>
    have hpass := l.lt_passBracket i
    obtain ⟨hle, hend⟩ := ih (by omega) (h.passBracket_le hi hlt)
    exact ⟨by omega, hend⟩
  | case3 i hlt w _ _ ih =>
    obtain ⟨hle, hend⟩ := ih (by omega) hlt
    exact ⟨by omega, hend⟩
  | case4 => exact ⟨hs, Nat.le_refl stop⟩

theorem statementEndFrom_le (h : l.Fenced start stop) (his : i < stop) (hj : start ≤ j)
    (hs : j ≤ stop) : l.statementEndFrom stop i j ≤ stop := by
  fun_induction l.statementEndFrom stop i j with
  | case1 j hlt => exact hlt
  | case2 j hlt w _ _ c hc hsemicolon =>
    exact h.lt_of_text (h.closes hj hlt hc) hsemicolon (by decide)
  | case3 j hlt w _ _ c hc _ => exact h.closes hj hlt hc
  | case4 j hlt => exact hlt
  | case5 j hlt w _ _ _ ih =>
    have hpass := l.lt_passBracket j
    exact ih (by omega) (h.passBracket_le hj hlt)
  | case6 j hlt w _ _ _ ih => exact ih (by omega) hlt
  | case7 => omega

theorem statementEnd_le (h : l.Fenced start stop) (hi : start ≤ i) (hs : i < stop) :
    l.statementEnd stop i ≤ stop := h.statementEndFrom_le hs hi (Nat.le_of_lt hs)

theorem localTypeEnd?_le (h : l.Fenced start stop) (hi : start ≤ i) (hs : i < stop)
    (hj : Body.localTypeEnd? l stop i = some j) : j ≤ stop := by
  simp only [Body.localTypeEnd?] at hj
  split at hj
  · next hbrace =>
    obtain ⟨c, hc, rfl⟩ := Option.map_eq_some_iff.mp hj
    have hseek := l.le_seek ["\x7b", ";", "=", "("] stop (i + 1)
    have hle : l.seek ["\x7b", ";", "=", "("] stop (i + 1) ≤ stop := seek_le hs
    exact h.closes (by omega) (h.lt_of_text hle hbrace (by decide)) hc
  · cases hj

end Fenced

theorem passWords_le {l : Listing} {words : List String} {stop i : Nat} (h : i ≤ stop) :
    l.passWords words stop i ≤ stop := by
  fun_induction l.passWords words stop i with
  | case1 _ hi _ ih => exact ih hi
  | case2 => exact h
  | case3 => exact h

theorem passNames_le {l : Listing} {others : List String} {stop i : Nat} (h : i ≤ stop) :
    l.passNames others stop i ≤ stop := by
  fun_induction l.passNames others stop i with
  | case1 _ hi _ ih => exact ih hi
  | case2 => exact h
  | case3 => exact h

end Listing

/-! ## Readers that do not look for the end of their range

Between a parameter list and a body three loops go from token to token without a bound. Each of the
relations below is such a loop as it runs: a derivation is a run that comes to an end, with the
result that it has. -/

namespace Heading

/-- The loop over names and `::`. -/
inductive NamesRun (l : Listing) : Nat → Nat → Prop
  | pass {q r : Nat} : (l.isName q || ["::"].contains (l.text q)) = true → NamesRun l (q + 1) r →
      NamesRun l q r
  | done {q : Nat} : (l.isName q || ["::"].contains (l.text q)) = false → NamesRun l q q

/-- The loop over qualifiers, exception specifications and a trailing return type. -/
inductive QualifiersRun (l : Listing) (stop : Nat) : Nat → Option Nat → Prop
  | word {q : Nat} {r : Option Nat} : l.text q ∈ trailingWords → QualifiersRun l stop (q + 1) r →
      QualifiersRun l stop q r
  | specification {q close : Nat} {r : Option Nat} : l.text q ∈ ["noexcept", "throw"] →
      l.text (q + 1) = "(" → l.closing? (q + 1) = some close →
      QualifiersRun l stop (close + 1) r → QualifiersRun l stop q r
  | unlinked {q : Nat} : l.text q ∈ ["noexcept", "throw"] → l.text (q + 1) = "(" →
      l.closing? (q + 1) = none → QualifiersRun l stop q none
  | bare {q : Nat} {r : Option Nat} : l.text q ∈ ["noexcept", "throw"] → l.text (q + 1) ≠ "(" →
      QualifiersRun l stop (q + 1) r → QualifiersRun l stop q r
  | result {q : Nat} {r : Option Nat} : l.text q = "." →
      QualifiersRun l stop (l.seek ["\x7b", ";"] stop q) r → QualifiersRun l stop q r
  | done {q : Nat} : l.text q ∉ trailingWords ++ ["noexcept", "throw", "."] →
      QualifiersRun l stop q (some q)

/-- Where the arguments of a constructor initializer open whose name ends in front of `q`. -/
def argumentsOpen? (l : Listing) (stop q : Nat) : Option Nat :=
  if l.text q = "<" then l.templateEnd? stop q else some q

inductive InitializersRun (l : Listing) (stop : Nat) : Nat → Option Nat → Prop
  | unfinished {q name : Nat} : NamesRun l q name → argumentsOpen? l stop name = none →
      InitializersRun l stop q none
  | bare {q name opener : Nat} : NamesRun l q name → argumentsOpen? l stop name = some opener →
      l.text opener ∉ ["(", "\x7b"] → InitializersRun l stop q none
  | unlinked {q name opener : Nat} : NamesRun l q name →
      argumentsOpen? l stop name = some opener → l.text opener ∈ ["(", "\x7b"] →
      l.closing? opener = none → InitializersRun l stop q none
  | next {q name opener close : Nat} {r : Option Nat} : NamesRun l q name →
      argumentsOpen? l stop name = some opener → l.text opener ∈ ["(", "\x7b"] →
      l.closing? opener = some close → l.text (close + 1) = "," →
      InitializersRun l stop (close + 2) r → InitializersRun l stop q r
  | last {q name opener close : Nat} : NamesRun l q name →
      argumentsOpen? l stop name = some opener → l.text opener ∈ ["(", "\x7b"] →
      l.closing? opener = some close → l.text (close + 1) ≠ "," →
      InitializersRun l stop q (some (close + 1))

variable {l : Listing} {start stop q : Nat}

theorem namesRun (h : l.Fenced start stop) (hs : q ≤ stop) :
    NamesRun l q (l.passNames ["::"] stop q) := by
  fun_induction l.passNames ["::"] stop q with
  | case1 q hlt hpass ih => exact .pass hpass (ih hlt)
  | case2 q hlt hpass => exact .done (Bool.eq_false_iff.mpr hpass)
  | case3 q hge =>
    have hend : q = stop := Nat.le_antisymm hs (Nat.not_lt.mp hge)
    refine .done (Bool.eq_false_iff.mpr fun hpass => hge ?_)
    rcases Bool.or_eq_true_iff.mp hpass with hname | hcolons
    · exact h.lt_of_isName hs hname
    · exact h.lt_of_contains hs hcolons (by decide)

theorem mem_of_throws {w : String} (h : (w = "noexcept" || w = "throw") = true) :
    w ∈ ["noexcept", "throw"] := by
  simpa using h

theorem mem_of_opens {w : String} (h : (w = "(" || w = "\x7b") = true) : w ∈ ["(", "\x7b"] := by
  simpa using h

/-- The loop over qualifiers comes to an end by itself, in its range. -/
theorem qualifiersRun (h : l.Fenced start stop) (hq : start ≤ q) (hs : q ≤ stop) :
    QualifiersRun l stop q (passQualifiers? l stop q) ∧
      ∀ j ∈ passQualifiers? l stop q, j ≤ stop := by
  fun_induction passQualifiers? l stop q with
  | case1 q hlt w hw ih =>
    exact (ih (by omega) hlt).imp_left (.word (List.contains_iff_mem.mp hw))
  | case2 q hlt w _ hw hparen close hc ih =>
    have hlt' := h.lt_of_text (j := q + 1) hlt hparen (by decide)
    have hclose := h.closes (by omega) hlt' hc
    have hopen := Listing.lt_of_closing? hc
    exact (ih (by omega) hclose).imp_left (.specification (mem_of_throws hw) hparen hc)
  | case3 q hlt w _ hw hparen hc =>
    exact ⟨.unlinked (mem_of_throws hw) hparen hc, fun _ hj => by cases hj⟩
  | case4 q hlt w _ hw hparen ih =>
    exact (ih (by omega) hlt).imp_left (.bare (mem_of_throws hw) hparen)
  | case5 q hlt w _ _ hdot ih =>
    have hseek : l.seek ["\x7b", ";"] stop q = l.seek ["\x7b", ";"] stop (q + 1) := by
      have hno : ["\x7b", ";"].contains (l.text q) ≠ true := by
        change l.text q = "." at hdot
        rw [hdot]
        decide
      rw [Listing.seek, if_pos hlt, if_neg hno]
    have hle := l.le_seek ["\x7b", ";"] stop (q + 1)
    obtain ⟨hrun, hend⟩ := ih (by omega) (Listing.seek_le (i := q + 1) hlt)
    exact ⟨.result hdot (hseek.symm ▸ hrun), hend⟩
  | case6 q hlt w hword hthrow hdot =>
    refine ⟨.done fun hmem => ?_, fun j hj => Option.some.inj hj ▸ hs⟩
    rcases List.mem_append.mp hmem with hmem | hmem
    · exact hword (List.contains_iff_mem.mpr hmem)
    · simp only [List.mem_cons, List.not_mem_nil, or_false] at hmem
      rcases hmem with hw | hw | hw
      · exact hthrow (Bool.or_eq_true_iff.mpr (.inl (decide_eq_true hw)))
      · exact hthrow (Bool.or_eq_true_iff.mpr (.inr (decide_eq_true hw)))
      · exact hdot hw
  | case7 q hge =>
    refine ⟨.done fun hmem => hge ?_, fun j hj => Option.some.inj hj ▸ hs⟩
    exact h.lt_of_contains hs (List.contains_iff_mem.mpr hmem) (by decide)

theorem argumentsOpen?_le {opener : Nat} (hs : q ≤ stop)
    (ho : argumentsOpen? l stop q = some opener) : q ≤ opener ∧ opener ≤ stop := by
  unfold argumentsOpen? at ho
  split at ho
  · exact ⟨Nat.le_of_lt (Listing.lt_templateEnd? ho), Listing.templateEndFrom?_le ho⟩
  · obtain rfl := Option.some.inj ho
    exact ⟨Nat.le_refl q, hs⟩

/-- The loop over constructor initializers comes to an end by itself. -/
theorem initializersRun (h : l.Fenced start stop) (hq : start ≤ q) (hs : q ≤ stop) :
    InitializersRun l stop q (passInitializers? l stop q) := by
  have hinside : ∀ {q opener close : Nat}, start ≤ q → q ≤ stop →
      argumentsOpen? l stop (l.passNames ["::"] stop q) = some opener →
      (l.text opener = "(" || l.text opener = "\x7b") = true → l.closing? opener = some close →
      q < close ∧ close < stop := by
    intro q opener close hq hs hsome hparen hc
    have hname := l.le_passNames ["::"] stop q
    obtain ⟨hle, hend⟩ := argumentsOpen?_le (Listing.passNames_le hs) hsome
    have hlt := Listing.lt_of_closing? hc
    have hopener : opener < stop := by
      rcases Bool.or_eq_true_iff.mp hparen with hw | hw
      · exact h.lt_of_text hend (of_decide_eq_true hw) (by decide)
      · exact h.lt_of_text hend (of_decide_eq_true hw) (by decide)
    exact ⟨by omega, h.closes (by omega) hopener hc⟩
  fun_induction passInitializers? l stop q with
  | case1 q hlt name hnone => exact .unfinished (namesRun h hs) hnone
  | case2 q hlt name opener hsome hparen close hc hcomma ih =>
    obtain ⟨hopen, hclose⟩ := hinside hq hs hsome hparen hc
    have hlt' := h.lt_of_text (j := close + 1) hclose hcomma (by decide)
    exact .next (namesRun h hs) hsome (mem_of_opens hparen) hc hcomma (ih (by omega) hlt')
  | case3 q hlt name opener hsome hparen close hc hcomma =>
    exact .last (namesRun h hs) hsome (mem_of_opens hparen) hc hcomma
  | case4 q hlt name opener hsome hparen hc =>
    exact .unlinked (namesRun h hs) hsome (mem_of_opens hparen) hc
  | case5 q hlt name opener hsome hparen =>
    exact .bare (namesRun h hs) hsome fun hmem => hparen (by simpa using hmem)
  | case6 q hge =>
    have hend : q = stop := Nat.le_antisymm hs (Nat.not_lt.mp hge)
    have hnames : NamesRun l q q := by
      have hrun := namesRun h hs
      rwa [Listing.passNames, if_neg hge] at hrun
    have hopener : argumentsOpen? l stop q = some q :=
      if_neg fun hangle => hge (h.lt_of_text hs hangle (by decide))
    refine .bare hnames hopener fun hmem => hge ?_
    exact h.lt_of_contains hs (List.contains_iff_mem.mpr hmem) (by decide)

def braceAt? (l : Listing) (stop q : Nat) : Option Nat :=
  if q < stop && l.text q = "\x7b" then some q else none

inductive BodyRun (l : Listing) (stop q : Nat) : Option Nat → Prop
  | lost : QualifiersRun l stop q none → BodyRun l stop q none
  | plain {j : Nat} : QualifiersRun l stop q (some j) → l.text j ≠ ":" →
      BodyRun l stop q (braceAt? l stop j)
  | listed {j : Nat} {r : Option Nat} : QualifiersRun l stop q (some j) → l.text j = ":" →
      InitializersRun l stop (j + 1) r → BodyRun l stop q (r.bind (braceAt? l stop))

/-- The search for a body comes to an end by itself, with a brace in its range if with any. -/
theorem bodyRun (h : l.Fenced start stop) (hq : start ≤ q) (hs : q ≤ stop) :
    BodyRun l stop q (bodyOpen? l stop q) := by
  obtain ⟨hrun, hend⟩ := qualifiersRun h hq hs
  unfold bodyOpen?
  cases hj : passQualifiers? l stop q with
  | none =>
    rw [hj] at hrun
    exact .lost hrun
  | some j =>
    rw [hj] at hrun
    have hjs : j ≤ stop := hend j hj
    have hqj := le_passQualifiers? hj
    dsimp only
    by_cases hcolon : l.text j = ":"
    · have hlt := h.lt_of_text hjs hcolon (by decide)
      have hlisted := BodyRun.listed hrun hcolon
        (initializersRun h (q := j + 1) (by omega) hlt)
      rw [if_pos hcolon]
      cases hr : passInitializers? l stop (j + 1) with
      | none =>
        rw [hr] at hlisted
        exact hlisted
      | some k =>
        rw [hr] at hlisted
        exact hlisted
    · rw [if_neg hcolon]
      exact .plain hrun hcolon

end Heading

end StackEscape
