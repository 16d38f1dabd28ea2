import Mathlib.GroupTheory.GroupAction.MultipleTransitivity
import StackEscape.Outline.Declarator
import StackEscape.Proofs.Listing.WellFormed

/-!
# Renamed listings

Two listings correspond if one is the other with its names renamed, literals and numbers being
arbitrary. Nothing that reads only sorts of tokens, brackets and the words of the language can tell
the two apart. A renaming is given on the names of a source; it extends to an injective map on all
texts, which is what the later modules work with.
-/

namespace StackEscape

namespace Word

/-- The names that the analysis knows: the reserved words, those that may follow a parameter list,
and those of the patterns. -/
def reserved : List String :=
  builtinTypes ++ specifiers ++ statementWords
    ++ ["override", "final", "noexcept", "free", "std", "string"]

/-- Whether a text is that of no literal, of no number, and of no name but a reserved one. -/
def isFixed (w : String) : Bool :=
  !Lexeme.isValue w && (!Lexeme.isIdentifier w || reserved.contains w)

end Word

/-- An injective map on texts that leaves the reserved words and the empty text alone. -/
structure Renaming (ρ : String → String) : Prop where
  injective : Function.Injective ρ
  reserved : ∀ w ∈ Word.reserved, ρ w = w
  empty : ρ "" = ""

/-! ## Tokens -/

/-- A token of the same sort: a name is renamed, an operator is the same, and a literal or a number
is arbitrary. -/
structure Token.Corresponds (ρ : String → String) (t t' : Token) : Prop where
  kind : t'.kind = t.kind
  name : t.kind = .name → t'.text = ρ t.text
  operator : t.kind = .operator → t'.text = t.text

instance (ρ : String → String) (t t' : Token) : Decidable (t.Corresponds ρ t') :=
  decidable_of_iff (t'.kind = t.kind ∧ (t.kind = .name → t'.text = ρ t.text) ∧
      (t.kind = .operator → t'.text = t.text))
    ⟨fun ⟨hk, hn, ho⟩ => ⟨hk, hn, ho⟩, fun h => ⟨h.kind, h.name, h.operator⟩⟩

/-- What corresponding tokens have in common: they are the same fixed word or none, and both are
spelled like names or none is. -/
structure Token.Renamed (ρ : String → String) (t t' : Token) : Prop where
  kind : t'.kind = t.kind
  name : t.kind = .name → t'.text = ρ t.text
  fixed : ∀ w, Word.isFixed w = true → (t'.text = w ↔ t.text = w)
  spelled : t.kind = .name ↔ Lexeme.isIdentifier t.text = true
  spelled' : t.kind = .name ↔ Lexeme.isIdentifier t'.text = true

theorem Token.Spelled.ne_of_fixed {t : Token} (ht : t.Spelled) (hname : t.kind ≠ .name)
    (hoperator : t.kind ≠ .operator) {w : String} (hw : Word.isFixed w = true) : t.text ≠ w := by
  rintro rfl
  have hvalue := (Bool.and_eq_true_iff.mp hw).1
  rw [ht.value hname hoperator] at hvalue
  cases hvalue

/-- A name that is spelled like a fixed word is a reserved one. -/
theorem Token.Spelled.reserved_of_fixed {t : Token} (ht : t.Spelled) (hname : t.kind = .name)
    (hfixed : Word.isFixed t.text = true) : t.text ∈ Word.reserved := by
  have hword := (Bool.and_eq_true_iff.mp hfixed).2
  rw [ht.name_iff.mp hname] at hword
  simpa using hword

theorem Token.Corresponds.renamed {ρ : String → String} (hρ : Renaming ρ) {t t' : Token}
    (h : t.Corresponds ρ t') (ht : t.Spelled) (ht' : t'.Spelled) : t.Renamed ρ t' := by
  refine ⟨h.kind, h.name, fun w hw => ?_, ht.name_iff, h.kind ▸ ht'.name_iff⟩
  by_cases hname : t.kind = .name
  · have hname' := h.kind.trans hname
    rw [h.name hname]
    constructor
    · rintro rfl
      rw [← h.name hname] at hw ⊢
      refine hρ.injective ?_
      rw [hρ.reserved _ (ht'.reserved_of_fixed hname' hw), h.name hname]
    · rintro rfl
      exact hρ.reserved _ (ht.reserved_of_fixed hname hw)
  · by_cases hoperator : t.kind = .operator
    · rw [h.operator hoperator]
    · have hne := ht.ne_of_fixed hname hoperator hw
      have hne' := ht'.ne_of_fixed (h.kind ▸ hname) (h.kind ▸ hoperator) hw
      exact ⟨fun he => absurd he hne', fun he => absurd he hne⟩

/-! ## Brackets -/

namespace Token.Renamed

variable {ρ : String → String} {t t' : Token}

theorem closerOf?_eq (h : t.Renamed ρ t') :
    Bracket.closerOf? t'.text = Bracket.closerOf? t.text := by
  unfold Bracket.closerOf?
  simp only [h.fixed "(" (by decide), h.fixed "[" (by decide), h.fixed "\x7b" (by decide)]

theorem isOpener_eq (h : t.Renamed ρ t') :
    Bracket.isOpener t'.text = Bracket.isOpener t.text := by
  rw [Bracket.isOpener, h.closerOf?_eq, Bracket.isOpener]

theorem isCloser_eq (h : t.Renamed ρ t') :
    Bracket.isCloser t'.text = Bracket.isCloser t.text := by
  unfold Bracket.isCloser
  simp only [h.fixed ")" (by decide), h.fixed "]" (by decide), h.fixed "\x7d" (by decide)]

/-- A bracket that closes another one still does. -/
theorem closes_iff {u u' : Token} (hu : u.Renamed ρ u') (h : t.Renamed ρ t') :
    Bracket.closerOf? u'.text = some t'.text ↔ Bracket.closerOf? u.text = some t.text := by
  rw [hu.closerOf?_eq]
  cases hc : Bracket.closerOf? u.text with
  | none => exact ⟨nofun, nofun⟩
  | some w =>
    have hw : Word.isFixed w = true := by
      unfold Bracket.closerOf? at hc
      repeat' split at hc
      all_goals first
        | (obtain rfl := Option.some.inj hc; decide)
        | cases hc
    simpa only [Option.some.injEq, eq_comm] using h.fixed w hw

end Token.Renamed

/-- Neither of two failures is a result. -/
theorem Bracket.failure_iff {fault fault' : Fault} {result : Array (Option Nat)} :
    Except.error fault = Except.ok result ↔ Except.error fault' = .ok result := ⟨nofun, nofun⟩

/-- The brackets of renamed tokens pair where those of the tokens do. -/
theorem Bracket.linkFrom_renamed {ρ : String → String} {ts ts' : List Token}
    (h : List.Forall₂ (Token.Renamed ρ) ts ts') {i : Nat} {opened opened' : List (Nat × Token)}
    (ho : List.Forall₂ (fun o o' => o'.1 = o.1 ∧ o.2.Renamed ρ o'.2) opened opened')
    {links result : Array (Option Nat)} :
    linkFrom i opened' links ts' = .ok result ↔ linkFrom i opened links ts = .ok result := by
  induction h generalizing i opened opened' links with
  | nil =>
    cases ho with
    | nil => exact .rfl
    | cons _ _ => exact failure_iff
  | @cons t t' ts ts' ht _ ih =>
    simp only [linkFrom, ht.isOpener_eq, ht.isCloser_eq]
    split
    · have hpush : List.Forall₂ (fun o o' => o'.1 = o.1 ∧ o.2.Renamed ρ o'.2)
          ((i, t) :: opened) ((i, t') :: opened') := .cons ⟨rfl, ht⟩ ho
      exact ih hpush
    · split
      · cases ho with
        | nil => exact failure_iff
        | cons hfirst hrest =>
          obtain ⟨hplace, hbracket⟩ := hfirst
          simp only [hbracket.closes_iff ht, hplace]
          split
          · exact ih hrest
          · exact failure_iff
      · exact ih ho

namespace Listing

/-- A listing and what becomes of it when its names are renamed. -/
structure Renamed (ρ : String → String) (l l' : Listing) : Prop where
  names : Renaming ρ
  tokens : List.Forall₂ (Token.Renamed ρ) l.tokens.toList l'.tokens.toList
  links : l'.links = l.links

namespace Renamed

variable {ρ : String → String} {l l' : Listing} {i : Nat}

theorem size_eq (h : l.Renamed ρ l') : l'.size = l.size := by
  have hlength := h.tokens.length_eq
  simpa [size] using hlength.symm

theorem cases_get? (h : l.Renamed ρ l') (i : Nat) :
    (l.get? i = none ∧ l'.get? i = none) ∨
      ∃ t t', l.get? i = some t ∧ l'.get? i = some t' ∧ t.Renamed ρ t' := by
  rcases Nat.lt_or_ge i l.size with hi | hi
  · have hi' : i < l'.size := h.size_eq.symm ▸ hi
    refine .inr ⟨_, _, Array.getElem?_eq_getElem hi, Array.getElem?_eq_getElem hi', ?_⟩
    exact h.tokens.get hi hi'
  · have hi' : l'.size ≤ i := h.size_eq.symm ▸ hi
    exact .inl ⟨Array.getElem?_eq_none hi, Array.getElem?_eq_none hi'⟩

theorem hasKind_eq (h : l.Renamed ρ l') (k : Kind) (i : Nat) :
    l'.hasKind k i = l.hasKind k i := by
  unfold hasKind
  rcases h.cases_get? i with ⟨hn, hn'⟩ | ⟨t, t', ht, ht', hr⟩
  · rw [hn, hn']
  · rw [ht, ht']
    dsimp only
    rw [hr.kind]

theorem isName_eq (h : l.Renamed ρ l') (i : Nat) : l'.isName i = l.isName i :=
  h.hasKind_eq .name i

theorem isString_eq (h : l.Renamed ρ l') (i : Nat) : l'.isString i = l.isString i :=
  h.hasKind_eq .string i

theorem text_of_isName (h : l.Renamed ρ l') (hi : l.isName i = true) :
    l'.text i = ρ (l.text i) := by
  obtain ⟨t, ht, hk⟩ := isName_iff.mp hi
  rcases h.cases_get? i with ⟨hn, _⟩ | ⟨u, u', hu, hu', hr⟩
  · rw [hn] at ht
    cases ht
  · obtain rfl := Option.some.inj (ht.symm.trans hu)
    rw [text_of_get? hu, text_of_get? hu', hr.name hk]

/-- A token is renamed, or it is no name. -/
theorem cases_text (h : l.Renamed ρ l') (i : Nat) :
    l'.text i = ρ (l.text i) ∨
      Lexeme.isIdentifier (l.text i) = false ∧ Lexeme.isIdentifier (l'.text i) = false := by
  rcases h.cases_get? i with ⟨hn, hn'⟩ | ⟨t, t', ht, ht', hr⟩
  · simp only [text, hn, hn', h.names.empty]
    exact .inl trivial
  · rw [text_of_get? ht, text_of_get? ht']
    by_cases hk : t.kind = .name
    · exact .inl (hr.name hk)
    · rw [hr.spelled] at hk
      have hk' : ¬Lexeme.isIdentifier t'.text = true :=
        fun hi => hk (hr.spelled.mp (hr.spelled'.mpr hi))
      exact .inr ⟨Bool.eq_false_iff.mpr hk, Bool.eq_false_iff.mpr hk'⟩

/-- A name is spelled like one before and after it is renamed. -/
theorem isIdentifier_of_isName (h : l.Renamed ρ l') (hi : l.isName i = true) :
    Lexeme.isIdentifier (l.text i) = true ∧ Lexeme.isIdentifier (ρ (l.text i)) = true := by
  rw [← h.text_of_isName hi]
  obtain ⟨t, ht, hk⟩ := isName_iff.mp hi
  rcases h.cases_get? i with ⟨hn, _⟩ | ⟨u, u', hu, hu', hr⟩
  · rw [hn] at ht
    cases ht
  · obtain rfl := Option.some.inj (ht.symm.trans hu)
    rw [text_of_get? hu, text_of_get? hu']
    exact ⟨hr.spelled.mp hk, hr.spelled'.mp hk⟩

/-- The tokens with the text of a fixed word are the same. -/
theorem text_eq (h : l.Renamed ρ l') {w : String} (hw : Word.isFixed w = true) (i : Nat) :
    (l'.text i = w) = (l.text i = w) := by
  unfold text
  rcases h.cases_get? i with ⟨hn, hn'⟩ | ⟨t, t', ht, ht', hr⟩
  · rw [hn, hn']
  · rw [ht, ht']
    exact propext (hr.fixed w hw)

theorem contains_text (h : l.Renamed ρ l') {ws : List String} (hws : ws.all Word.isFixed = true)
    (i : Nat) : ws.contains (l'.text i) = ws.contains (l.text i) := by
  rw [Bool.eq_iff_iff, List.contains_iff_mem, List.contains_iff_mem]
  have hw := List.all_eq_true.mp hws
  constructor
  · intro hm
    rwa [← (h.text_eq (hw _ hm) i).mp rfl] at hm
  · intro hm
    rwa [← (h.text_eq (hw _ hm) i).mpr rfl] at hm

theorem link?_eq (h : l.Renamed ρ l') (i : Nat) : l'.link? i = l.link? i := by
  unfold link?
  rw [h.links]

theorem closing?_eq (h : l.Renamed ρ l') (i : Nat) : l'.closing? i = l.closing? i := by
  unfold closing?
  rw [h.link?_eq]

theorem opening?_eq (h : l.Renamed ρ l') (i : Nat) : l'.opening? i = l.opening? i := by
  unfold opening?
  rw [h.link?_eq]

end Renamed

end Listing

/-! ## Renamings of a source -/

/-- The tokens `ts'` are `ts` with their names renamed: different names stay different, the reserved
words stay as they are, and no other name becomes one of them. -/
structure Renames (ρ : String → String) (ts ts' : List Token) : Prop where
  tokens : List.Forall₂ (Token.Corresponds ρ) ts ts'
  injective : ∀ t ∈ ts, ∀ u ∈ ts, t.kind = .name → u.kind = .name → ρ t.text = ρ u.text →
    t.text = u.text
  reserved : ∀ w ∈ Word.reserved, ρ w = w
  keeps : ∀ t ∈ ts, t.kind = .name → ρ t.text ∈ Word.reserved → t.text ∈ Word.reserved

instance (ρ : String → String) (ts ts' : List Token) : Decidable (Renames ρ ts ts') :=
  decidable_of_iff (List.Forall₂ (Token.Corresponds ρ) ts ts' ∧
      (∀ t ∈ ts, ∀ u ∈ ts, t.kind = .name → u.kind = .name → ρ t.text = ρ u.text →
        t.text = u.text) ∧
      (∀ w ∈ Word.reserved, ρ w = w) ∧
      ∀ t ∈ ts, t.kind = .name → ρ t.text ∈ Word.reserved → t.text ∈ Word.reserved)
    ⟨fun ⟨ht, hi, hr, hk⟩ => ⟨ht, hi, hr, hk⟩,
      fun h => ⟨h.tokens, h.injective, h.reserved, h.keeps⟩⟩

/-- What is injective on finitely many texts agrees there with an injective map. -/
theorem exists_injective_eqOn {f : String → String} {s : Finset String}
    (hf : Set.InjOn f s) : ∃ σ : String → String, Function.Injective σ ∧ ∀ w ∈ s, σ w = f w := by
  let x : Fin s.card ↪ String :=
    ⟨fun i => s.equivFin.symm i, Subtype.val_injective.comp s.equivFin.symm.injective⟩
  let y : Fin s.card ↪ String :=
    ⟨fun i => f (x i), fun i j h => x.injective
      (hf (s.equivFin.symm i).2 (s.equivFin.symm j).2 h)⟩
  have htransitive := Equiv.Perm.isMultiplyPretransitive String s.card
  obtain ⟨σ, hσ⟩ := MulAction.exists_smul_eq (Equiv.Perm String) x y
  refine ⟨σ, σ.injective, fun w hw => ?_⟩
  have happly : (σ • x) (s.equivFin ⟨w, hw⟩) = y (s.equivFin ⟨w, hw⟩) := by rw [hσ]
  have hx : x (s.equivFin ⟨w, hw⟩) = w :=
    congrArg Subtype.val (s.equivFin.symm_apply_apply ⟨w, hw⟩)
  change σ (x _) = f (x _) at happly
  rwa [hx] at happly

namespace Renames

variable {ρ : String → String} {ts ts' : List Token}

/-- The tokens of two sources, one of which can be seen to be the other one renamed. -/
theorem exists_of_any {source source' : String}
    (h : (Lexeme.scan .start true source.toList).toOption.any (fun ts =>
      (Lexeme.scan .start true source'.toList).toOption.any fun ts' =>
        decide (Renames ρ ts ts')) = true) :
    ∃ ts ts', Lexeme.scan .start true source.toList = .ok ts ∧
      Lexeme.scan .start true source'.toList = .ok ts' ∧ Renames ρ ts ts' := by
  cases hscan : Lexeme.scan .start true source.toList with
  | error fault => rw [hscan] at h; cases h
  | ok ts =>
    cases hscan' : Lexeme.scan .start true source'.toList with
    | error fault => rw [hscan, hscan'] at h; cases h
    | ok ts' =>
      rw [hscan, hscan'] at h
      exact ⟨ts, ts', rfl, rfl, of_decide_eq_true h⟩

/-- The texts that a renaming of a source is about: its names and the reserved words. -/
def known (ts : List Token) : List String :=
  (ts.filter (·.kind = .name)).map Token.text ++ Word.reserved

theorem mem_known {w : String} :
    w ∈ known ts ↔ (∃ t ∈ ts, t.kind = .name ∧ t.text = w) ∨ w ∈ Word.reserved := by
  simp [known, and_assoc]

theorem injective_of_mem_known (h : Renames ρ ts ts') {v w : String} (hv : v ∈ known ts)
    (hw : w ∈ known ts) (heq : ρ v = ρ w) : v = w := by
  rcases mem_known.mp hv with ⟨t, ht, htk, rfl⟩ | hv
  · rcases mem_known.mp hw with ⟨u, hu, huk, rfl⟩ | hw
    · exact h.injective t ht u hu htk huk heq
    · rw [h.reserved w hw] at heq
      rw [← h.reserved t.text (h.keeps t ht htk (heq ▸ hw)), heq]
  · rw [h.reserved v hv] at heq
    rcases mem_known.mp hw with ⟨u, hu, huk, rfl⟩ | hw
    · rw [← h.reserved u.text (h.keeps u hu huk (heq ▸ hv)), heq]
    · rw [heq, h.reserved w hw]

/-- No text that a renaming is about is empty, or becomes empty. -/
theorem ne_empty_of_mem_known (h : Renames ρ ts ts') (hs : ∀ t ∈ ts, t.Spelled)
    (hs' : ∀ t ∈ ts', t.Spelled) {w : String} (hw : w ∈ known ts) : w ≠ "" ∧ ρ w ≠ "" := by
  have hname : ∀ {t : Token}, t.Spelled → t.kind = .name → t.text ≠ "" := by
    intro t ht hk he
    have hidentifier := ht.name_iff.mp hk
    rw [he] at hidentifier
    exact absurd hidentifier (by decide)
  rcases mem_known.mp hw with ⟨t, ht, hk, rfl⟩ | hw
  · refine ⟨hname (hs t ht) hk, ?_⟩
    obtain ⟨i, hi, rfl⟩ := List.mem_iff_getElem.mp ht
    have hi' : i < ts'.length := h.tokens.length_eq ▸ hi
    have hr : ts[i].Corresponds ρ ts'[i] := h.tokens.get hi hi'
    rw [← hr.name hk]
    exact hname (hs' _ (List.getElem_mem hi')) (hr.kind.trans hk)
  · rw [h.reserved w hw, and_self]
    rintro rfl
    exact absurd hw (by decide)

/-- A renaming of a source extends to all texts. -/
theorem exists_renaming (h : Renames ρ ts ts') (hs : ∀ t ∈ ts, t.Spelled)
    (hs' : ∀ t ∈ ts', t.Spelled) :
    ∃ σ, Renaming σ ∧ ∀ t ∈ ts, t.kind = .name → σ t.text = ρ t.text := by
  have hinjective : Set.InjOn (fun w => if w = "" then "" else ρ w)
      (insert "" (known ts).toFinset : Finset String) := by
    intro v hv w hw heq
    rw [Finset.mem_coe, Finset.mem_insert, List.mem_toFinset] at hv hw
    rcases hv with rfl | hv
    · rcases hw with rfl | hw
      · rfl
      · obtain ⟨hne, hρ⟩ := h.ne_empty_of_mem_known hs hs' hw
        simp only [if_true, if_neg hne] at heq
        exact absurd heq.symm hρ
    · obtain ⟨hne, hρ⟩ := h.ne_empty_of_mem_known hs hs' hv
      rcases hw with rfl | hw
      · simp only [if_true, if_neg hne] at heq
        exact absurd heq hρ
      · simp only [if_neg hne, if_neg (h.ne_empty_of_mem_known hs hs' hw).1] at heq
        exact h.injective_of_mem_known hv hw heq
  obtain ⟨σ, hσ, hagree⟩ := exists_injective_eqOn hinjective
  have hknown : ∀ w ∈ known ts, σ w = ρ w := by
    intro w hw
    rw [hagree w (Finset.mem_insert_of_mem (List.mem_toFinset.mpr hw)),
      if_neg (h.ne_empty_of_mem_known hs hs' hw).1]
  refine ⟨σ, ⟨hσ, fun w hw => ?_, ?_⟩,
    fun t ht hk => hknown _ (mem_known.mpr (.inl ⟨t, ht, hk, rfl⟩))⟩
  · rw [hknown w (mem_known.mpr (.inr hw)), h.reserved w hw]
  · rw [hagree "" (Finset.mem_insert_self ..), if_pos rfl]

end Renames

/-- **Renaming keeps a listing one.** If the tokens of a source are those of another one renamed,
then its brackets pair if those of the other one do, and in the same way. -/
theorem Listing.cases_renamed {ρ : String → String} {source source' : String} {ts ts' : List Token}
    (hscan : Lexeme.scan .start true source.toList = .ok ts)
    (hscan' : Lexeme.scan .start true source'.toList = .ok ts') (h : Renames ρ ts ts')
    (file file' : String) :
    (∃ fault fault', ofSource file source = .error fault ∧ ofSource file' source' = .error fault') ∨
      ∃ l l' σ, ofSource file source = .ok l ∧ ofSource file' source' = .ok l' ∧ l.Renamed σ l' ∧
        ∀ i, l.isName i = true → σ (l.text i) = ρ (l.text i) := by
  have hs := Lexeme.spelled_scan hscan
  have hs' := Lexeme.spelled_scan hscan'
  obtain ⟨σ, hσ, hagree⟩ := h.exists_renaming hs hs'
  have htokens : List.Forall₂ (Token.Renamed σ) ts ts' := by
    refine List.forall₂_iff_get.mpr ⟨h.tokens.length_eq, fun i hi hi' => ?_⟩
    have hr := h.tokens.get hi hi'
    have hmem := List.get_mem ts ⟨i, hi⟩
    refine Token.Corresponds.renamed hσ ⟨hr.kind, fun hk => ?_, hr.operator⟩ (hs _ hmem)
      (hs' _ (List.get_mem ts' ⟨i, hi'⟩))
    rw [hr.name hk, hagree _ hmem hk]
  have hlinks : ∀ links,
      Bracket.link ts'.toArray = .ok links ↔ Bracket.link ts.toArray = .ok links := by
    intro links
    unfold Bracket.link
    rw [List.size_toArray, List.size_toArray, ← htokens.length_eq]
    exact Bracket.linkFrom_renamed htokens .nil
  simp only [ofSource, hscan, hscan', ofTokens]
  cases hlink : Bracket.link ts.toArray with
  | error fault =>
    cases hlink' : Bracket.link ts'.toArray with
    | error fault' => exact .inl ⟨_, _, rfl, rfl⟩
    | ok links =>
      rw [(hlinks links).mp hlink'] at hlink
      cases hlink
  | ok links =>
    rw [(hlinks links).mpr hlink]
    refine .inr ⟨_, _, σ, rfl, rfl, ⟨hσ, htokens, rfl⟩, fun i hi => ?_⟩
    obtain ⟨t, ht, hk⟩ := isName_iff.mp hi
    rw [text_of_get? ht]
    exact hagree t (List.mem_of_getElem? (by simpa [get?] using ht)) hk

end StackEscape
