import StackEscape.Proofs.Outline.Balance

/-!
# The walk through a function body

The steps of a function body come from a walk that mostly goes from token to token and sometimes
jumps. `Moves` says what one move can be. The jumps leave two sorts of tokens unread: those in front
of the first name of a declaration, and those passed over along with a local type. The second sort
is `PassesOver`; nothing else keeps a name from being mentioned.
-/

namespace StackEscape

namespace Listing

variable {l : Listing}

/-- What is passed on the way to the first target is no target. -/
theorem not_mem_of_lt_seek {targets : List String} {stop i x : Nat} (hi : i ≤ x)
    (hx : x < l.seek targets stop i) : l.text x ∉ targets := by
  fun_induction l.seek targets stop i with
  | case1 => omega
  | case2 i _ hw ih =>
    rcases Nat.eq_or_lt_of_le hi with rfl | hi
    · exact fun hmem => hw (List.contains_iff_mem.mpr hmem)
    · exact ih hi hx
  | case3 => omega

/-- The first of `{`, `;`, `=` and `(` behind the word for a type at `m` is the `{` at `o`. -/
structure OpensFirst (l : Listing) (m o : Nat) : Prop where
  behind : m < o
  brace : l.text o = "\x7b"
  first : ∀ x < o, m < x → l.text x ∉ ["\x7b", ";", "=", "("]

/-- The token at `x` ends what the word for a type at `m` begins, and no block ends between. -/
def CompletesType (l : Listing) (m x : Nat) : Prop :=
  m < x ∧ l.text x ∈ ["\x7b", ";", "=", "("] ∧ ∀ y < x, m < y → l.text y ≠ "\x7d"

instance (l : Listing) (m x : Nat) : Decidable (l.CompletesType m x) :=
  inferInstanceAs (Decidable (_ ∧ _ ∧ _))

/-- Every word for a type, between the braces of a function, comes before a `{`, `;`, `=` or `(`
that no block ends in front of. -/
def TypesComplete (l : Listing) (b e : Nat) : Prop :=
  ∀ m < e, b < m → l.text m ∈ Body.typeWords → ∃ x, l.CompletesType m x

instance (l : Listing) (b e : Nat) : Decidable (l.TypesComplete b e) :=
  decidable_of_iff (∀ m < e, b < m → l.text m ∈ Body.typeWords →
      ∃ x < l.size, l.CompletesType m x) <| by
    refine forall₄_congr fun m _ _ _ => ⟨fun ⟨x, _, hx⟩ => ⟨x, hx⟩, fun ⟨x, hx⟩ => ⟨x, ?_, hx⟩⟩
    refine lt_size_of_text rfl fun hempty => ?_
    have hmem := hx.2.1
    rw [hempty] at hmem
    exact absurd hmem (by decide)

end Listing

namespace Body

variable {l : Listing} {stop i t : Nat} {fresh : Bool}

inductive Moves (l : Listing) (stop i : Nat) : Move → Prop
  | enter (brace : l.text i = "\x7b") : Moves l stop i ⟨some .enterBlock, i + 1, true⟩
  | leave (brace : l.text i = "\x7d") : Moves l stop i ⟨some .leaveBlock, i + 1, true⟩
  | finish (semicolon : l.text i = ";") : Moves l stop i ⟨none, i + 1, true⟩
  | loop (keyword : l.text i = "for") (opener : l.text (i + 1) = "(") :
      Moves l stop i ⟨none, i + 2, true⟩
  | localType {next : Nat} (keyword : l.text i ∈ typeWords)
      (ends : localTypeEnd? l stop i = some next) : Moves l stop i ⟨none, next, false⟩
  | declare {d : Declaration}
      (reads : Declaration.ofTokens? l Declaration.localTerminators i stop = some d) :
      Moves l stop i ⟨some (.declare d), d.first.nameToken + 1, false⟩
  | pass (opener : l.text i ≠ "\x7b") (closer : l.text i ≠ "\x7d") : Moves l stop i (pass l i)

theorem moves_move (l : Listing) (stop i : Nat) (fresh : Bool) :
    Moves l stop i (move l stop i fresh) := by
  simp only [move]
  split
  · next h => exact .enter h
  split
  · next h => exact .leave h
  split
  · next h => exact .finish h
  split
  · next h =>
    obtain ⟨hfor, hparen⟩ := Bool.and_eq_true_iff.mp h
    exact .loop (of_decide_eq_true hfor) (of_decide_eq_true hparen)
  next hopen hclose _ _ =>
  split
  · unfold atStatement
    split
    · next h =>
      split at h
      · next hw => exact .localType (List.contains_iff_mem.mp hw) h
      · cases h
    · split
      · next h => exact .declare h
      · exact .pass hopen hclose
  · exact .pass hopen hclose

theorem steps_of_lt (hi : i < stop) :
    steps l stop i fresh = (move l stop i fresh).step.toList ++
      steps l stop (move l stop i fresh).next (move l stop i fresh).fresh := by
  rw [steps, if_pos hi]

/-! ## Local types -/

/-- A local type is passed over from its keyword through the brace that closes its body. -/
theorem exists_braces_of_localTypeEnd? {next : Nat} (h : localTypeEnd? l stop i = some next) :
    ∃ o c, o = l.seek ["\x7b", ";", "=", "("] stop (i + 1) ∧ l.OpensFirst i o ∧
      l.closing? o = some c ∧ next = c + 1 := by
  simp only [localTypeEnd?] at h
  split at h
  · next hbrace =>
    obtain ⟨c, hc, rfl⟩ := Option.map_eq_some_iff.mp h
    exact ⟨_, c, rfl, ⟨l.le_seek _ stop (i + 1), hbrace,
      fun x hxo hx => Listing.not_mem_of_lt_seek hx hxo⟩, hc, rfl⟩
  · cases h

theorem text_ne_of_typeWord {w : String} (h : l.text i ∈ typeWords) (hw : w ∉ typeWords) :
    l.text i ≠ w := by
  rintro rfl
  exact hw h

/-- Blocks may close in front of the body of a local type, but none is left open. -/
theorem drop_localType (hl : l.WellFormed) {b e : Nat} {os : List Nat} (ho : l.OpenAt b i os)
    (hb : l.closing? b = some e) (hbi : b < i) (hword : l.text i ∈ typeWords)
    {next : Nat} (h : localTypeEnd? l stop i = some next) (hnext : next ≤ e) :
    ∃ n, l.OpenAt b next (os.drop n) := by
  obtain ⟨o, c, -, ⟨hio, hbrace, hno⟩, hc, rfl⟩ := exists_braces_of_localTypeEnd? h
  have hlt := Listing.lt_of_closing? hc
  obtain ⟨n, hn⟩ := ho.drop hl hb hbi (Nat.le_of_lt hio) (by omega) (by
    intro x hx hxo
    rcases Nat.eq_or_lt_of_le hx with rfl | hx
    · exact text_ne_of_typeWord hword (by decide)
    · intro ht
      exact hno x hxo hx (by rw [ht]; decide))
  exact ⟨n, hn.balanced (by omega) (.pair hl hc)⟩

/-- Where types are complete, a local type is balanced. -/
theorem balanced_localType (hl : l.WellFormed) {b e : Nat} (hcomplete : l.TypesComplete b e)
    (hbi : b < i) (hie : i < e) (hword : l.text i ∈ typeWords) {next : Nat}
    (h : localTypeEnd? l stop i = some next) : l.Balanced i next := by
  obtain ⟨o, c, -, ⟨hio, hbrace, hno⟩, hc, rfl⟩ := exists_braces_of_localTypeEnd? h
  obtain ⟨x, hix, hx, hclosers⟩ := hcomplete i hie hbi hword
  have hox : o ≤ x := Nat.not_lt.mp fun hxo => hno x hxo hix hx
  have hto : l.Balanced i o := by
    refine .of_no_brace hl fun y hiy hyo => ?_
    rcases Nat.eq_or_lt_of_le hiy with rfl | hiy
    · exact ⟨text_ne_of_typeWord hword (by decide), text_ne_of_typeWord hword (by decide)⟩
    · refine ⟨?_, hclosers y (by omega) hiy⟩
      intro ht
      exact hno y hyo hiy (by rw [ht]; decide)
  have hlt := Listing.lt_of_closing? hc
  exact hto.append (.pair hl hc) (Nat.le_of_lt hio) (by omega)

/-! ## What is mentioned -/

/-- The walk from `i` on passes over the token at `t` along with a local type. -/
inductive PassesOver (l : Listing) (stop : Nat) : Nat → Bool → Nat → Prop
  | here {i next t : Nat} {fresh : Bool} (inside : i < stop) (keyword : l.text i ∈ typeWords)
      (ends : localTypeEnd? l stop i = some next)
      (jumps : move l stop i fresh = ⟨none, next, false⟩) (behind : i ≤ t) (before : t < next) :
      PassesOver l stop i fresh t
  | later {i t : Nat} {fresh : Bool} (inside : i < stop)
      (passes : PassesOver l stop (move l stop i fresh).next (move l stop i fresh).fresh t) :
      PassesOver l stop i fresh t

theorem eq_of_mention_mem_move (h : .mention t ∈ (move l stop i fresh).step) : t = i := by
  have hmoves := moves_move l stop i fresh
  generalize move l stop i fresh = m at hmoves h
  cases hmoves with
  | pass =>
    simp only [pass, Option.mem_def, Option.ite_none_right_eq_some, Option.some.injEq,
      Step.mention.injEq] at h
    exact h.2.symm
  | _ => cases h

/-- Only names that may refer to a variable are mentioned. -/
theorem isMention_of_mention_mem (h : .mention t ∈ steps l stop i fresh) :
    isMention l t = true := by
  fun_induction steps l stop i fresh with
  | case1 i fresh hi m ih =>
    rcases List.mem_append.mp h with h | h
    · have hmoves : Moves l stop i m := moves_move l stop i fresh
      have hstep : m.step = some (.mention t) := Option.mem_toList.mp h
      clear_value m
      cases hmoves with
      | pass =>
        simp only [pass, Option.ite_none_right_eq_some, Option.some.injEq,
          Step.mention.injEq] at hstep
        exact hstep.2 ▸ hstep.1
      | _ => cases hstep
    · exact ih h
  | case2 => cases h

/-- The walk never goes back. -/
theorem within_of_mention_mem (h : .mention t ∈ steps l stop i fresh) : i ≤ t ∧ t < stop := by
  fun_induction steps l stop i fresh with
  | case1 i fresh hi m ih =>
    rcases List.mem_append.mp h with h | h
    · have := eq_of_mention_mem_move (Option.mem_toList.mp h)
      omega
    · have hlt : i < m.next := lt_next_move l stop i fresh
      have := ih h
      omega
  | case2 => cases h

theorem PassesOver.le (h : PassesOver l stop i fresh t) : i ≤ t := by
  induction h with
  | here _ _ _ _ behind => exact behind
  | @later i t fresh _ _ ih =>
    have := lt_next_move l stop i fresh
    omega

/-- What is passed over is not mentioned. -/
theorem PassesOver.not_mention (h : PassesOver l stop i fresh t) :
    .mention t ∉ steps l stop i fresh := by
  induction h with
  | here inside _ _ jumps _ before =>
    rw [steps_of_lt inside, jumps]
    intro hmem
    have := within_of_mention_mem (by simpa using hmem)
    omega
  | @later i t fresh inside passes ih =>
    have hle := passes.le
    have hlt := lt_next_move l stop i fresh
    rw [steps_of_lt inside]
    intro hmem
    rcases List.mem_append.mp hmem with hmem | hmem
    · have := eq_of_mention_mem_move (Option.mem_toList.mp hmem)
      omega
    · exact ih hmem

/-- The token at `t` stands in a declaration that the walk from `i` on comes by, not behind the
first name that it declares. -/
def InDeclaration (l : Listing) (stop i : Nat) (fresh : Bool) (t : Nat) : Prop :=
  ∃ x d, Declaration.ofTokens? l Declaration.localTerminators x stop = some d ∧
    .declare d ∈ steps l stop i fresh ∧ x ≤ t ∧ t ≤ d.first.nameToken

/-- What is declared in the walk from `i` on is read at a place behind `i`. -/
theorem exists_reads_of_declare_mem {d : Declaration} (h : .declare d ∈ steps l stop i fresh) :
    ∃ x, i ≤ x ∧ x < stop ∧
      Declaration.ofTokens? l Declaration.localTerminators x stop = some d := by
  fun_induction steps l stop i fresh with
  | case1 i fresh hi m ih =>
    rcases List.mem_append.mp h with h | h
    · have hmoves : Moves l stop i m := moves_move l stop i fresh
      have hstep : m.step = some (.declare d) := Option.mem_toList.mp h
      clear_value m
      cases hmoves with
      | declare reads =>
        obtain rfl := Step.declare.inj (Option.some.inj hstep)
        exact ⟨i, Nat.le_refl i, hi, reads⟩
      | pass =>
        simp only [pass] at hstep
        split at hstep <;> cases hstep
      | _ => cases hstep
    · obtain ⟨x, hx, hreads⟩ := ih h
      have hlt : i < m.next := lt_next_move l stop i fresh
      exact ⟨x, by omega, hreads⟩
  | case2 => cases h

/-- The names of a declaration have one type. -/
theorem typeStart_eq (hl : l.WellFormed) {d : Declaration}
    (hd : .declare d ∈ steps l stop i fresh) {x x' : Declarator} (hx : x ∈ d.declarators)
    (hx' : x' ∈ d.declarators) : x.typeStart = x'.typeStart := by
  obtain ⟨n, _, _, hreads⟩ := exists_reads_of_declare_mem hd
  have hread := (Declaration.readFrom_ofTokens? hl hreads x hx).1
  exact hread.typeStart.trans (Declaration.readFrom_ofTokens? hl hreads x' hx').1.typeStart.symm

/-- The place where a declaration is read, which all its names tell, determines it. -/
theorem eq_of_typeStart_eq (hl : l.WellFormed) {d d' : Declaration}
    (hd : .declare d ∈ steps l stop i fresh) (hd' : .declare d' ∈ steps l stop i fresh)
    {x x' : Declarator} (hx : x ∈ d.declarators) (hx' : x' ∈ d'.declarators)
    (h : x.typeStart = x'.typeStart) : d = d' := by
  obtain ⟨n, _, _, hreads⟩ := exists_reads_of_declare_mem hd
  obtain ⟨n', _, _, hreads'⟩ := exists_reads_of_declare_mem hd'
  have hread := (Declaration.readFrom_ofTokens? hl hreads x hx).1
  have hread' := (Declaration.readFrom_ofTokens? hl hreads' x' hx').1
  obtain rfl : n = n' := hread.typeStart.symm.trans (h.trans hread'.typeStart)
  exact Option.some.inj (hreads.symm.trans hreads')

/-! ## The order of the steps -/

/-- Where a step stands: at the name that is mentioned, or at the first one that is declared. -/
def Step.place? : Step → Option Nat
  | .enterBlock => none
  | .leaveBlock => none
  | .declare d => some d.first.nameToken
  | .mention token => some token

theorem lt_next_of_mem_move {s : Step} (h : s ∈ (move l stop i fresh).step) {n : Nat}
    (hn : n ∈ s.place?) : n < (move l stop i fresh).next := by
  have hmoves := moves_move l stop i fresh
  generalize move l stop i fresh = m at hmoves h
  cases hmoves with
  | declare =>
    obtain rfl := Option.some.inj h
    obtain rfl := Option.some.inj hn
    exact Nat.lt_succ_self _
  | pass =>
    obtain ⟨_, hs⟩ := Option.ite_none_right_eq_some.mp h
    obtain rfl := Option.some.inj hs
    obtain rfl := Option.some.inj hn
    exact Nat.lt_succ_self _
  | enter =>
    obtain rfl := Option.some.inj h
    cases hn
  | leave =>
    obtain rfl := Option.some.inj h
    cases hn
  | finish => cases h
  | loop => cases h
  | localType => cases h

theorem le_of_mem_steps {s : Step} (h : s ∈ steps l stop i fresh) {n : Nat} (hn : n ∈ s.place?) :
    i ≤ n := by
  cases s with
  | enterBlock => cases hn
  | leaveBlock => cases hn
  | mention token =>
    obtain rfl := Option.some.inj hn
    exact (within_of_mention_mem h).1
  | declare d =>
    obtain rfl := Option.some.inj hn
    obtain ⟨x, hix, _, hreads⟩ := exists_reads_of_declare_mem h
    have hlt := Declarator.start_lt_nameToken (Declaration.first_of_ofTokens? hreads).1
    omega

/-- The steps of a walk stand one behind the other. -/
theorem increasing_steps (l : Listing) (stop i : Nat) (fresh : Bool) :
    ((steps l stop i fresh).filterMap Step.place?).Pairwise (· < ·) := by
  fun_induction steps l stop i fresh with
  | case1 i fresh hi m ih =>
    rw [List.filterMap_append, List.pairwise_append]
    refine ⟨?_, ih, ?_⟩
    · cases m.step with
      | none => exact .nil
      | some s =>
        rw [Option.toList_some, List.filterMap_cons]
        cases s.place? <;> simp
    · intro n hn n' hn'
      obtain ⟨s, hs, hn⟩ := List.mem_filterMap.mp hn
      obtain ⟨s', hs', hn'⟩ := List.mem_filterMap.mp hn'
      exact Nat.lt_of_lt_of_le (lt_next_of_mem_move (Option.mem_toList.mp hs) hn)
        (le_of_mem_steps hs' hn')
  | case2 => exact .nil

/-- What comes before a mention stands in front of it, and what comes later behind it. -/
theorem lt_of_steps_eq {front back : List Step}
    (h : steps l stop i fresh = front ++ .mention t :: back) :
    (∀ s ∈ front, ∀ n ∈ s.place?, n < t) ∧ ∀ s ∈ back, ∀ n ∈ s.place?, t < n := by
  have hsorted := increasing_steps l stop i fresh
  have hmention : (Step.mention t).place? = some t := rfl
  rw [h, List.filterMap_append, List.filterMap_cons_some hmention] at hsorted
  obtain ⟨_, hback, hfront⟩ := List.pairwise_append.mp hsorted
  constructor
  · intro s hs n hn
    exact hfront n (List.mem_filterMap.mpr ⟨s, hs, hn⟩) t List.mem_cons_self
  · intro s hs n hn
    exact (List.pairwise_cons.mp hback).1 n (List.mem_filterMap.mpr ⟨s, hs, hn⟩)

/-- What becomes of a name that the walk comes by: it is mentioned, unless it belongs to a
declaration, is passed over along with a local type, or is the keyword of a loop. -/
theorem mention_mem (ht : isMention l t = true) (hit : i ≤ t) (hts : t < stop)
    (hl : l.WellFormed) (hdeclaration : ¬ InDeclaration l stop i fresh t)
    (hpasses : ¬ PassesOver l stop i fresh t) (hfor : l.text t ≠ "for") :
    .mention t ∈ steps l stop i fresh := by
  have hname : l.isName t = true := (Bool.and_eq_true_iff.mp ht).1
  have hno : ∀ {w : String}, Lexeme.isWord w = false → l.text t ≠ w :=
    fun hw => hl.text_ne_of_isName hname hw
  fun_induction steps l stop i fresh with
  | case1 i fresh hi m ih =>
    have hsteps : steps l stop i fresh = m.step.toList ++ steps l stop m.next m.fresh :=
      steps_of_lt hi
    rcases Nat.lt_or_ge t m.next with hlt | hle
    · refine List.mem_append_left _ (Option.mem_toList.mpr ?_)
      have hmoves : Moves l stop i m := moves_move l stop i fresh
      have hpassed : ¬ (l.text i ∈ typeWords ∧ localTypeEnd? l stop i = some m.next ∧
          m = ⟨none, m.next, false⟩) := fun h =>
        hpasses (.here hi h.1 h.2.1 h.2.2 hit hlt)
      have hdeclared : ∀ d, m.step = some (.declare d) →
          Declaration.ofTokens? l Declaration.localTerminators i stop = some d →
          d.first.nameToken < t := by
        intro d hd hreads
        refine Nat.not_le.mp fun hle => hdeclaration ⟨i, d, hreads, ?_, hit, hle⟩
        rw [hsteps, hd]
        exact List.mem_append_left _ (by simp)
      clear_value m
      cases hmoves with
      | enter brace =>
        obtain rfl : t = i := by dsimp only at hlt; omega
        exact absurd brace (hno rfl)
      | leave brace =>
        obtain rfl : t = i := by dsimp only at hlt; omega
        exact absurd brace (hno rfl)
      | finish semicolon =>
        obtain rfl : t = i := by dsimp only at hlt; omega
        exact absurd semicolon (hno rfl)
      | loop keyword opener =>
        dsimp only at hlt
        rcases Nat.eq_or_lt_of_le hit with rfl | hit
        · exact absurd keyword hfor
        · obtain rfl : t = i + 1 := by omega
          exact absurd opener (hno rfl)
      | localType keyword ends => exact absurd ⟨keyword, ends, rfl⟩ hpassed
      | @declare d reads =>
        have := hdeclared d rfl reads
        dsimp only at hlt
        omega
      | pass =>
        obtain rfl : t = i := by
          change t < i + 1 at hlt
          omega
        simp [pass, ht]
    · refine List.mem_append_right _ (ih hle ?_ ?_)
      · rintro ⟨x, d, hreads, hmem, hx⟩
        exact hdeclaration ⟨x, d, hreads, hsteps ▸ List.mem_append_right _ hmem, hx⟩
      · exact fun h => hpasses (.later hi h)
  | case2 => omega

end Body

end StackEscape
