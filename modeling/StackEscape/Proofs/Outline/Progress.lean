import StackEscape.Proofs.Outline.Fences
import StackEscape.Proofs.Outline.Tokens

/-!
# Progress

Whatever is found at a place of a range ends behind that place and, a namespace without a body apart,
in the range; and the braces that are gone into stand in the range. So the walk over a listing takes
no more rounds than there are tokens, the rounds inside braces and function bodies included.
-/

namespace StackEscape

namespace Listing.BracesBetween

variable {l : Listing} {i stop opener closer : Nat}

theorem order (h : l.BracesBetween i stop opener closer) :
    i < opener ∧ opener < closer ∧ closer < stop :=
  ⟨h.starts, lt_of_closing? h.closes, h.stops⟩

theorem fenced (h : l.BracesBetween i stop opener closer) {file source : String}
    (hl : ofSource file source = .ok l) : l.Fenced (opener + 1) closer :=
  Range.fenced hl (.braces h.brace h.closes)

end Listing.BracesBetween

namespace Construct

def braces? : Construct → Option (Nat × Nat)
  | block _ _ opener closer _ => some (opener, closer)
  | linkage opener closer => some (opener, closer)
  | function heading => some (heading.bodyOpen, heading.bodyClose)
  | _ => none

/-- That a construct found at `i` ends behind `i`, and at `limit` at the latest, and that it goes
into braces of the range only. -/
structure Inside (l : Listing) (i stop limit : Nat) (c : Construct) : Prop where
  moves : i < c.next
  ends : c.next ≤ limit
  enters : ∀ b ∈ c.braces?, l.BracesBetween i stop b.1 b.2

variable {l : Listing} {start stop i limit : Nat}

theorem Inside.skip {n : Nat} (hi : i < n) (hn : n ≤ limit) : (skip n).Inside l i stop limit :=
  ⟨hi, hn, nofun⟩

theorem Inside.mono {c : Construct} {limit' : Nat} (h : c.Inside l i stop limit)
    (hle : limit ≤ limit') : c.Inside l i stop limit' :=
  { h with ends := Nat.le_trans h.ends hle }

theorem inside_namespaceAt (h : l.Fenced start stop) (hi : start ≤ i) (hs : i < stop) :
    (namespaceAt l stop i).Inside l i stop (stop + 1) := by
  have hseek : i + 1 ≤ l.seek ["\x7b", ";"] stop (i + 1) := l.le_seek _ stop (i + 1)
  have hle : l.seek ["\x7b", ";"] stop (i + 1) ≤ stop := Listing.seek_le hs
  simp only [namespaceAt]
  split
  · next closer hclose =>
    split at hclose
    · next hbrace =>
      have hstops := h.closes (by omega) (h.lt_of_text hle hbrace (by decide)) hclose
      have hopen := Listing.lt_of_closing? hclose
      refine ⟨by simp only [next]; omega, by simp only [next]; omega, fun b hb => ?_⟩
      obtain rfl := Option.some.inj hb
      exact ⟨by dsimp only; omega, hbrace, hclose, hstops⟩
    · cases hclose
  · exact .skip (by omega) (by omega)

theorem behindClass_le (h : l.Fenced start stop) {closer : Nat} (hs : closer < stop) :
    behindClass l stop closer ≤ stop := by
  have hle : l.passNames ["*", "&", ","] stop (closer + 1) ≤ stop := Listing.passNames_le hs
  simp only [behindClass]
  split
  · next hsemicolon => exact h.lt_of_text hle hsemicolon (by decide)
  · exact hs

theorem inside_classAt? (h : l.Fenced start stop) (hi : start ≤ i) (hs : i < stop) {c : Construct}
    (hc : classAt? l stop i = some c) : c.Inside l i stop stop := by
  have hmoves := (movesFrom_classAt? hc).1
  unfold classAt? at hc
  split at hc
  · cases hc
  · next j hj =>
    have hij := le_classHeadEnd? hj
    have hle := classHeadEnd?_le hj hs
    split at hc
    · next closer hclose =>
      split at hclose
      · next hbrace =>
        obtain rfl := Option.some.inj hc
        have hstops := h.closes (by omega) (h.lt_of_text hle hbrace (by decide)) hclose
        refine ⟨hmoves, behindClass_le h hstops, fun b hb => ?_⟩
        obtain rfl := Option.some.inj hb
        exact ⟨hij, hbrace, hclose, hstops⟩
      · cases hclose
    · cases hc

/-- The body of a function that is read in a range is a pair of braces of the range. -/
theorem bracesBetween_of_heading (h : l.Fenced start stop) (hi : start ≤ i) {heading : Heading}
    (hread : Heading.ofTokens? l i stop = some heading) :
    l.BracesBetween i stop heading.bodyOpen heading.bodyClose := by
  obtain ⟨hbrace, hlt, hclose⟩ := Heading.body_of_ofTokens? hread
  have hstart := (Heading.lt_bodyOpen hread).1
  exact ⟨hstart, hbrace, hclose, h.closes (by omega) hlt hclose⟩

theorem inside_statementAt (h : l.Fenced start stop) (hi : start ≤ i) (hs : i < stop) :
    (statementAt l stop i).Inside l i stop stop := by
  have hend := h.statementEnd_le hi hs
  have hlt := l.lt_statementEnd stop i
  unfold statementAt
  split
  · next heading hread =>
    have hbraces := bracesBetween_of_heading h hi hread
    have hopen := (Heading.lt_bodyOpen hread).2
    have hstarts := hbraces.starts
    refine ⟨by simp only [next]; omega, hbraces.stops, fun b hb => ?_⟩
    obtain rfl := Option.some.inj hb
    exact hbraces
  · split
    · exact ⟨hlt, hend, fun _ hb => by cases hb⟩
    · exact .skip hlt hend

/-- How far what is found at `i` may reach: a namespace without a body is passed over along with the
token behind it. -/
def reach (l : Listing) (stop i : Nat) : Nat := if l.text i = "namespace" then stop + 1 else stop

theorem le_reach (l : Listing) (stop i : Nat) : stop ≤ reach l stop i := by
  unfold reach
  split
  · exact Nat.le_succ stop
  · exact Nat.le_refl stop

/-- **What is found at a place of a range** ends behind the place and in the range, but for a
namespace without a body, which may end one token behind it; and it goes into the range only. -/
theorem inside_ofTokens (h : l.Fenced start stop) (hi : start ≤ i) (hs : i < stop) :
    (ofTokens l stop i).Inside l i stop (reach l stop i) := by
  have hreach := le_reach l stop i
  have hnext : ∀ {n : Nat}, i < n → n ≤ stop → (skip n).Inside l i stop (reach l stop i) :=
    fun hi hn => .skip hi (Nat.le_trans hn hreach)
  have hstatement := (inside_statementAt h hi hs).mono hreach
  simp only [ofTokens]
  split
  · exact hnext (Nat.lt_succ_self i) hs
  split
  · next hlabel =>
    have hcolon := of_decide_eq_true (Bool.and_eq_true_iff.mp hlabel).2
    exact hnext (by omega) (h.lt_of_text (j := i + 1) hs hcolon (by decide))
  split
  · next hnamespace =>
    rw [reach, if_pos hnamespace]
    exact inside_namespaceAt h hi hs
  split
  · next hlinkage =>
    obtain ⟨hlinkage, hbrace⟩ := Bool.and_eq_true_iff.mp hlinkage
    have hbrace := of_decide_eq_true hbrace
    have hstring := h.lt_of_isString (j := i + 1) hs (Bool.and_eq_true_iff.mp hlinkage).2
    have hopener := h.lt_of_text (j := i + 2) hstring hbrace (by decide)
    split
    · next closer hclose =>
      have hstops := h.closes (by omega) hopener hclose
      have hopen := Listing.lt_of_closing? hclose
      refine ⟨by simp only [next]; omega, Nat.le_trans hstops hreach, fun b hb => ?_⟩
      obtain rfl := Option.some.inj hb
      exact ⟨by dsimp only; omega, hbrace, hclose, hstops⟩
    · exact hnext (Nat.lt_succ_self i) hs
  split
  · next htemplate =>
    have hangle := of_decide_eq_true (Bool.and_eq_true_iff.mp htemplate).2
    have hlt := h.lt_of_text (j := i + 1) hs hangle (by decide)
    cases hj : l.templateEnd? stop (i + 1) with
    | none => exact hnext (n := i + 2) (by omega) hlt
    | some j =>
      have hlt' := Listing.lt_templateEnd? hj
      exact hnext (n := j) (by omega) (Listing.templateEndFrom?_le hj)
  split
  · exact hnext (l.lt_statementEnd stop i) (h.statementEnd_le hi hs)
  split
  · cases hc : classAt? l stop i with
    | none => exact hstatement
    | some c => exact (inside_classAt? h hi hs hc).mono hreach
  · exact hstatement

theorem inside_of_eq {c : Construct} (h : l.Fenced i stop) (hs : i < stop)
    (hc : ofTokens l stop i = c) : c.Inside l i stop (reach l stop i) :=
  hc ▸ inside_ofTokens h (Nat.le_refl i) hs

end Construct

/-! ## Function bodies -/

namespace Body

variable {l : Listing} {start stop i : Nat}

/-- A move goes forward and stays in its range. -/
theorem next_move_le (h : l.Fenced start stop) (hi : start ≤ i) (hs : i < stop) (fresh : Bool) :
    (move l stop i fresh).next ≤ stop := by
  have hmoves := moves_move l stop i fresh
  generalize move l stop i fresh = m at hmoves ⊢
  cases hmoves with
  | enter | leave | finish | pass => exact hs
  | loop _ hparen => exact h.lt_of_text (j := i + 1) hs hparen (by decide)
  | localType _ hend => exact h.localTypeEnd?_le hi hs hend
  | declare hreads =>
    obtain ⟨types, hr⟩ := Declarator.reads_of_ofTokens? (Declaration.first_of_ofTokens? hreads).1
    exact hr.inside

/-- The walk from `i` through the body that ends at `stop`, with the steps that come of it and the
number of its rounds. -/
inductive Walk (l : Listing) (stop : Nat) : Nat → Bool → List Step → Nat → Prop
  | done {i : Nat} {fresh : Bool} : stop ≤ i → Walk l stop i fresh [] 0
  | move {i n : Nat} {fresh : Bool} {steps : List Step} : i < stop →
      Walk l stop (move l stop i fresh).next (move l stop i fresh).fresh steps n →
      Walk l stop i fresh ((move l stop i fresh).step.toList ++ steps) (n + 1)

theorem exists_walk (l : Listing) (stop i : Nat) (fresh : Bool) :
    ∃ n, Walk l stop i fresh (steps l stop i fresh) n := by
  fun_induction steps l stop i fresh with
  | case1 i fresh hi m ih =>
    obtain ⟨n, hwalk⟩ := ih
    exact ⟨n + 1, .move hi hwalk⟩
  | case2 i fresh hi => exact ⟨0, .done (Nat.not_lt.mp hi)⟩

/-- The walk takes no more rounds than there are tokens. -/
theorem Walk.le {fresh : Bool} {steps : List Step} {n : Nat} (h : Walk l stop i fresh steps n) :
    n ≤ stop - i := by
  induction h with
  | done => exact Nat.zero_le _
  | @move i n fresh _ hi _ ih =>
    have hnext := lt_next_move l stop i fresh
    omega

/-- The walk finds the steps of the body. -/
theorem Walk.eq_steps {fresh : Bool} {found : List Step} {n : Nat}
    (h : Walk l stop i fresh found n) : found = steps l stop i fresh := by
  induction h with
  | done hi => rw [steps, if_neg (Nat.not_lt.mpr hi)]
  | move hi _ ih =>
    rw [steps, if_pos hi, ih]

end Body

/-! ## Declarations -/

namespace Outline

/-- The walk from `i` through the range that ends at `stop`, with what it finds and the number of
its rounds, those inside braces included. Every round goes forward, and the braces that it goes into
stand in the range. -/
inductive Walk (l : Listing) : Nat → Nat → Outline → Nat → Prop
  | done {stop i : Nat} : stop ≤ i → Walk l stop i .done 0
  | skip {stop i next n : Nat} {o : Outline} : i < stop → i < next →
      Construct.ofTokens l stop i = .skip next → Walk l stop next o n → Walk l stop i o (n + 1)
  | block {stop i opener closer next m n : Nat} {kind : BlockKind} {name : String}
      {inside after : Outline} : l.BracesBetween i stop opener closer → closer < next →
      Construct.ofTokens l stop i = .block kind name opener closer next →
      Walk l closer (opener + 1) inside m → Walk l stop next after n →
      Walk l stop i (.block kind name opener closer inside after) (m + n + 1)
  | linkage {stop i opener closer m n : Nat} {inside after : Outline} :
      l.BracesBetween i stop opener closer →
      Construct.ofTokens l stop i = .linkage opener closer →
      Walk l closer (opener + 1) inside m → Walk l stop (closer + 1) after n →
      Walk l stop i (.linkage inside after) (m + n + 1)
  | function {stop i m n : Nat} {heading : Heading} {body : List Body.Step} {after : Outline} :
      l.BracesBetween i stop heading.bodyOpen heading.bodyClose →
      Construct.ofTokens l stop i = .function heading →
      Body.Walk l heading.bodyClose (heading.bodyOpen + 1) true body m →
      Walk l stop (heading.bodyClose + 1) after n →
      Walk l stop i (.function heading body after) (m + n + 1)
  | declaration {stop i next n : Nat} {d : Declaration} {after : Outline} : i < stop → i < next →
      Construct.ofTokens l stop i = .declaration d next → Walk l stop next after n →
      Walk l stop i (.declaration d after) (n + 1)

/-- **The walk comes to an end**, and no braces are cut off where a range ends. -/
theorem exists_walk {file source : String} {l : Listing}
    (h : Listing.ofSource file source = .ok l) {stop i : Nat} (hf : l.Fenced i stop) :
    ∃ n, Walk l stop i (ofTokens l stop i) n := by
  fun_induction ofTokens l stop i with
  | case1 stop i hi next hc ih =>
    have hnext : i < next := (Construct.inside_of_eq hf hi hc).moves
    obtain ⟨n, hwalk⟩ := ih (hf.mono (Nat.le_of_lt hnext))
    exact ⟨n + 1, .skip hi hnext hc hwalk⟩
  | case2 stop i hi kind name opener closer next hc ihin ihout =>
    have hinside := Construct.inside_of_eq hf hi hc
    have hbraces : l.BracesBetween i stop opener closer := hinside.enters _ rfl
    have hnext : i < next := hinside.moves
    have hfound := Construct.found_ofTokens l stop i
    rw [hc] at hfound
    rw [Nat.min_eq_left (Nat.le_of_lt hbraces.stops)] at ihin ⊢
    obtain ⟨m, hin⟩ := ihin (hbraces.fenced h)
    obtain ⟨n, hout⟩ := ihout (hf.mono (Nat.le_of_lt hnext))
    exact ⟨m + n + 1, .block hbraces hfound.2.2 hc hin hout⟩
  | case3 stop i hi opener closer hc ihin ihout =>
    have hinside := Construct.inside_of_eq hf hi hc
    have hbraces : l.BracesBetween i stop opener closer := hinside.enters _ rfl
    have hnext : i < closer + 1 := hinside.moves
    rw [Nat.min_eq_left (Nat.le_of_lt hbraces.stops)] at ihin ⊢
    obtain ⟨m, hin⟩ := ihin (hbraces.fenced h)
    obtain ⟨n, hout⟩ := ihout (hf.mono (Nat.le_of_lt hnext))
    exact ⟨m + n + 1, .linkage hbraces hc hin hout⟩
  | case4 stop i hi heading hc ih =>
    have hinside := Construct.inside_of_eq hf hi hc
    have hbraces : l.BracesBetween i stop heading.bodyOpen heading.bodyClose :=
      hinside.enters _ rfl
    have hnext : i < heading.bodyClose + 1 := hinside.moves
    obtain ⟨m, hbody⟩ := Body.exists_walk l heading.bodyClose (heading.bodyOpen + 1) true
    obtain ⟨n, hwalk⟩ := ih (hf.mono (Nat.le_of_lt hnext))
    exact ⟨m + n + 1, .function hbraces hc hbody hwalk⟩
  | case5 stop i hi d next hc ih =>
    have hnext : i < next := (Construct.inside_of_eq hf hi hc).moves
    obtain ⟨n, hwalk⟩ := ih (hf.mono (Nat.le_of_lt hnext))
    exact ⟨n + 1, .declaration hi hnext hc hwalk⟩
  | case6 stop i hi => exact ⟨0, .done (Nat.not_lt.mp hi)⟩

/-- The walk takes no more rounds than there are tokens, whether it goes into braces or not. -/
theorem Walk.le {l : Listing} {stop i n : Nat} {o : Outline} (h : Walk l stop i o n) :
    n ≤ stop - i := by
  induction h with
  | done => exact Nat.zero_le _
  | skip | declaration => omega
  | block hbraces | linkage hbraces =>
    obtain ⟨hstarts, hopen, hstops⟩ := hbraces.order
    omega
  | function hbraces _ hbody =>
    obtain ⟨hstarts, hopen, hstops⟩ := hbraces.order
    have hrounds := hbody.le
    omega

end Outline

end StackEscape
