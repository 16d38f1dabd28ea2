import StackEscape.Outline.Tree
import StackEscape.Proofs.Listing.WellFormed

/-!
# Function bodies of an outline

The bodies of the functions that an outline holds stand one behind the other and share no token. It
comes down to what one construct says about the braces it goes into, `Construct.Found`: they are a
linked pair, and reading goes on behind it.
-/

namespace StackEscape

namespace Heading

/-- What the tokens say where a heading is read from `start` on: the parentheses of its parameter
list stand behind its name and before the braces of its body. -/
structure Reads (l : Listing) (start stop : Nat) (heading : Heading) (opener : Nat)
    (operator : Option Nat) (close : Nat) : Prop where
  list : parameterList? l stop start = some (opener, operator)
  starts : start < opener
  named : nameToken? l opener operator = some heading.nameToken
  closes : l.closing? opener = some close
  parameters : heading.parameters = parametersOf l opener close
  body : bodyOpen? l stop (close + 1) = some heading.bodyOpen
  ends : l.closing? heading.bodyOpen = some heading.bodyClose
  returns : ∃ unqualified, unqualified = qualifiedStart l start heading.nameToken ∧
    heading.returns = returnCategory l start
      (if start < unqualified && l.text (unqualified - 1) = "~" then unqualified - 1
        else unqualified)

theorem reads_of_ofTokens? {l : Listing} {start stop : Nat} {heading : Heading}
    (h : ofTokens? l start stop = some heading) :
    ∃ opener operator close, heading.Reads l start stop opener operator close := by
  simp only [ofTokens?] at h
  split at h
  · cases h
  · next opener operator hlist =>
    split at h
    · cases h
    · next hne =>
      split at h
      · next hname hclose =>
        split at h
        · cases h
        · next hbody =>
          split at h
          · cases h
          · next hend =>
            obtain rfl := Option.some.inj h
            simp only [Bool.or_eq_true, decide_eq_true_eq, not_or] at hne
            have hstarts := Nat.lt_of_le_of_ne (le_parameterList? hlist) (Ne.symm hne.2)
            exact ⟨opener, operator, _, hlist, hstarts, hname, hclose, rfl, hbody, hend, _, rfl,
              rfl⟩
      · cases h

theorem brace_of_bodyOpen? {l : Listing} {stop q b : Nat} (h : bodyOpen? l stop q = some b) :
    l.text b = "\x7b" ∧ b < stop := by
  unfold bodyOpen? at h
  split at h
  · cases h
  · split at h
    · cases h
    · split at h
      · next hs =>
        obtain rfl := Option.some.inj h
        obtain ⟨hlt, ht⟩ := Bool.and_eq_true_iff.mp hs
        exact ⟨of_decide_eq_true ht, of_decide_eq_true hlt⟩
      · cases h

/-- A heading reads its body off a linked pair of braces in its region. -/
theorem body_of_ofTokens? {l : Listing} {start stop : Nat} {heading : Heading}
    (h : ofTokens? l start stop = some heading) :
    l.text heading.bodyOpen = "\x7b" ∧ heading.bodyOpen < stop ∧
      l.closing? heading.bodyOpen = some heading.bodyClose := by
  obtain ⟨_, _, _, hr⟩ := reads_of_ofTokens? h
  obtain ⟨hbrace, hlt⟩ := brace_of_bodyOpen? hr.body
  exact ⟨hbrace, hlt, hr.ends⟩

end Heading

namespace Construct

/-- What a construct that is found at `i` says about the tokens. -/
def Found (l : Listing) (stop i : Nat) : Construct → Prop
  | skip _ => True
  | block _ _ opener closer next =>
    l.text opener = "\x7b" ∧ l.closing? opener = some closer ∧ closer < next
  | linkage opener closer => l.text opener = "\x7b" ∧ l.closing? opener = some closer
  | function heading => Heading.ofTokens? l i stop = some heading
  | declaration d _ => Declaration.ofTokens? l Declaration.memberTerminators i stop = some d

theorem found_namespaceAt (l : Listing) (stop i : Nat) : (namespaceAt l stop i).Found l stop i := by
  simp only [namespaceAt]
  split
  · next closer h =>
    split at h
    · next ht => exact ⟨ht, h, Nat.lt_succ_self closer⟩
    · cases h
  · trivial

theorem found_statementAt (l : Listing) (stop i : Nat) : (statementAt l stop i).Found l stop i := by
  unfold statementAt
  split
  · assumption
  · split
    · assumption
    · trivial

theorem lt_behindClass (l : Listing) (stop closer : Nat) : closer < behindClass l stop closer := by
  have hk := l.le_passNames ["*", "&", ","] stop (closer + 1)
  simp only [behindClass]
  split <;> omega

theorem found_classAt? {l : Listing} {stop i : Nat} {c : Construct}
    (h : classAt? l stop i = some c) : c.Found l stop i := by
  unfold classAt? at h
  split at h
  · cases h
  · split at h
    · next closer hc =>
      split at hc
      · next ht =>
        obtain rfl := Option.some.inj h
        exact ⟨ht, hc, lt_behindClass l stop closer⟩
      · cases hc
    · cases h

theorem found_ofTokens (l : Listing) (stop i : Nat) : (ofTokens l stop i).Found l stop i := by
  simp only [ofTokens]
  repeat' split
  · trivial
  · trivial
  · exact found_namespaceAt l stop i
  · next hw _ _ hc =>
    obtain ⟨_, ht⟩ := Bool.and_eq_true_iff.mp hw
    exact ⟨of_decide_eq_true ht, hc⟩
  · trivial
  · trivial
  · trivial
  · cases h : classAt? l stop i with
    | none => exact found_statementAt l stop i
    | some c => exact found_classAt? h
  · exact found_statementAt l stop i

end Construct

namespace Outline

def headings : Outline → List Heading
  | .done => []
  | .block _ _ _ _ inside after => inside.headings ++ after.headings
  | .linkage inside after => inside.headings ++ after.headings
  | .function heading _ after => heading :: after.headings
  | .declaration _ after => after.headings

end Outline

/-- That the body of a function is a pair of braces between `i` and `stop`. -/
structure Heading.Within (l : Listing) (i stop : Nat) (heading : Heading) : Prop where
  starts : i ≤ heading.bodyOpen
  brace : l.text heading.bodyOpen = "\x7b"
  closes : l.closing? heading.bodyOpen = some heading.bodyClose
  stops : heading.bodyClose < stop

theorem Heading.Within.mono {l : Listing} {i j stop stop' : Nat} {heading : Heading}
    (h : heading.Within l j stop') (hij : i ≤ j) (hs : stop' ≤ stop) : heading.Within l i stop :=
  ⟨Nat.le_trans hij h.starts, h.brace, h.closes, Nat.lt_of_lt_of_le h.stops hs⟩

/-- The region between two partners behind the place `i`, which is entered, and the region behind
it, from `next`. -/
structure Construct.Divides (l : Listing) (i stop opener closer next : Nat) : Prop where
  opens : i < opener
  closes : opener < closer
  behind : closer < next
  inside : l.PairsWithin (opener + 1) (min closer stop)
  after : l.PairsWithin next stop

namespace Construct

variable {l : Listing} {stop i opener closer : Nat}

theorem divides_block (hl : l.WellFormed) (hp : l.PairsWithin i stop) {kind : BlockKind}
    {name : String} {next : Nat} (h : ofTokens l stop i = .block kind name opener closer next) :
    Divides l i stop opener closer next := by
  have hm := movesFrom_ofTokens l stop i
  have hf := found_ofTokens l stop i
  rw [h] at hm hf
  obtain ⟨_, hclose, hnext⟩ := hf
  have hopen : i < opener := hm.2 opener rfl
  exact ⟨hopen, Listing.lt_of_closing? hclose, hnext, hp.inside hl (Nat.le_of_lt hopen) hclose,
    hp.mono (Nat.le_of_lt hm.1)⟩

theorem divides_linkage (hl : l.WellFormed) (hp : l.PairsWithin i stop)
    (h : ofTokens l stop i = .linkage opener closer) :
    Divides l i stop opener closer (closer + 1) := by
  have hm := movesFrom_ofTokens l stop i
  have hf := found_ofTokens l stop i
  rw [h] at hm hf
  obtain ⟨_, hclose⟩ := hf
  have hopen : i < opener := hm.2 opener rfl
  exact ⟨hopen, Listing.lt_of_closing? hclose, Nat.lt_succ_self closer,
    hp.inside hl (Nat.le_of_lt hopen) hclose, hp.mono (Nat.le_of_lt hm.1)⟩

end Construct

namespace Outline

/-- The bodies of a region lie in it, one behind the other. -/
def Ordered (l : Listing) (i stop : Nat) (headings : List Heading) : Prop :=
  (∀ h ∈ headings, h.Within l i stop) ∧ headings.Pairwise fun a b => a.bodyClose < b.bodyOpen

theorem Ordered.mono {l : Listing} {i j stop : Nat} {headings : List Heading}
    (h : Ordered l j stop headings) (hij : i ≤ j) : Ordered l i stop headings :=
  ⟨fun a ha => (h.1 a ha).mono hij (Nat.le_refl stop), h.2⟩

/-- A region that ends before another one begins. -/
theorem Ordered.append {l : Listing} {i c j stop : Nat} {inside after : List Heading}
    (hin : Ordered l i (min c stop) inside) (hout : Ordered l j stop after) (hcj : c < j)
    (hij : i ≤ j) : Ordered l i stop (inside ++ after) := by
  constructor
  · intro h hm
    rcases List.mem_append.mp hm with hm | hm
    · exact (hin.1 h hm).mono (Nat.le_refl i) (Nat.min_le_right c stop)
    · exact (hout.1 h hm).mono hij (Nat.le_refl stop)
  · refine List.pairwise_append.mpr ⟨hin.2, hout.2, fun a ha b hb => ?_⟩
    have := (hin.1 a ha).stops
    have := (hout.1 b hb).starts
    omega

/-- **Function bodies are apart.** In a region that closes what it opens, the bodies of the
functions lie in the region, one behind the other. -/
theorem ordered_headings {l : Listing} (hl : l.WellFormed) {stop i : Nat}
    (hp : l.PairsWithin i stop) : Ordered l i stop (ofTokens l stop i).headings := by
  fun_induction ofTokens l stop i with
  | case1 stop i hi next hc ih =>
    have hm := (Construct.movesFrom_ofTokens l stop i).1
    rw [hc] at hm
    exact (ih (hp.mono (Nat.le_of_lt hm))).mono (Nat.le_of_lt hm)
  | case2 stop i hi kind name opener closer next hc ihin ihout =>
    obtain ⟨hopen, hlt, hnext, hpin, hpout⟩ := Construct.divides_block hl hp hc
    exact ((ihin hpin).append (ihout hpout) hnext (by omega)).mono (by omega)
  | case3 stop i hi opener closer hc ihin ihout =>
    obtain ⟨hopen, hlt, hnext, hpin, hpout⟩ := Construct.divides_linkage hl hp hc
    exact ((ihin hpin).append (ihout hpout) hnext (by omega)).mono (by omega)
  | case4 stop i hi heading hc ih =>
    have hf := Construct.found_ofTokens l stop i
    rw [hc] at hf
    obtain ⟨hbrace, hlt, hclose⟩ := Heading.body_of_ofTokens? hf
    obtain ⟨hstart, hbody⟩ := Heading.lt_bodyOpen hf
    have hw : heading.Within l i stop :=
      ⟨Nat.le_of_lt hstart, hbrace, hclose, hp _ _ (Nat.le_of_lt hstart) hlt hclose⟩
    obtain ⟨hin, hpair⟩ := ih (hp.mono (by omega))
    refine ⟨fun h hm => ?_, List.pairwise_cons.mpr ⟨fun h hm => (hin h hm).starts, hpair⟩⟩
    rcases List.mem_cons.mp hm with rfl | hm
    · exact hw
    · exact (hin h hm).mono (by omega) (Nat.le_refl stop)
  | case5 stop i hi d next hc ih =>
    have hm := (Construct.movesFrom_ofTokens l stop i).1
    rw [hc] at hm
    exact (ih (hp.mono (Nat.le_of_lt hm))).mono (Nat.le_of_lt hm)
  | case6 => exact ⟨by simp [headings], .nil⟩

end Outline

/-- The bodies of all functions of a listing stand one behind the other. -/
theorem Listing.WellFormed.ordered_headings {l : Listing} (hl : l.WellFormed) :
    Outline.Ordered l 0 l.size l.outline.headings :=
  Outline.ordered_headings hl (.of_nests hl.nests)

end StackEscape
