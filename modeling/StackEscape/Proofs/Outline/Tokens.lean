import StackEscape.Proofs.Outline.Walk

/-!
# Where names are bound

What is bound is a declared name or a mention. What the body of a function binds stands between its
braces, and the parameters stand in front of the body.
-/

namespace StackEscape

def Body.Step.Binds (P : Nat → Prop) : Body.Step → Prop
  | .enterBlock => True
  | .leaveBlock => True
  | .declare d => ∀ x ∈ d.declarators, P x.nameToken
  | .mention token => P token

theorem Body.Step.Binds.mono {P P' : Nat → Prop} (hP : ∀ t, P t → P' t) {s : Body.Step}
    (h : s.Binds P) : s.Binds P' := by
  cases s with
  | enterBlock => trivial
  | leaveBlock => trivial
  | declare d => exact fun x hx => hP _ (h x hx)
  | mention token => exact hP _ h

/-- A name that a declaration declares between two braces stands between them. -/
theorem Declaration.nameToken_lt {l : Listing} (hl : l.WellFormed) {terminators : List String}
    {b e x : Nat} (hbrace : l.text b = "\x7b") (hb : l.closing? b = some e) (hbx : b < x)
    (hxe : x < e) {d : Declaration} (h : ofTokens? l terminators x e = some d) :
    ∀ y ∈ d.declarators, x < y.nameToken ∧ y.nameToken < e := by
  intro y hy
  have hread := (readFrom_ofTokens? hl h y hy).1
  have hname := (named_ofTokens? hl h y hy).isName
  have hpair := hread.balanced b e hbrace hb
  have hne := hl.text_ne_of_isName hname (w := "\x7d") rfl
  have hbehind := hread.behind
  refine ⟨hbehind, Nat.lt_of_le_of_ne (by omega) ?_⟩
  intro he
  exact hne (he ▸ hl.text_close_brace hb hbrace)

/-- What a function body binds stands between its braces. -/
theorem Body.binds_steps {l : Listing} (hl : l.WellFormed) {b e i : Nat} (fresh : Bool)
    (hbrace : l.text b = "\x7b") (hb : l.closing? b = some e) (hbi : b < i) :
    ∀ s ∈ steps l e i fresh, s.Binds fun t => i ≤ t ∧ t < e := by
  intro s hs
  cases s with
  | enterBlock => trivial
  | leaveBlock => trivial
  | mention token => exact within_of_mention_mem hs
  | declare d =>
    obtain ⟨x, hix, hxe, hreads⟩ := exists_reads_of_declare_mem hs
    intro y hy
    have := Declaration.nameToken_lt hl hbrace hb (by omega) hxe hreads y hy
    omega

/-- Parameters stand in front of the body. -/
theorem Heading.within_of_mem_parameters {l : Listing} {start stop : Nat} {heading : Heading}
    (h : ofTokens? l start stop = some heading) :
    ∀ d ∈ heading.parameters, start ≤ d.nameToken ∧ d.nameToken < heading.bodyOpen := by
  obtain ⟨_, _, _, hr⟩ := reads_of_ofTokens? h
  intro d hd
  rw [hr.parameters] at hd
  have := within_of_mem_parametersOf hd
  have := hr.starts
  have := le_bodyOpen? hr.body
  omega

end StackEscape
