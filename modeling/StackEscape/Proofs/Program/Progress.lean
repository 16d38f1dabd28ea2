import StackEscape.Proofs.Outline.LookBack
import StackEscape.Proofs.Symbol.Stamps

/-!
# Progress through a range

Declarations are gone through range by range: the whole listing, what stands between the braces that
a namespace, a class or a linkage opens, and the bodies of functions. In any such range, however
little what stands there makes sense, each step goes forward and ends in the range, no token outside
is bound, and the walk comes to an end.
-/

namespace StackEscape

/-- What whoever goes through the range from `start` to `stop` can rely on. -/
structure Listing.Progress (l : Listing) (start stop : Nat) : Prop where
  /-- A round among declarations. -/
  construct : ∀ i, start ≤ i → i < stop →
    (Construct.ofTokens l stop i).Inside l i stop (Construct.reach l stop i)
  namespaceAt : ∀ i, start ≤ i → i < stop →
    (Construct.namespaceAt l stop i).Inside l i stop (stop + 1)
  classAt : ∀ i c, start ≤ i → i < stop → Construct.classAt? l stop i = some c →
    c.Inside l i stop stop
  function : ∀ i heading, start ≤ i → i < stop → Heading.ofTokens? l i stop = some heading →
    l.BracesBetween i stop heading.bodyOpen heading.bodyClose
  statement : ∀ i, start ≤ i → i < stop → (Construct.statementAt l stop i).Inside l i stop stop
  /-- A round in the body of a function. -/
  move : ∀ i fresh, start ≤ i → i < stop →
    i < (Body.move l stop i fresh).next ∧ (Body.move l stop i fresh).next ≤ stop
  templateEnd : ∀ i limit j, l.templateEnd? limit i = some j → i < j ∧ j ≤ limit
  initializerEnd : ∀ i, start ≤ i → i ≤ stop →
    i ≤ l.initializerEnd stop i ∧ l.initializerEnd stop i ≤ stop
  statementEnd : ∀ i, start ≤ i → i < stop →
    i < l.statementEnd stop i ∧ l.statementEnd stop i ≤ stop
  /-- The search for a body does not need to look for the end of the range. -/
  bodyOpen : ∀ q, start ≤ q → q ≤ stop →
    Heading.BodyRun l stop q (Heading.bodyOpen? l stop q) ∧
      ∀ b ∈ Heading.bodyOpen? l stop q, q ≤ b ∧ b < stop
  localTypeEnd : ∀ i j, start ≤ i → i < stop → Body.localTypeEnd? l stop i = some j →
    i < j ∧ j ≤ stop
  /-- Where tokens in front of a place are looked at, there are as many behind the place where
  reading began: with every step back checked, the same is read. -/
  declarator : ∀ i limit,
    Declarator.checkedOfTokens l i limit = some (Declarator.ofTokens? l i limit)
  heading : ∀ i limit, Heading.checkedOfTokens l i limit = some (Heading.ofTokens? l i limit)
  /-- Entering what the range declares binds no token outside of it. -/
  enter : ∀ r scope outer frame,
    Resolver.BindsOnly (fun t => start ≤ t ∧ t < stop) r
      (r.enter l scope outer frame (Outline.ofTokens l stop start)).1
  /-- Nor does following the range as the body of a function. -/
  followBody : ∀ r scope outer blocks base fresh,
    Resolver.BindsOnly (fun t => start ≤ t ∧ t < stop) r
      (r.followBody l scope outer blocks base (Body.steps l stop start fresh))
  declarationsEnd : ∃ n, n ≤ stop - start ∧
    Outline.Walk l stop start (Outline.ofTokens l stop start) n
  bodyEnds : ∀ fresh, ∃ n, n ≤ stop - start ∧
    Body.Walk l stop start fresh (Body.steps l stop start fresh) n

namespace Listing

theorem progress_of_range {file source : String} {l : Listing} (h : ofSource file source = .ok l)
    {start stop : Nat} (hr : l.Range start stop) : l.Progress start stop := by
  have hl := wellFormed_ofSource h
  have hf := hr.fenced h
  obtain ⟨n, hwalk⟩ := Outline.exists_walk h hf
  exact
    { construct := fun i hi hs => Construct.inside_ofTokens hf hi hs
      namespaceAt := fun i hi hs => Construct.inside_namespaceAt hf hi hs
      classAt := fun i c hi hs hc => Construct.inside_classAt? hf hi hs hc
      function := fun i heading hi _ hread => Construct.bracesBetween_of_heading hf hi hread
      statement := fun i hi hs => Construct.inside_statementAt hf hi hs
      move := fun i fresh hi hs =>
        ⟨Body.lt_next_move l stop i fresh, Body.next_move_le hf hi hs fresh⟩
      templateEnd := fun i limit j hj => ⟨lt_templateEnd? hj, templateEndFrom?_le hj⟩
      initializerEnd := fun i hi hs => hf.initializerEnd_le hi hs
      statementEnd := fun i hi hs => ⟨l.lt_statementEnd stop i, hf.statementEnd_le hi hs⟩
      bodyOpen := fun q hq hs =>
        ⟨Heading.bodyRun hf hq hs, fun b hb =>
          ⟨Heading.le_bodyOpen? hb, (Heading.brace_of_bodyOpen? hb).2⟩⟩
      localTypeEnd := fun i j hi hs hj => ⟨Body.lt_localTypeEnd? hj, hf.localTypeEnd?_le hi hs hj⟩
      declarator := Declarator.checkedOfTokens_eq l
      heading := Heading.checkedOfTokens_eq l
      enter := fun r scope outer frame =>
        Resolver.bindsOnly_enter scope outer frame (hwalk.binds h hf)
      followBody := fun r scope outer blocks base fresh =>
        Resolver.bindsOnly_followBody scope outer blocks base (Body.binds_of_fenced hl hf fresh)
      declarationsEnd := ⟨n, hwalk.le, hwalk⟩
      bodyEnds := fun fresh =>
        (Body.exists_walk l stop start fresh).imp fun _ hbody => ⟨hbody.le, hbody⟩ }

/-- **The walk goes forward, stays in its range and comes to an end**, whatever source it is that
has a listing and whichever of its ranges is gone through. -/
theorem ofSource_progress {file source : String} {l : Listing}
    (h : ofSource file source = .ok l) :
    (∃ n, n ≤ l.size ∧ Outline.Walk l l.size 0 l.outline n) ∧
      ∀ start stop, l.Range start stop → l.Progress start stop :=
  ⟨(progress_of_range h .all).declarationsEnd, fun _ _ hr => progress_of_range h hr⟩

/-- Hardly anything here is well formed. The class ends with a namespace that has neither a name nor
a body, which is passed over along with the brace behind it. -/
theorem ofSource_progress_malformed : ∃ l,
    ofSource "a.cpp"
        "class C \x7b namespace \x7d; C::C() : b<()>\x7bq\x7d \x7b int x,; enum \x7d q <" = .ok l ∧
      l.size = 29 ∧ (∃ n, n ≤ l.size ∧ Outline.Walk l l.size 0 l.outline n) ∧
      l.Progress 0 l.size ∧ l.Progress 3 4 ∧ Construct.ofTokens l 4 3 = .skip 5 ∧
      l.Progress 21 26 := by
  obtain ⟨l, hl, hsize, ⟨hclass, hclassEnd⟩, ⟨hbody, hbodyEnd⟩, hskip⟩ : ∃ l,
      ofSource "a.cpp"
          "class C \x7b namespace \x7d; C::C() : b<()>\x7bq\x7d \x7b int x,; enum \x7d q <" = .ok l ∧
        l.size = 29 ∧ (l.text 2 = "\x7b" ∧ l.closing? 2 = some 4) ∧
        (l.text 20 = "\x7b" ∧ l.closing? 20 = some 26) ∧ Construct.ofTokens l 4 3 = .skip 5 :=
    exists_ok_of_any (by decide +kernel)
  obtain ⟨hwalk, hprogress⟩ := ofSource_progress hl
  exact ⟨l, hl, hsize, hwalk, hprogress _ _ .all, hprogress _ _ (.braces hclass hclassEnd), hskip,
    hprogress _ _ (.braces hbody hbodyEnd)⟩

end Listing

end StackEscape
