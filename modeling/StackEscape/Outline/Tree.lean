import StackEscape.Outline.Heading
import StackEscape.Outline.Body

/-!
# Outlines

The outline of a source is what its declarations are, nested as they are: namespaces, class bodies,
function definitions and declared names. It depends on the tokens alone. `Construct.ofTokens` tells
what stands at one place, and `Outline.ofTokens` goes through a region and into the braces in it.
-/

namespace StackEscape

inductive BlockKind where
  | namespaceBlock
  | classBody
deriving DecidableEq, Repr

/-- The declarations of a region, in order. -/
inductive Outline where
  | done
  /-- Braces with a name of their own, and what follows them. -/
  | block (kind : BlockKind) (name : String) (opener closer : Nat) (inside after : Outline)
  /-- Braces that only say how names are linked; what they hold belongs to the region around. -/
  | linkage (inside after : Outline)
  | function (heading : Heading) (body : List Body.Step) (after : Outline)
  | declaration (declaration : Declaration) (after : Outline)
deriving DecidableEq, Repr

/-- What stands at one place of a region, and where the next thing stands. -/
inductive Construct where
  | skip (next : Nat)
  | block (kind : BlockKind) (name : String) (opener closer next : Nat)
  | linkage (opener closer : Nat)
  | function (heading : Heading)
  | declaration (declaration : Declaration) (next : Nat)
deriving DecidableEq, Repr

namespace Construct

def next : Construct → Nat
  | skip n => n
  | block _ _ _ _ n => n
  | linkage _ closer => closer + 1
  | function heading => heading.bodyClose + 1
  | declaration _ n => n

def nameAt (l : Listing) (i : Nat) : String := if l.isName i then l.text i else ""

def namespaceAt (l : Listing) (stop i : Nat) : Construct :=
  let j := l.seek ["\x7b", ";"] stop (i + 1)
  match if l.text j = "\x7b" then l.closing? j else none with
  | some closer => block .namespaceBlock (nameAt l (i + 1)) j closer (closer + 1)
  | none => skip (j + 1)

/-- Where the heading of a class that reaches to `j` ends. -/
def classHeadEnd? (l : Listing) (stop j : Nat) : Option Nat :=
  if j < stop then
    if ["\x7b", ";", "(", "=", ")"].contains (l.text j) then some j
    else if l.text j = "<" then
      match _h : l.templateEnd? stop j with
      | some k => classHeadEnd? l stop k
      | none => none
    else classHeadEnd? l stop (j + 1)
  else some j
termination_by stop - j
decreasing_by
  · have := Listing.lt_templateEnd? ‹_›; omega
  · omega

theorem le_classHeadEnd? {l : Listing} {stop i j : Nat}
    (h : classHeadEnd? l stop i = some j) : i ≤ j := by
  fun_induction classHeadEnd? l stop i with
  | case1 => simp at h; omega
  | case2 _ _ _ _ _ ht ih => have := ih h; have := Listing.lt_templateEnd? ht; omega
  | case3 => simp at h
  | case4 _ _ _ _ ih => have := ih h; omega
  | case5 => simp at h; omega

/-- Index behind a class body that closes at `closer`: the objects declared right after it are
passed over, up to their `;`. -/
def behindClass (l : Listing) (stop closer : Nat) : Nat :=
  let k := l.passNames ["*", "&", ","] stop (closer + 1)
  if l.text k = ";" then k + 1 else closer + 1

/-- The class that starts at `i`, if a body follows. -/
def classAt? (l : Listing) (stop i : Nat) : Option Construct :=
  match classHeadEnd? l stop (i + 1) with
  | none => none
  | some j =>
    match if l.text j = "\x7b" then l.closing? j else none with
    | some closer =>
      some (block .classBody (nameAt l (i + 1)) j closer (behindClass l stop closer))
    | none => none

def statementAt (l : Listing) (stop i : Nat) : Construct :=
  match Heading.ofTokens? l i stop with
  | some heading => function heading
  | none =>
    match Declaration.ofTokens? l Declaration.memberTerminators i stop with
    | some d => declaration d (l.statementEnd stop i)
    | none => skip (l.statementEnd stop i)

def ofTokens (l : Listing) (stop i : Nat) : Construct :=
  let w := l.text i
  if w = ";" || w = "\x7d" then skip (i + 1)
  else if ["public", "private", "protected"].contains w && l.text (i + 1) = ":" then skip (i + 2)
  else if w = "namespace" then namespaceAt l stop i
  else if w = "extern" && l.isString (i + 1) && l.text (i + 2) = "\x7b" then
    match l.closing? (i + 2) with
    | some closer => linkage (i + 2) closer
    | none => skip (i + 1)
  else if w = "template" && l.text (i + 1) = "<" then
    skip ((l.templateEnd? stop (i + 1)).getD (i + 2))
  else if ["typedef", "using", "enum"].contains w then skip (l.statementEnd stop i)
  else if ["class", "struct", "union"].contains w then
    (classAt? l stop i).getD (statementAt l stop i)
  else statementAt l stop i

def opener? : Construct → Option Nat
  | block _ _ opener _ _ => some opener
  | linkage opener _ => some opener
  | _ => none

/-- That a construct lies behind the place `i` where it was looked for, so that whoever goes on
behind it or into it has moved forward. -/
def MovesFrom (i : Nat) (c : Construct) : Prop := i < c.next ∧ ∀ o ∈ c.opener?, i < o

theorem movesFrom_skip {i n : Nat} (h : i < n) : (skip n).MovesFrom i := ⟨h, by simp [opener?]⟩

theorem movesFrom_namespaceAt (l : Listing) (stop i : Nat) :
    (namespaceAt l stop i).MovesFrom i := by
  have hj := l.le_seek ["\x7b", ";"] stop (i + 1)
  simp only [namespaceAt]
  split
  · next h =>
    split at h
    · have := Listing.lt_of_closing? h
      exact ⟨by simp only [next]; omega, by simp only [opener?]; intro o ho; cases ho; omega⟩
    · simp at h
  · exact movesFrom_skip (by omega)

theorem movesFrom_statementAt (l : Listing) (stop i : Nat) :
    (statementAt l stop i).MovesFrom i := by
  have hs := l.lt_statementEnd stop i
  unfold statementAt
  split
  · next h =>
    have := Heading.lt_bodyOpen h
    exact ⟨by simp only [next]; omega, by simp [opener?]⟩
  · split
    · exact ⟨hs, by simp [opener?]⟩
    · exact movesFrom_skip hs

theorem movesFrom_classAt? {l : Listing} {stop i : Nat} {c : Construct}
    (h : classAt? l stop i = some c) : c.MovesFrom i := by
  unfold classAt? at h
  split at h
  · simp at h
  · next hj =>
    have := le_classHeadEnd? hj
    split at h
    · next closer hc =>
      split at hc
      · have := Listing.lt_of_closing? hc
        have hk := l.le_passNames ["*", "&", ","] stop (closer + 1)
        obtain rfl := Option.some.inj h
        refine ⟨?_, by simp only [opener?]; intro o ho; cases ho; omega⟩
        simp only [next, behindClass]
        split <;> omega
      · simp at hc
    · simp at h

theorem movesFrom_ofTokens (l : Listing) (stop i : Nat) : (ofTokens l stop i).MovesFrom i := by
  simp only [ofTokens]
  repeat' split
  · exact movesFrom_skip (by omega)
  · exact movesFrom_skip (by omega)
  · exact movesFrom_namespaceAt l stop i
  · next h =>
    have := Listing.lt_of_closing? h
    exact ⟨by simp only [next]; omega, by simp only [opener?]; intro o ho; cases ho; omega⟩
  · exact movesFrom_skip (by omega)
  · refine movesFrom_skip ?_
    rcases h : l.templateEnd? stop (i + 1) with _ | j
    · simp
    · have := Listing.lt_templateEnd? h
      simp only [Option.getD_some]
      omega
  · exact movesFrom_skip (l.lt_statementEnd stop i)
  · rcases h : classAt? l stop i with _ | c
    · exact movesFrom_statementAt l stop i
    · exact movesFrom_classAt? h
  · exact movesFrom_statementAt l stop i

end Construct

/-- The outline of the region from `i` to `stop`. Braces inside it are read up to their end or
the end of the region. -/
def Outline.ofTokens (l : Listing) (stop i : Nat) : Outline :=
  if i < stop then
    match _h : Construct.ofTokens l stop i with
    | .skip next => ofTokens l stop next
    | .block kind name opener closer next =>
      .block kind name opener closer (ofTokens l (min closer stop) (opener + 1))
        (ofTokens l stop next)
    | .linkage opener closer =>
      .linkage (ofTokens l (min closer stop) (opener + 1)) (ofTokens l stop (closer + 1))
    | .function heading =>
      .function heading (Body.steps l heading.bodyClose (heading.bodyOpen + 1) true)
        (ofTokens l stop (heading.bodyClose + 1))
    | .declaration d next => .declaration d (ofTokens l stop next)
  else .done
termination_by stop - i
decreasing_by
  all_goals
    have hm := Construct.movesFrom_ofTokens l stop i
    simp only [_h, Construct.MovesFrom, Construct.next, Construct.opener?, Option.mem_def,
      Option.some.injEq, forall_eq'] at hm
    omega

def Listing.outline (l : Listing) : Outline := Outline.ofTokens l l.size 0

end StackEscape
