import StackEscape.Proofs.Outline.Marks
import StackEscape.Proofs.Outline.Tokens

/-!
# Types and parameters

Whatever an outline declares has its type in front of its name, and the parameters of a function
stand between the parentheses behind the name of the function. Which parentheses those are is read
off the name token alone: behind `operator` a pair of brackets may belong to the name.
-/

namespace StackEscape

namespace Listing

/-- Where the parameter list opens of the function with the name token `name`. -/
def parameterOpener (l : Listing) (name : Nat) : Nat :=
  if l.text name = "operator" then
    if (l.text (name + 1) = "(" && l.text (name + 2) = ")")
        || (l.text (name + 1) = "[" && l.text (name + 2) = "]") then name + 3
    else name + 2
  else name + 1

/-- The token at `i` stands between the parentheses of the parameter list that belongs to the
function with the name token `name`. -/
def BetweenParameters (l : Listing) (name i : Nat) : Prop :=
  l.text (l.parameterOpener name) = "(" ∧ l.parameterOpener name < i ∧
    ∃ close, l.closing? (l.parameterOpener name) = some close ∧ i < close

end Listing

namespace Heading

variable {l : Listing} {start stop opener : Nat}

/-- A parameter list opens with a parenthesis, and an operator in front of it tells where. -/
theorem opens_of_parameterList? {p : Nat} {operator : Option Nat}
    (h : parameterList? l stop p = some (opener, operator)) :
    l.text opener = "(" ∧
      ∀ name ∈ operator, l.text name = "operator" ∧ l.parameterOpener name = opener := by
  fun_induction parameterList? l stop p with
  | case1 p _ _ hparen =>
    obtain ⟨rfl, rfl⟩ := Prod.mk.inj (Option.some.inj h)
    refine ⟨hparen, fun name hname => ?_⟩
    cases hname
  | case2 p _ _ _ hword call index o hparen =>
    obtain ⟨rfl, rfl⟩ := Prod.mk.inj (Option.some.inj h)
    refine ⟨hparen, fun name hname => ?_⟩
    obtain rfl := Option.some.inj hname
    exact ⟨hword, if_pos hword⟩
  | case3 => cases h
  | case4 => cases h
  | case5 _ _ _ _ _ _ _ _ _ ih => exact ih h
  | case6 _ _ _ _ _ _ _ _ ih => exact ih h
  | case7 _ _ _ _ _ _ _ ih => exact ih h
  | case8 => cases h

/-- The name of a function tells where its parameter list opens. -/
theorem parameterOpener_of_nameToken? {operator : Option Nat} {name : Nat} (hpos : 0 < opener)
    (hoperator : ∀ name ∈ operator, l.text name = "operator" ∧ l.parameterOpener name = opener)
    (h : nameToken? l opener operator = some name) : l.parameterOpener name = opener := by
  cases operator with
  | some o =>
    obtain rfl := Option.some.inj h
    exact (hoperator o rfl).2
  | none =>
    obtain ⟨hnames, hname⟩ := Option.ite_none_right_eq_some.mp h
    obtain rfl := Option.some.inj hname
    have hword : l.text (opener - 1) ≠ "operator" := by
      intro ht
      rw [namesFunction, ht] at hnames
      simp [Word.isStatementWord, Word.statementWords] at hnames
    rw [Listing.parameterOpener, if_neg hword]
    exact Nat.succ_pred_eq_of_pos hpos

/-- The parameters of a heading are those of the list behind its name. -/
theorem exists_parameters {heading : Heading} (h : ofTokens? l start stop = some heading) :
    l.text (l.parameterOpener heading.nameToken) = "(" ∧
      ∃ close, l.closing? (l.parameterOpener heading.nameToken) = some close ∧
        heading.parameters = parametersOf l (l.parameterOpener heading.nameToken) close := by
  obtain ⟨opener, operator, close, hr⟩ := reads_of_ofTokens? h
  obtain ⟨hparen, hoperator⟩ := opens_of_parameterList? hr.list
  rw [parameterOpener_of_nameToken? (Nat.zero_lt_of_lt hr.starts) hoperator hr.named]
  exact ⟨hparen, close, hr.closes, hr.parameters⟩

/-- Parameters have the shape of declarators, and stand between the parentheses behind the name of
the function. -/
theorem between_of_mem_parameters {heading : Heading}
    (h : ofTokens? l start stop = some heading) {d : Declarator} (hd : d ∈ heading.parameters) :
    d.Shaped l ∧ l.BetweenParameters heading.nameToken d.nameToken := by
  obtain ⟨hparen, close, hclose, hparameters⟩ := exists_parameters h
  rw [hparameters] at hd
  obtain ⟨hopen, hlt⟩ := within_of_mem_parametersOf hd
  refine ⟨?_, hparen, hopen, close, hclose, hlt⟩
  obtain ⟨_, _, hparameter⟩ := List.mem_filterMap.mp hd
  exact shaped_of_parameter? hparameter

end Heading

namespace Outline

/-- Whatever an outline declares has the shape of declarators, and its parameters stand between
parentheses. -/
def Shaped (l : Listing) : Outline → Prop
  | .done => True
  | .block _ _ _ _ inside after => inside.Shaped l ∧ after.Shaped l
  | .linkage inside after => inside.Shaped l ∧ after.Shaped l
  | .function heading body after =>
    (∀ d ∈ heading.parameters, d.Shaped l ∧ l.BetweenParameters heading.nameToken d.nameToken) ∧
    (∀ d, .declare d ∈ body → ∀ x ∈ d.declarators, x.Shaped l) ∧ after.Shaped l
  | .declaration d after => (∀ x ∈ d.declarators, x.Shaped l) ∧ after.Shaped l

theorem shaped_ofTokens (l : Listing) (stop i : Nat) :
    (ofTokens l stop i).Shaped l := by
  fun_induction ofTokens l stop i with
  | case1 _ _ _ _ _ ih => exact ih
  | case2 _ _ _ _ _ _ _ _ _ ihin ihout => exact ⟨ihin, ihout⟩
  | case3 _ _ _ _ _ _ ihin ihout => exact ⟨ihin, ihout⟩
  | case4 stop i _ heading hc ih =>
    have hf := Construct.found_ofTokens l stop i
    rw [hc] at hf
    refine ⟨fun d hd => Heading.between_of_mem_parameters hf hd, fun d hd => ?_, ih⟩
    obtain ⟨x, _, _, hreads⟩ := Body.exists_reads_of_declare_mem hd
    exact Declaration.shaped_ofTokens? hreads
  | case5 stop i _ d next hc ih =>
    have hf := Construct.found_ofTokens l stop i
    rw [hc] at hf
    exact ⟨Declaration.shaped_ofTokens? hf, ih⟩
  | case6 => trivial

end Outline

end StackEscape
