import StackEscape.Outline.Tree
import StackEscape.Proofs.Renaming.Extent

/-!
# Outlines under renaming

What is declared in a renamed listing is what was declared, with the names of types renamed.
-/

namespace StackEscape

variable {ρ : String → String} {l l' : Listing}

/-! ## Declarators -/

/-- A declarator in the renamed listing: of its fields, only the type is a name. -/
def Declarator.rename (ρ : String → String) (d : Declarator) : Declarator :=
  { d with typeName := ρ d.typeName }

def Declaration.rename (ρ : String → String) (d : Declaration) : Declaration :=
  ⟨d.first.rename ρ, d.others.map (Declarator.rename ρ)⟩

namespace Listing.Renamed

/-- Texts of a region have the fixed words where they were. -/
theorem contains_map_text (h : l.Renamed ρ l') {w : String} (hw : Word.isFixed w = true)
    (is : List Nat) : (is.map l'.text).contains w = (is.map l.text).contains w := by
  induction is with
  | nil => rfl
  | cons i is ih =>
    rw [List.map_cons, List.map_cons, List.contains_cons, List.contains_cons, ih]
    congr 1
    rw [Bool.eq_iff_iff, beq_iff_eq, beq_iff_eq, eq_comm, h.text_eq hw, eq_comm]

theorem any_map_text {q : String → Bool} (hq : ∀ i, q (l'.text i) = q (l.text i))
    (is : List Nat) : (is.map l'.text).any q = (is.map l.text).any q := by
  rw [List.any_map, List.any_map]
  congr 1
  exact funext hq

end Listing.Renamed

namespace Declarator

theorem isStaticWord_eq (h : l.Renamed ρ l') (i : Nat) :
    isStaticWord (l'.text i) = isStaticWord (l.text i) := by
  unfold isStaticWord
  simp (disch := decide) only [h.text_eq]

theorem isReferenceMark_eq (h : l.Renamed ρ l') (i : Nat) :
    isReferenceMark (l'.text i) = isReferenceMark (l.text i) := by
  unfold isReferenceMark
  simp (disch := decide) only [h.text_eq]

/-- The type that a declarator records is a name. -/
theorem isName_of_last {types : List Nat} {t : Nat}
    (ht : (types.filter (namesType l)).getLast? = some t) : l.isName t = true := by
  have hm := (List.mem_filter.mp (List.mem_of_getLast? ht)).2
  exact (Bool.and_eq_true_iff.mp hm).1

theorem ofTokens?_eq (h : l.Renamed ρ l') (start stop : Nat) :
    ofTokens? l' start stop = (ofTokens? l start stop).map (rename ρ) := by
  have htype : (namesType l') = namesType l := funext (namesType_eq h)
  unfold ofTokens?
  simp (disch := decide) only [h.text_eq, h.isName_eq, h.isStatementWord_eq, end?_eq h,
    h.isReservedInNames_eq, h.textBefore_eq, typeTokens?_eq h, htype, h.contains_map_text,
    Listing.Renamed.any_map_text (isStaticWord_eq h),
    Listing.Renamed.any_map_text (isReferenceMark_eq h)]
  repeat' split
  all_goals first
    | rfl
    | (next hlast => exact congrArg some (congrArg (fun w => Declarator.mk _ _ w _ _ _ _)
        (h.text_of_isName (isName_of_last hlast))))

theorem siblings_eq (h : l.Renamed ρ l') (stop : Nat) (first : Declarator) (j : Nat) :
    siblings l' stop (first.rename ρ) j = (siblings l stop first j).map (rename ρ) := by
  fun_induction siblings l stop first j
  all_goals
    rw [siblings]
    simp (disch := decide) only [h.text_eq, h.isName_eq, h.isStatementWord_eq, h.contains_text,
      h.initializerEnd_eq, h.passWords_eq, h.contains_map_text,
      Listing.Renamed.any_map_text (isReferenceMark_eq h)]
  case case1 hcomma _ hname =>
    rw [dif_pos hcomma, if_pos hname]
    rfl
  case case2 hcomma _ hname _ ih =>
    rw [dif_pos hcomma, if_neg hname, ih]
    rfl
  case case3 hcomma =>
    rw [dif_neg hcomma]
    rfl

end Declarator

theorem Declaration.ofTokens?_eq (h : l.Renamed ρ l') {terminators : List String}
    (hws : terminators.all Word.isFixed = true) (start stop : Nat) :
    ofTokens? l' terminators start stop = (ofTokens? l terminators start stop).map (rename ρ) := by
  unfold ofTokens?
  rw [Declarator.ofTokens?_eq h]
  cases Declarator.ofTokens? l start stop with
  | none => rfl
  | some d =>
    dsimp only [Option.map_some, Declarator.rename]
    rw [h.contains_text hws]
    split
    · rw [Option.map_some, rename, ← Declarator.siblings_eq h]
      rfl
    · rfl

/-! ## Headings -/

/-- The heading of a function in the renamed listing. A qualifier that is no name, as in
`"a" :: f ( )`, may be any other text that is none; and the name of the function is looked at by
nobody. -/
structure Heading.Renamed (ρ : String → String) (a b : Heading) : Prop where
  nameToken : b.nameToken = a.nameToken
  returns : b.returns = a.returns
  parameters : b.parameters = a.parameters.map (Declarator.rename ρ)
  bodyOpen : b.bodyOpen = a.bodyOpen
  bodyClose : b.bodyClose = a.bodyClose
  qualifier : b.qualifier = a.qualifier.map ρ ∨
    (∀ q ∈ a.qualifier, Lexeme.isIdentifier q = false) ∧
      ∀ q ∈ b.qualifier, Lexeme.isIdentifier q = false

namespace Heading

theorem parameterList?_eq (h : l.Renamed ρ l') (stop p : Nat) :
    parameterList? l' stop p = parameterList? l stop p := by
  fun_induction parameterList? l stop p
  all_goals
    rw [parameterList?]
    simp (disch := decide) only [h.text_eq, h.contains_text]
    grind [h.templateEnd?_eq]

theorem passQualifiers?_eq (h : l.Renamed ρ l') (stop q : Nat) :
    passQualifiers? l' stop q = passQualifiers? l stop q := by
  fun_induction passQualifiers? l stop q
  all_goals
    rw [passQualifiers?]
    simp (disch := decide) only [h.text_eq, h.contains_text, h.seek_eq]
    grind [h.closing?_eq]

theorem passInitializers?_eq (h : l.Renamed ρ l') (stop q : Nat) :
    passInitializers? l' stop q = passInitializers? l stop q := by
  have hopener : ∀ name, (if l'.text name = "<" then l'.templateEnd? stop name else some name) =
      if l.text name = "<" then l.templateEnd? stop name else some name := by
    intro name
    simp (disch := decide) only [h.text_eq, h.templateEnd?_eq]
  fun_induction passInitializers? l stop q
  all_goals
    rw [passInitializers?, h.passNames_eq (by decide)]
    dsimp only
    rw [hopener]
    simp (disch := decide) only [h.text_eq]
    grind [h.closing?_eq]

theorem bodyOpen?_eq (h : l.Renamed ρ l') (stop q : Nat) :
    bodyOpen? l' stop q = bodyOpen? l stop q := by
  unfold bodyOpen?
  simp (disch := decide) only [h.text_eq, passQualifiers?_eq h, passInitializers?_eq h]

theorem qualifiedStart_eq (h : l.Renamed ρ l') (start n : Nat) :
    qualifiedStart l' start n = qualifiedStart l start n := by
  fun_induction qualifiedStart l start n with
  | case1 n hc ih =>
    rw [qualifiedStart]
    simp (disch := decide) only [h.text_eq, h.isName_eq]
    rw [if_pos hc, ih]
  | case2 n hc =>
    rw [qualifiedStart]
    simp (disch := decide) only [h.text_eq, h.isName_eq]
    rw [if_neg hc]
  | case3 n hn =>
    match n, hn with
    | 0, _ => rfl
    | 1, _ => rfl
    | n + 2, hn => exact absurd rfl (hn n)

theorem returnCategory_eq (h : l.Renamed ρ l') (start n : Nat) :
    returnCategory l' start n = returnCategory l start n := by
  unfold returnCategory
  simp (disch := decide) only [h.text_eq]

theorem segments_eq (h : l.Renamed ρ l') (close segment j : Nat) :
    segments l' close segment j = segments l close segment j := by
  fun_induction segments l close segment j
  all_goals
    rw [segments]
    simp (disch := decide) only [h.text_eq, h.contains_text, h.passBracket_eq]
    grind [h.templateEnd?_eq]

theorem parameter?_eq (h : l.Renamed ρ l') (start stop : Nat) :
    parameter? l' start stop = (parameter? l start stop).map (Declarator.rename ρ) := by
  unfold parameter?
  rw [Declarator.ofTokens?_eq h]
  cases Declarator.ofTokens? l start stop with
  | none => rfl
  | some d =>
    simp (disch := decide) only [Option.map_some, Declarator.rename, h.text_eq]
    repeat' split
    all_goals rfl

theorem parametersOf_eq (h : l.Renamed ρ l') (opener close : Nat) :
    parametersOf l' opener close = (parametersOf l opener close).map (Declarator.rename ρ) := by
  unfold parametersOf
  rw [segments_eq h, List.map_filterMap]
  congr 1
  funext x
  exact parameter?_eq h ..

theorem namesFunction_eq (h : l.Renamed ρ l') (i : Nat) :
    namesFunction l' i = namesFunction l i := by
  unfold namesFunction
  rw [h.isName_eq, h.isStatementWord_eq, h.isReservedInNames_eq]

theorem nameToken?_eq (h : l.Renamed ρ l') (opener : Nat) (operator : Option Nat) :
    nameToken? l' opener operator = nameToken? l opener operator := by
  cases operator with
  | none => rw [nameToken?, namesFunction_eq h, nameToken?]
  | some _ => rfl

theorem renamed_ofTokens? (h : l.Renamed ρ l') (start stop : Nat) :
    Option.Rel (Renamed ρ) (ofTokens? l start stop) (ofTokens? l' start stop) := by
  unfold ofTokens?
  simp (disch := decide) only [h.text_eq, parameterList?_eq h, nameToken?_eq h, h.closing?_eq,
    bodyOpen?_eq h, qualifiedStart_eq h, returnCategory_eq h, parametersOf_eq h]
  repeat' split
  all_goals first
    | exact .none
    | exact .some ⟨rfl, rfl, rfl, rfl, rfl, .inl rfl⟩
    | refine .some ⟨rfl, rfl, rfl, rfl, rfl, ?_⟩
  all_goals
    refine (h.cases_text _).imp (congrArg some) fun hplain => ?_
    exact ⟨fun q hq => Option.some.inj hq ▸ hplain.1, fun q hq => Option.some.inj hq ▸ hplain.2⟩

end Heading

/-! ## Bodies -/

namespace Body

def Step.rename (ρ : String → String) : Step → Step
  | .declare d => .declare (d.rename ρ)
  | s => s

def Move.rename (ρ : String → String) (m : Move) : Move := { m with step := m.step.map (.rename ρ) }

theorem localTypeEnd?_eq (h : l.Renamed ρ l') (stop i : Nat) :
    localTypeEnd? l' stop i = localTypeEnd? l stop i := by
  unfold localTypeEnd?
  simp (disch := decide) only [h.text_eq, h.seek_eq, h.closing?_eq]

theorem endsHead_eq (h : l.Renamed ρ l') (i : Nat) : endsHead l' i = endsHead l i := by
  unfold endsHead
  rw [h.opening?_eq]
  split
  · next opener _ =>
    cases opener with
    | zero => rfl
    | succ opener => exact h.contains_text (by decide) opener
  · rfl

theorem opensStatement_eq (h : l.Renamed ρ l') (i : Nat) :
    opensStatement l' i = opensStatement l i := by
  unfold opensStatement
  simp (disch := decide) only [h.text_eq, endsHead_eq h]

theorem isMention_eq (h : l.Renamed ρ l') (i : Nat) : isMention l' i = isMention l i := by
  unfold isMention
  simp (disch := decide) only [h.isName_eq, h.textBefore_eq]

theorem pass_eq (h : l.Renamed ρ l') (i : Nat) : pass l' i = (pass l i).rename ρ := by
  unfold pass
  rw [isMention_eq h, opensStatement_eq h]
  split <;> rfl

theorem atStatement_eq (h : l.Renamed ρ l') (stop i : Nat) :
    atStatement l' stop i = (atStatement l stop i).rename ρ := by
  unfold atStatement
  rw [h.contains_text (by decide), localTypeEnd?_eq h, Declaration.ofTokens?_eq h (by decide),
    pass_eq h]
  split
  · rfl
  · cases Declaration.ofTokens? l Declaration.localTerminators i stop <;> rfl

theorem move_eq (h : l.Renamed ρ l') (stop i : Nat) (fresh : Bool) :
    move l' stop i fresh = (move l stop i fresh).rename ρ := by
  unfold move
  simp (disch := decide) only [h.text_eq, atStatement_eq h, pass_eq h]
  repeat' split
  all_goals rfl

theorem steps_eq (h : l.Renamed ρ l') (stop i : Nat) (fresh : Bool) :
    steps l' stop i fresh = (steps l stop i fresh).map (.rename ρ) := by
  fun_induction steps l stop i fresh with
  | case1 i fresh hi m ih =>
    rw [steps, if_pos hi, move_eq h, List.map_append, ← ih]
    change (m.step.map _).toList ++ _ = _
    cases m.step <;> rfl
  | case2 i fresh hi =>
    rw [steps, if_neg hi]
    rfl

end Body

/-! ## Constructs -/

/-- A text that is spelled like a name before and after it is renamed, or is empty. -/
def NamesBlock (ρ : String → String) (name : String) : Prop :=
  name = "" ∨ Lexeme.isIdentifier name = true ∧ Lexeme.isIdentifier (ρ name) = true

/-- What stands at a place of the renamed listing, given what stands there in the listing. -/
inductive Construct.Renamed (ρ : String → String) : Construct → Construct → Prop
  | skip (next : Nat) : Renamed ρ (.skip next) (.skip next)
  | block (kind : BlockKind) {name : String} (hname : NamesBlock ρ name)
      (opener closer next : Nat) :
      Renamed ρ (.block kind name opener closer next) (.block kind (ρ name) opener closer next)
  | linkage (opener closer : Nat) : Renamed ρ (.linkage opener closer) (.linkage opener closer)
  | function {a b : Heading} (heading : a.Renamed ρ b) : Renamed ρ (.function a) (.function b)
  | declaration (d : Declaration) (next : Nat) :
      Renamed ρ (.declaration d next) (.declaration (d.rename ρ) next)

namespace Construct

theorem nameAt_eq (h : l.Renamed ρ l') (i : Nat) : nameAt l' i = ρ (nameAt l i) := by
  unfold nameAt
  rw [h.isName_eq]
  split
  · next hi => exact h.text_of_isName hi
  · exact h.names.empty.symm

theorem namesBlock_nameAt (h : l.Renamed ρ l') (i : Nat) : NamesBlock ρ (nameAt l i) := by
  unfold nameAt
  split
  · next hi => exact .inr (h.isIdentifier_of_isName hi)
  · exact .inl rfl

theorem renamed_namespaceAt (h : l.Renamed ρ l') (stop i : Nat) :
    Renamed ρ (namespaceAt l stop i) (namespaceAt l' stop i) := by
  unfold namespaceAt
  simp (disch := decide) only [h.text_eq, h.seek_eq, h.closing?_eq, nameAt_eq h]
  split
  · exact .block _ (namesBlock_nameAt h _) ..
  · exact .skip _

theorem classHeadEnd?_eq (h : l.Renamed ρ l') (stop j : Nat) :
    classHeadEnd? l' stop j = classHeadEnd? l stop j := by
  fun_induction classHeadEnd? l stop j
  all_goals
    rw [classHeadEnd?]
    simp (disch := decide) only [h.text_eq, h.contains_text]
    grind [h.templateEnd?_eq]

theorem behindClass_eq (h : l.Renamed ρ l') (stop closer : Nat) :
    behindClass l' stop closer = behindClass l stop closer := by
  unfold behindClass
  simp (disch := decide) only [h.text_eq, h.passNames_eq]

theorem renamed_classAt? (h : l.Renamed ρ l') (stop i : Nat) :
    Option.Rel (Renamed ρ) (classAt? l stop i) (classAt? l' stop i) := by
  unfold classAt?
  simp (disch := decide) only [h.text_eq, classHeadEnd?_eq h, h.closing?_eq, nameAt_eq h,
    behindClass_eq h]
  repeat' split
  · exact .none
  · exact .some (.block _ (namesBlock_nameAt h _) ..)
  · exact .none

theorem renamed_statementAt (h : l.Renamed ρ l') (stop i : Nat) :
    Renamed ρ (statementAt l stop i) (statementAt l' stop i) := by
  unfold statementAt
  have hheading := Heading.renamed_ofTokens? h i stop
  generalize Heading.ofTokens? l i stop = a at hheading
  generalize Heading.ofTokens? l' i stop = b at hheading
  cases hheading with
  | some hr => exact .function hr
  | none =>
    rw [Declaration.ofTokens?_eq h (by decide), h.statementEnd_eq]
    cases Declaration.ofTokens? l Declaration.memberTerminators i stop with
    | none => exact .skip _
    | some d => exact .declaration d _

theorem renamed_ofTokens (h : l.Renamed ρ l') (stop i : Nat) :
    Renamed ρ (ofTokens l stop i) (ofTokens l' stop i) := by
  unfold ofTokens
  simp (disch := decide) only [h.text_eq, h.contains_text, h.isString_eq, h.closing?_eq,
    h.templateEnd?_eq, h.statementEnd_eq]
  repeat' split
  all_goals first
    | exact .skip _
    | exact .linkage ..
    | exact renamed_namespaceAt h ..
    | exact renamed_statementAt h ..
    | skip
  have hclass := renamed_classAt? h stop i
  generalize classAt? l stop i = a at hclass
  generalize classAt? l' stop i = b at hclass
  cases hclass with
  | some hr => exact hr
  | none => exact renamed_statementAt h stop i

end Construct

/-! ## Outlines -/

inductive Outline.Renamed (ρ : String → String) : Outline → Outline → Prop
  | done : Renamed ρ .done .done
  | block (kind : BlockKind) {name : String} (hname : NamesBlock ρ name) (opener closer : Nat)
      {inside inside' after after' : Outline} (hinside : Renamed ρ inside inside')
      (hafter : Renamed ρ after after') :
      Renamed ρ (.block kind name opener closer inside after)
        (.block kind (ρ name) opener closer inside' after')
  | linkage {inside inside' after after' : Outline} (hinside : Renamed ρ inside inside')
      (hafter : Renamed ρ after after') :
      Renamed ρ (.linkage inside after) (.linkage inside' after')
  | function {a b : Heading} (heading : a.Renamed ρ b) (body : List Body.Step)
      {after after' : Outline} (hafter : Renamed ρ after after') :
      Renamed ρ (.function a body after) (.function b (body.map (.rename ρ)) after')
  | declaration (d : Declaration) {after after' : Outline} (hafter : Renamed ρ after after') :
      Renamed ρ (.declaration d after) (.declaration (d.rename ρ) after')

theorem Outline.renamed_ofTokens (h : l.Renamed ρ l') (stop i : Nat) :
    Renamed ρ (ofTokens l stop i) (ofTokens l' stop i) := by
  have hconstruct : ∀ {stop i : Nat} {c : Construct}, Construct.ofTokens l stop i = c →
      ∃ c', Construct.ofTokens l' stop i = c' ∧ c.Renamed ρ c' :=
    fun hc => ⟨_, rfl, hc ▸ Construct.renamed_ofTokens h ..⟩
  fun_induction ofTokens l stop i with
  | case1 stop i hi next hc ih =>
    obtain ⟨c', hc', hr⟩ := hconstruct hc
    rw [ofTokens.eq_def l' stop i, if_pos hi, hc']
    cases hr with
    | skip => exact ih
  | case2 stop i hi kind name opener closer next hc ihin ihout =>
    obtain ⟨c', hc', hr⟩ := hconstruct hc
    rw [ofTokens.eq_def l' stop i, if_pos hi, hc']
    cases hr with
    | block _ hname => exact .block _ hname _ _ ihin ihout
  | case3 stop i hi opener closer hc ihin ihout =>
    obtain ⟨c', hc', hr⟩ := hconstruct hc
    rw [ofTokens.eq_def l' stop i, if_pos hi, hc']
    cases hr with
    | linkage => exact .linkage ihin ihout
  | case4 stop i hi heading hc ih =>
    obtain ⟨c', hc', hr⟩ := hconstruct hc
    rw [ofTokens.eq_def l' stop i, if_pos hi, hc']
    cases hr with
    | function hr =>
      dsimp only
      rw [hr.bodyOpen, hr.bodyClose, Body.steps_eq h]
      exact .function hr _ ih
  | case5 stop i hi d next hc ih =>
    obtain ⟨c', hc', hr⟩ := hconstruct hc
    rw [ofTokens.eq_def l' stop i, if_pos hi, hc']
    cases hr with
    | declaration => exact .declaration _ ih
  | case6 stop i hi =>
    rw [ofTokens, if_neg hi]
    exact .done

end StackEscape
