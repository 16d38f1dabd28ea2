import StackEscape.Check
import StackEscape.Proofs.Escape.Shapes
import StackEscape.Proofs.Renaming.Pattern

/-!
# Findings under renaming

The passes find the same in a renamed program, at the same tokens. Only the message about a returned
parameter changes: it tells the name.
-/

namespace StackEscape

variable {ρ : String → String} {p p' : Program} {b : Bool} {i : Nat}

/-- The same finding in a renamed program. The message about a function parameter tells the name two
tokens behind the `return`, renamed. -/
structure Finding.Renamed (ρ : String → String) (p : Program) (x y : Finding) : Prop where
  anchor : y.anchor = x.anchor
  rule : y.rule = x.rule
  confidence : y.confidence = x.confidence
  message : x.rule ≠ .returnAddressOfFunctionParameter → y.message = x.message
  parameter : x.rule = .returnAddressOfFunctionParameter →
    p.listing.isName (x.anchor + 2) = true ∧
      x.message = Message.returnParameterAddress (p.text (x.anchor + 2)) ∧
      y.message = Message.returnParameterAddress (ρ (p.text (x.anchor + 2)))

theorem Rule.autoVariables_ne : Rule.autoVariables ≠ .returnAddressOfFunctionParameter := nofun

theorem Finding.renamed_self {x : Finding} (hx : x.rule ≠ .returnAddressOfFunctionParameter) :
    x.Renamed ρ p x := ⟨rfl, rfl, rfl, fun _ => rfl, fun h => absurd h hx⟩

/-- Maps that agree on the names of a program rename its findings alike. -/
theorem Finding.Renamed.congr {σ : String → String} {x y : Finding} (h : x.Renamed σ p y)
    (hagree : ∀ i, p.listing.isName i = true → σ (p.text i) = ρ (p.text i)) : x.Renamed ρ p y := by
  refine ⟨h.anchor, h.rule, h.confidence, h.message, fun hrule => ?_⟩
  obtain ⟨hname, hx, hy⟩ := h.parameter hrule
  exact ⟨hname, hx, hagree _ hname ▸ hy⟩

/-! ## Relations on optional values and lists -/

theorem rel_findSome? {α β γ : Type} {R : β → γ → Prop} {f : α → Option β} {g : α → Option γ}
    {xs : List α} (h : ∀ x ∈ xs, Option.Rel R (f x) (g x)) :
    Option.Rel R (xs.findSome? f) (xs.findSome? g) := by
  induction xs with
  | nil => exact .none
  | cons x xs ih =>
    obtain ⟨hx, hxs⟩ := List.forall_mem_cons.mp h
    rw [List.findSome?_cons, List.findSome?_cons]
    generalize f x = y at hx
    generalize g x = z at hx
    cases hx with
    | some hr => exact .some hr
    | none => exact ih hxs

theorem rel_toList {α β : Type} {R : α → β → Prop} {x : Option α} {y : Option β}
    (h : Option.Rel R x y) : List.Forall₂ R x.toList y.toList := by
  cases h with
  | some hr => exact .cons hr .nil
  | none => exact .nil

namespace Program.Renamed

theorem renamed_functionScopes (h : p.Renamed ρ p') :
    List.Forall₂ (Scope.Renamed ρ) p.symbols.functionScopes p'.symbols.functionScopes := by
  refine List.rel_filter (fun s s' hs => ?_) h.symbols.scopes
  simp only [Scope.isFunction, hs.kind]

/-- What a function returns does not depend on its name. -/
theorem any_functionOf?_eq (h : p.Renamed ρ p') {s s' : Scope} (hs : s.Renamed ρ s')
    (wanted : ReturnCategory → Bool) :
    ((p'.symbols.functionOf? s').any fun f => wanted f.returns) =
      (p.symbols.functionOf? s).any fun f => wanted f.returns := by
  unfold SymbolTable.functionOf?
  rw [hs.function]
  cases s.function with
  | none => rfl
  | some id =>
    change (p'.symbols.getFunction? id).any _ = (p.symbols.getFunction? id).any _
    rcases h.symbols.cases_getFunction? id with ⟨hn, hn'⟩ | ⟨f, f', hf, hf', hr⟩
    · rw [hn, hn']
    · rw [hf, hf', Option.any_some, Option.any_some, hr.returns]

end Program.Renamed

namespace Assignment

structure Hit.Renamed (ρ : String → String) (p : Program) (g h : Hit) : Prop where
  advance : h.advance = g.advance
  finding : Option.Rel (Finding.Renamed ρ p) g.finding h.finding

theorem renamed_findingIf {x y : Finding} (condition : Bool) (hxy : x.Renamed ρ p y) :
    Option.Rel (Finding.Renamed ρ p) (findingIf condition x) (findingIf condition y) := by
  unfold findingIf
  split
  · exact .some hxy
  · exact .none

/-- A hit whose finding, if any, is not about a returned parameter. -/
theorem Hit.renamed_findingIf (advance : Nat) (condition : Bool) {x : Finding}
    (hx : x.rule ≠ .returnAddressOfFunctionParameter) :
    Hit.Renamed ρ p ⟨advance, findingIf condition x⟩ ⟨advance, findingIf condition x⟩ :=
  ⟨rfl, Assignment.renamed_findingIf condition (Finding.renamed_self hx)⟩

/-! ## The rules of the first pass -/

theorem renamed_toReference (h : p.Renamed ρ p') :
    Option.Rel (Hit.Renamed ρ p) (toReference p b i) (toReference p' b i) := by
  simp only [toReference, h.matchesAt_eq (show referencePattern.isFixed = true by decide),
    h.referenceArgumentAt_eq, h.automaticAt_eq, h.wholeAddressAt_eq]
  split
  · exact .some (Hit.renamed_findingIf _ _ Rule.autoVariables_ne)
  · exact .none

theorem renamed_throughPointer (h : p.Renamed ρ p') :
    Option.Rel (Hit.Renamed ρ p) (throughPointer p b i) (throughPointer p' b i) := by
  simp only [throughPointer, h.matchesAt_eq (show pointerPattern.isFixed = true by decide),
    h.pointerArgumentAt_eq, h.automaticAt_eq, h.wholeAddressAt_eq]
  split
  · exact .some (Hit.renamed_findingIf _ _ Rule.autoVariables_ne)
  · exact .none

theorem renamed_toMember (h : p.Renamed ρ p') :
    Option.Rel (Hit.Renamed ρ p) (toMember p b i) (toMember p' b i) := by
  simp only [toMember, h.matchesAt_eq (show memberAddressPattern.isFixed = true by decide),
    h.pointerArgumentAt_eq, h.automaticAt_eq, h.wholeAddressAt_eq]
  split
  · exact .some (Hit.renamed_findingIf _ _ Rule.autoVariables_ne)
  · exact .none

theorem renamed_arrayToMember (h : p.Renamed ρ p') :
    Option.Rel (Hit.Renamed ρ p) (arrayToMember p b i) (arrayToMember p' b i) := by
  simp only [arrayToMember, h.matchesAt_eq (show memberNamePattern.isFixed = true by decide),
    h.pointerArgumentAt_eq, h.automaticArrayAt_eq]
  split
  · exact .some (Hit.renamed_findingIf _ _ Rule.autoVariables_ne)
  · exact .none

theorem isDoublePointerArgument_eq (h : p.Renamed ρ p') (v : Variable) :
    isDoublePointerArgument p' (v.rename ρ) = isDoublePointerArgument p v := by
  unfold isDoublePointerArgument
  rw [h.matchesAt_eq (show doublePointerPattern.isFixed = true by decide)]
  rfl

theorem renamed_arrayThroughPointer (h : p.Renamed ρ p') :
    Option.Rel (Hit.Renamed ρ p) (arrayThroughPointer p b i) (arrayThroughPointer p' b i) := by
  simp only [arrayThroughPointer, h.matchesAt_eq (show pointedNamePattern.isFixed = true by decide),
    h.variableAt?_eq, Option.any_map, isDoublePointerArgument_eq h, h.automaticArrayAt_eq]
  split
  · exact .some (Hit.renamed_findingIf _ _ Rule.autoVariables_ne)
  · exact .none

theorem renamed_toElement (h : p.Renamed ρ p') :
    Option.Rel (Hit.Renamed ρ p) (toElement p b i) (toElement p' b i) := by
  simp only [toElement, h.matchesAt_eq (show indexedPattern.isFixed = true by decide),
    h.matchesAt_eq (show indexedTailPattern.isFixed = true by decide), h.listing.closing?_eq,
    h.pointerArgumentAt_eq, h.automaticAt_eq, h.wholeAddressAt_eq]
  repeat' split
  · exact .some (Hit.renamed_findingIf _ _ Rule.autoVariables_ne)
  all_goals exact .none

theorem returnsElementAddress_eq (h : p.Renamed ρ p') :
    returnsElementAddress p' i = returnsElementAddress p i := by
  unfold returnsElementAddress
  rw [h.matchesAt_eq (by decide), h.listing.closing?_eq]
  congr 2
  exact funext (h.matchesAt_eq (by decide))

theorem renamed_returnOfLocal (h : p.Renamed ρ p') :
    Option.Rel (Hit.Renamed ρ p) (returnOfLocal p b i) (returnOfLocal p' b i) := by
  simp only [returnOfLocal, h.matchesAt_eq (show returnAddressPattern.isFixed = true by decide),
    returnsElementAddress_eq h, h.automaticAt_eq, h.automaticArrayAt_eq]
  split
  · exact .some ⟨rfl, .some (Finding.renamed_self nofun)⟩
  · exact .none

theorem isValueArgument_eq (h : p.Renamed ρ p') (v : Variable) :
    isValueArgument p' (v.rename ρ) = isValueArgument p v := by
  unfold isValueArgument Program.text
  simp (disch := decide) only [bne, beq_eq_decide, h.listing.text_eq]
  rfl

/-- The message about a returned parameter tells the name. -/
theorem renamed_parameter (h : p.Renamed ρ p') (hname : p.listing.isName (i + 2) = true) :
    Finding.Renamed ρ p
      (.definite i .returnAddressOfFunctionParameter
        (Message.returnParameterAddress (p.text (i + 2))))
      (.definite i .returnAddressOfFunctionParameter
        (Message.returnParameterAddress (p'.text (i + 2)))) := by
  have htext : p'.text (i + 2) = ρ (p.text (i + 2)) := h.listing.text_of_isName hname
  rw [htext]
  refine ⟨?_, ?_, ?_, fun hne => absurd rfl hne, fun _ => ⟨hname, ?_, ?_⟩⟩
  all_goals simp only [Finding.definite]

theorem renamed_returnOfArgument (h : p.Renamed ρ p') :
    Option.Rel (Hit.Renamed ρ p) (returnOfArgument p b i) (returnOfArgument p' b i) := by
  simp only [returnOfArgument, h.matchesAt_eq (show returnAddressPattern.isFixed = true by decide),
    h.variableIdAt?_eq, h.variableAt?_eq, Option.any_map, isValueArgument_eq h]
  split
  · next hc =>
    obtain ⟨_, _, hname, _⟩ := returnAddress_matches.mp (Bool.and_eq_true_iff.mp hc).1
    exact .some ⟨rfl, renamed_findingIf _ (renamed_parameter h hname)⟩
  · exact .none

theorem nextName?_eq (h : p.Renamed ρ p') (i : Nat) : nextName? p' i = nextName? p i := by
  unfold nextName?
  rw [h.listing.size_eq]
  congr 1
  exact funext h.listing.isName_eq

theorem renamed_deallocation (h : p.Renamed ρ p') :
    Option.Rel (Hit.Renamed ρ p) (deallocation p b i) (deallocation p' b i) := by
  simp only [deallocation, h.matchesAt_eq (show freePattern.isFixed = true by decide),
    h.matchesAt_eq (show deletePattern.isFixed = true by decide), nextName?_eq h,
    h.automaticArrayAt_eq]
  split
  · cases nextName? p (i + 1) with
    | none => exact .none
    | some name => exact .some (Hit.renamed_findingIf _ _ nofun)
  · exact .none

/-- The first rule that applies is the same, and so is what it makes of the token. -/
theorem renamed_hit? (h : p.Renamed ρ p') (b : Bool) (i : Nat) :
    Option.Rel (Hit.Renamed ρ p) (hit? p b i) (hit? p' b i) := by
  refine rel_findSome? fun m hm => ?_
  simp only [matchers, List.mem_cons, List.not_mem_nil, or_false] at hm
  rcases hm with rfl | rfl | rfl | rfl | rfl | rfl | rfl | rfl | rfl
  · exact renamed_toReference h
  · exact renamed_throughPointer h
  · exact renamed_toMember h
  · exact renamed_arrayToMember h
  · exact renamed_arrayThroughPointer h
  · exact renamed_toElement h
  · exact renamed_returnOfLocal h
  · exact renamed_returnOfArgument h
  · exact renamed_deallocation h

/-! ## Passes -/

theorem renamed_findings (h : p.Renamed ρ p') (b : Bool) (stop i : Nat) :
    List.Forall₂ (Finding.Renamed ρ p) (findings p b stop i) (findings p' b stop i) := by
  fun_induction findings p b stop i with
  | case1 i hi hit hh ih =>
    have hrel := renamed_hit? h b i
    rw [hh] at hrel
    generalize hh' : hit? p' b i = hit' at hrel
    cases hrel with
    | some hr =>
      rw [findings.eq_def p' b stop i, if_pos hi, hh']
      dsimp only
      rw [hr.advance]
      exact List.rel_append (rel_toList hr.finding) ih
  | case2 i hi hh ih =>
    have hrel := renamed_hit? h b i
    rw [hh] at hrel
    generalize hh' : hit? p' b i = hit' at hrel
    cases hrel with
    | none =>
      rw [findings.eq_def p' b stop i, if_pos hi, hh']
      exact ih
  | case3 i hi =>
    rw [findings, if_neg hi]
    exact .nil

theorem renamed_pass (h : p.Renamed ρ p') (b : Bool) :
    List.Forall₂ (Finding.Renamed ρ p) (pass p b) (pass p' b) := by
  refine List.rel_flatMap h.renamed_functionScopes fun s s' hs => ?_
  rw [hs.start, hs.stop]
  exact renamed_findings h b s.stop s.start

end Assignment

namespace Return

variable {temporaries temporaries' : List String}

theorem stringFunctions_eq (h : p.Renamed ρ p') :
    stringFunctions p' = (stringFunctions p).map ρ := by
  unfold stringFunctions
  rw [h.listing.size_eq, List.map_filterMap]
  congr 1
  funext i
  rw [h.matchAt?_eq (show stringFunctionPattern.isFixed = true by decide), Option.map_map]
  refine Option.map_congr fun j hj => ?_
  obtain ⟨c, hc, hget⟩ := Option.bind_eq_some_iff.mp hj
  obtain ⟨e, he, hplace⟩ := Pattern.exists_of_get? hc hget
  obtain rfl : Element.anyName = e := Option.some.inj (Eq.trans (by rfl) he)
  exact h.listing.text_of_isName (Element.isName_of_place? hplace)

theorem returnsTemporary_eq (h : p.Renamed ρ p') (temporaries : List String) (i : Nat) :
    returnsTemporary p' (temporaries.map ρ) i = returnsTemporary p temporaries i := by
  unfold returnsTemporary
  rw [h.matchesAt_eq (show callPattern.isFixed = true by decide)]
  cases hmatch : callPattern.matchesAt p i with
  | false => rfl
  | true =>
    obtain ⟨_, hname, _⟩ := call_matches.mp hmatch
    have htext : p'.text (i + 1) = ρ (p.text (i + 1)) := h.listing.text_of_isName hname
    rw [htext, Bool.true_and, Bool.true_and, Bool.eq_iff_iff, List.contains_iff_mem,
      List.contains_iff_mem, List.mem_map_of_injective h.listing.names.injective]

theorem renamed_passOver (h : p.Renamed ρ p') (wanted : ReturnCategory → Bool)
    {look look' : Nat → Option Finding}
    (hlook : ∀ i, Option.Rel (Finding.Renamed ρ p) (look i) (look' i)) :
    List.Forall₂ (Finding.Renamed ρ p) (passOver p wanted look) (passOver p' wanted look') := by
  have hscopes := List.rel_filter (p := fun s => (p.symbols.functionOf? s).any (wanted ·.returns))
    (q := fun s => (p'.symbols.functionOf? s).any (wanted ·.returns))
    (fun s s' hs => (Bool.eq_iff_iff.mp (h.any_functionOf?_eq hs wanted)).symm)
    h.renamed_functionScopes
  refine List.rel_flatMap hscopes fun s s' hs => ?_
  rw [hs.start, hs.stop]
  refine List.rel_filterMap (fun i j hij => ?_) (List.forall₂_eq_eq_eq ▸ rfl)
  exact hij ▸ hlook i

theorem renamed_localArray (h : p.Renamed ρ p') (i : Nat) :
    Option.Rel (Finding.Renamed ρ p) (localArray p i) (localArray p' i) := by
  simp only [localArray, h.matchesAt_eq (show namePattern.isFixed = true by decide),
    h.automaticArrayAt_eq]
  split
  · exact .some (Finding.renamed_self nofun)
  · exact .none

theorem constructorArgument?_eq (h : p.Renamed ρ p') (v : Variable) :
    (v.rename ρ).constructorArgument? p'.listing = v.constructorArgument? p.listing := by
  unfold Variable.constructorArgument?
  simp (disch := decide) only [h.listing.text_eq]
  rfl

theorem namesLocal_eq (h : p.Renamed ρ p') (i : Nat) : namesLocal p' i = namesLocal p i := by
  simp only [namesLocal, h.automaticAt_eq, h.variableAt?_eq, Option.any_map,
    constructorArgument?_eq h, h.matchesAt_eq (show initializerPattern.isFixed = true by decide)]

theorem renamed_reference (h : p.Renamed ρ p') (temporaries : List String) (i : Nat) :
    Option.Rel (Finding.Renamed ρ p) (reference p temporaries i)
      (reference p' (temporaries.map ρ) i) := by
  simp only [reference, h.matchesAt_eq (show namePattern.isFixed = true by decide),
    namesLocal_eq h, returnsTemporary_eq h]
  repeat' split
  all_goals first
    | exact .some (Finding.renamed_self nofun)
    | exact .none

theorem renamed_cString (h : p.Renamed ρ p') (temporaries : List String) (i : Nat) :
    Option.Rel (Finding.Renamed ρ p) (cString p temporaries i)
      (cString p' (temporaries.map ρ) i) := by
  simp only [cString, returnsTemporary_eq h]
  split
  · exact .some (Finding.renamed_self nofun)
  · exact .none

end Return

/-- **Renaming a program renames its findings.** -/
theorem Check.renamed_findings (h : p.Renamed ρ p') (b : Bool) :
    List.Forall₂ (Finding.Renamed ρ p) (autoVariables.findings p b)
      (autoVariables.findings p' b) := by
  simp only [autoVariables, Return.stringFunctions_eq h]
  refine List.rel_append (List.rel_append (List.rel_append (Assignment.renamed_pass h b) ?_) ?_) ?_
  · exact Return.renamed_passOver h _ (Return.renamed_localArray h)
  · exact Return.renamed_passOver h _ (Return.renamed_reference h _)
  · exact Return.renamed_passOver h _ (Return.renamed_cString h _)

end StackEscape
