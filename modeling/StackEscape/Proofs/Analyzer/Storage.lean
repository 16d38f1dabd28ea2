import StackEscape.Proofs.Analyzer.Blame
import StackEscape.Proofs.Program.Storage

/-!
# Static storage is not blamed

Every test on a local that a finding is about asks for storage that is not static. So no finding
concerns a local that is declared `static` or `extern`, whatever the shape of its declaration.
-/

namespace StackEscape

variable {p : Program} {x : Finding} {i : Nat}

/-- The names that a finding is about, by its rule: both sides of an assignment, what is returned or
deallocated, and what a returned local was constructed from. -/
inductive Finding.Concerns (p : Program) (x : Finding) : Nat → Prop
  | target {target value : Nat} (rule : x.rule = .autoVariables)
      (assigns : p.Assigns x.anchor target value) : Concerns p x target
  | value {target value : Nat} (rule : x.rule = .autoVariables)
      (assigns : p.Assigns x.anchor target value) : Concerns p x value
  | address (rule : x.rule = .returnAddressOfAutoVariable) : Concerns p x (x.anchor + 2)
  | parameter (rule : x.rule = .returnAddressOfFunctionParameter) : Concerns p x (x.anchor + 2)
  | deallocated (rule : x.rule = .autovarInvalidDeallocation) : Concerns p x x.anchor
  | array (rule : x.rule = .returnLocalVariable) : Concerns p x (x.anchor + 1)
  | reference (rule : x.rule = .returnReference) : Concerns p x (x.anchor + 1)
  | source {v : Variable} {source : Nat} (rule : x.rule = .returnReference)
      (returned : p.variableAt? (x.anchor + 1) = some v)
      (constructed : v.constructorArgument? p.listing = some source) : Concerns p x source

/-- What a finding concerns is an argument of the function that it blames, or a local that is not
static. -/
theorem Finding.Blames.cases_of_concerns (hp : p.WellFormed) {f : Function} (h : x.Blames p f)
    (hc : x.Concerns p i) : p.NamesArgument f i ∨ p.NamesLocal f i := by
  cases hc with
  | target rule assigns =>
    obtain ⟨target, value, hassigns, harg, _⟩ := h.assigned rule
    have hsides := (assigns.sides_eq hp).symm.trans (hassigns.sides_eq hp)
    exact .inl ((Prod.mk.inj hsides).1 ▸ harg)
  | value rule assigns =>
    obtain ⟨target, value, hassigns, _, hlocal⟩ := h.assigned rule
    have hsides := (assigns.sides_eq hp).symm.trans (hassigns.sides_eq hp)
    exact .inr ((Prod.mk.inj hsides).2 ▸ hlocal)
  | address rule => exact .inr (h.returned rule)
  | parameter rule => exact .inl (h.parameter rule)
  | deallocated rule => exact .inr (h.deallocated rule)
  | array rule => exact .inr (h.array rule)
  | reference rule => exact .inr (h.reference rule).1
  | source rule returned constructed =>
    exact .inr ((h.reference rule).2 _ _ returned constructed)

/-- The variable of a name that is a local of a function is not static. -/
theorem Program.NamesLocal.isStatic_eq {f : Function} (h : p.NamesLocal f i) {v : Variable}
    (hv : p.variableAt? i = some v) :
    v.isStatic = false ∧ ∃ id, p.symbols.Owns f.scope id v := by
  obtain ⟨id, w, hb, hw, hlocal, hstatic, hscope⟩ := h
  have hat : p.variableAt? i = some w := Option.bind_eq_some_iff.mpr ⟨id, hb, hw⟩
  obtain rfl := Option.some.inj (hat.symm.trans hv)
  exact ⟨hstatic, id, hw, hscope, by rw [hlocal]; decide⟩

theorem Program.NamesArgument.role_eq {f : Function} (h : p.NamesArgument f i) {v : Variable}
    (hv : p.variableAt? i = some v) : v.role = .argument := by
  obtain ⟨id, w, hb, hw, harg, _⟩ := h
  have hat : p.variableAt? i = some w := Option.bind_eq_some_iff.mpr ⟨id, hb, hw⟩
  obtain rfl := Option.some.inj (hat.symm.trans hv)
  exact harg

namespace Analyzer

/-- **Static storage is not blamed.** With any settings, no finding concerns a local whose
declaration has the specifier `static` or `extern`. -/
theorem not_specifies_of_concerns {file source : String}
    (h : Program.ofSource file source = .ok p) (settings : Settings) :
    ∃ fs : List Finding,
      (standard settings).analyzeSource file source = .ok (fs.map (Finding.toDiagnostic p)) ∧
      ∀ x ∈ fs, ∀ i v, x.Concerns p i → p.variableAt? i = some v → v.role = .local →
        ¬ p.Specifies v "static" ∧ ¬ p.Specifies v "extern" := by
  have hp := Program.wellFormed_ofSource h
  refine ⟨_, analyzeSource_standard h settings, fun x hx i v hc hv hlocal => ?_⟩
  obtain ⟨s, f, hown⟩ := Check.blames_findings hp (fun s hs => Program.exists_keeps h hs)
    (List.mem_filter.mp hx).1
  rcases hown.blames.cases_of_concerns hp hc with harg | hnames
  · have hrole := harg.role_eq hv
    rw [hlocal] at hrole
    cases hrole
  obtain ⟨hstatic, id, howns⟩ := hnames.isStatic_eq hv
  rw [hown.keeps.scope] at howns
  have hno : ∀ w, Declarator.isStaticWord w = true → ¬ p.Specifies v w := by
    intro w hw hspecifies
    have := Program.isStatic_of_specifies h hown.keeps.isFunction.mem howns hlocal hspecifies hw
    rw [hstatic] at this
    cases this
  exact ⟨hno "static" (by decide), hno "extern" (by decide)⟩

/-- Two locals of which one address is returned; that of the static one is not reported. -/
def staticSibling : String := "int*f(int c){static int x,y;int z;if(c)return&y;return&z;}"

theorem not_specifies_of_concerns_sibling :
    ∃ p, Program.ofSource "a.cpp" staticSibling = .ok p ∧
      ∃ fs : List Finding, fs.length = 1 ∧
        (standard ⟨false, []⟩).analyzeSource "a.cpp" staticSibling =
          .ok (fs.map (Finding.toDiagnostic p)) ∧
        ∀ x ∈ fs, ∀ i v, x.Concerns p i → p.variableAt? i = some v → v.role = .local →
          ¬ p.Specifies v "static" ∧ ¬ p.Specifies v "extern" := by
  obtain ⟨p, hp, hlength⟩ : ∃ p, Program.ofSource "a.cpp" staticSibling = .ok p ∧
      ((standard ⟨false, []⟩).analyzeProgram p).length = 1 :=
    Program.exists_of_any (by decide +kernel)
  obtain ⟨fs, hfs, hno⟩ := not_specifies_of_concerns hp ⟨false, []⟩
  have hdiagnostics := Except.ok.inj ((analyzeSource_of_ok hp _).symm.trans hfs)
  refine ⟨p, hp, fs, ?_, hfs, hno⟩
  rw [← hlength, hdiagnostics, List.length_map]

/-- The address of a local that is declared `thread_local` is reported. -/
theorem threadLocal_reported :
    ∃ p x i v, Program.ofSource "test.cpp" "int*f(){thread_local int x;return&x;}" = .ok p ∧
      (standard ⟨false, []⟩).analyzeSource "test.cpp" "int*f(){thread_local int x;return&x;}" =
        .ok [Finding.toDiagnostic p x] ∧
      x.Concerns p i ∧ p.variableAt? i = some v ∧ v.role = .local ∧
      p.Specifies v "thread_local" := by
  obtain ⟨p, hp, hfindings, v, hv, hlocal, hstart, hword, hout, hfront⟩ :
      ∃ p, Program.ofSource "test.cpp" "int*f(){thread_local int x;return&x;}" = .ok p ∧
        findings ⟨false, []⟩ p =
          [.definite 10 .returnAddressOfAutoVariable Message.returnAddress] ∧
        ∃ v ∈ p.variableAt? 12, v.role = .local ∧ v.typeStart = 6 ∧ p.text 6 = "thread_local" ∧
          ¬ p.listing.InTemplateList 6 6 ∧ ∀ v' ∈ p.symbols.vars, 6 < v'.nameToken :=
    Program.exists_of_any (by decide +kernel)
  refine ⟨p, .definite 10 .returnAddressOfAutoVariable Message.returnAddress, 12, v, hp, ?_,
    .address rfl, hv, hlocal, 6, Nat.le_of_eq hstart, hword, hstart.symm ▸ hout,
    fun _ v' hv' _ _ => hfront v' (Array.mem_of_getElem? hv'.1)⟩
  rw [analyzeSource_standard hp, hfindings]
  rfl

end Analyzer

end StackEscape
