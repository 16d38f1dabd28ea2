import StackEscape.Proofs.Check
import StackEscape.Proofs.Program.History

/-!
# Whose variables a finding is about

A bound name in a function body that is a local or an argument is one of that function. The passes
test nothing but names of the body that they go through, so a finding is about variables of the
function in whose body it is anchored.
-/

namespace StackEscape

namespace Program

variable {p : Program} {s : Scope} {f : Function} {i : Nat}

structure IsFunction (p : Program) (s : Scope) (f : Function) : Prop where
  mem : s ∈ p.symbols.functionScopes
  function : p.symbols.functionOf? s = some f
  scope : p.symbols.getScope? f.scope = some s

/-- The name at `i` is bound to a local of the function that is not static. -/
def NamesLocal (p : Program) (f : Function) (i : Nat) : Prop :=
  ∃ id v, p.variableIdAt? i = some id ∧ p.symbols.getVariable? id = some v ∧ v.role = .local ∧
    v.isStatic = false ∧ v.scope = f.scope

def NamesArgument (p : Program) (f : Function) (i : Nat) : Prop :=
  ∃ id v, p.variableIdAt? i = some id ∧ p.symbols.getVariable? id = some v ∧ v.role = .argument ∧
    v.scope = f.scope ∧ id ∈ f.arguments

/-- **Functions keep to themselves**: a bound name in the body of a function refers to a local that
is declared in this body, to an argument of that function, or to a member. -/
structure Keeps (p : Program) (s : Scope) (f : Function) : Prop where
  isFunction : p.IsFunction s f
  scope : f.scope = s.id
  own : ∀ i id v, s.start < i → i < s.stop → p.variableIdAt? i = some id →
    p.symbols.getVariable? id = some v → v.role ≠ .member →
      v.scope = f.scope ∧ (v.role = .argument → id ∈ f.arguments) ∧
        (v.role = .local → s.start < v.nameToken ∧ v.nameToken < s.stop)

theorem exists_keeps {file source : String} (h : ofSource file source = .ok p)
    (hs : s ∈ p.symbols.functionScopes) : ∃ f, p.Keeps s f := by
  have hp := wellFormed_ofSource h
  obtain ⟨t, ht⟩ := exists_history h
  obtain ⟨f, hran⟩ := ht.ran s hs
  have hscope : p.symbols.getScope? f.scope = some s := by
    have hmem : s ∈ p.symbols.scopes := Array.mem_toList_iff.mp (List.mem_filter.mp hs).1
    rw [hran.scope]
    rw [ht.symbols] at hmem ⊢
    exact ht.numbered s hmem
  have own : ∀ i id v, s.start < i → i < s.stop → p.variableIdAt? i = some id →
      p.symbols.getVariable? id = some v → v.role ≠ .member →
        v.scope = s.id ∧ (v.role = .argument → id ∈ f.arguments) ∧
          (v.role = .local → s.start < v.nameToken ∧ v.nameToken < s.stop) := by
    intro i id v hi his hb hv hrole
    rw [ht.variableIdAt?_eq] at hb
    rw [ht.symbols] at hv
    obtain ⟨w, hw, rfl⟩ := SymbolTable.exists_of_resolveTypes hv
    rw [t.role_typed] at hrole ⊢
    rw [t.scope_typed, t.nameToken_typed]
    exact hran.own_of_bound hp.listing (hp.bodies s hs) hi his hb hw hrole
  rw [← hran.scope] at own
  refine ⟨f, ⟨hs, (ht.functionOf?_eq s).trans hran.function, hscope⟩, hran.scope, own⟩

/-! ## What the tests on variables say -/

theorem exists_of_holds {q : Variable → Bool} (h : p.symbols.holds q (p.variableIdAt? i) = true) :
    ∃ id v, p.variableIdAt? i = some id ∧ p.symbols.getVariable? id = some v ∧ q v = true := by
  unfold SymbolTable.holds at h
  cases hbind : (p.variableIdAt? i).bind p.symbols.getVariable? with
  | none => rw [hbind] at h; cases h
  | some v =>
    rw [hbind] at h
    obtain ⟨id, hid, hv⟩ := Option.bind_eq_some_iff.mp hbind
    exact ⟨id, v, hid, hv, h⟩

namespace Keeps

/-- A local that is tested is one of the function. -/
theorem namesLocal (h : p.Keeps s f) (hi : s.start < i) (his : i < s.stop) {q : Variable → Bool}
    (hq : ∀ v, q v = true → v.role = .local ∧ v.isStatic = false)
    (hholds : p.symbols.holds q (p.variableIdAt? i) = true) : p.NamesLocal f i := by
  obtain ⟨id, v, hb, hv, hqv⟩ := exists_of_holds hholds
  obtain ⟨hlocal, hstatic⟩ := hq v hqv
  exact ⟨id, v, hb, hv, hlocal, hstatic, (h.own i id v hi his hb hv (by rw [hlocal]; decide)).1⟩

theorem namesLocal_of_automatic (h : p.Keeps s f) (hi : s.start < i) (his : i < s.stop)
    (ha : p.automaticAt i = true) : p.NamesLocal f i := by
  refine h.namesLocal hi his (fun v hv => ?_) ha
  simp only [Variable.isLocal, Bool.and_eq_true, Bool.not_eq_true', decide_eq_true_eq] at hv
  exact hv.1

theorem namesLocal_of_automaticArray (h : p.Keeps s f) (hi : s.start < i) (his : i < s.stop)
    (ha : p.automaticArrayAt i = true) : p.NamesLocal f i := by
  refine h.namesLocal hi his (fun v hv => ?_) ha
  simp only [Variable.isLocal, Bool.and_eq_true, Bool.not_eq_true', decide_eq_true_eq] at hv
  exact hv.1

/-- An argument that is tested is one of the function. -/
theorem namesArgument (h : p.Keeps s f) (hi : s.start < i) (his : i < s.stop) {q : Variable → Bool}
    (hq : ∀ v, q v = true → v.isArgument = true)
    (hholds : p.symbols.holds q (p.variableIdAt? i) = true) : p.NamesArgument f i := by
  obtain ⟨id, v, hb, hv, hqv⟩ := exists_of_holds hholds
  have hrole : v.role = .argument := of_decide_eq_true (hq v hqv)
  obtain ⟨hscope, harg, _⟩ := h.own i id v hi his hb hv (by rw [hrole]; decide)
  exact ⟨id, v, hb, hv, hrole, hscope, harg hrole⟩

end Keeps

end Program

/-! ## Blame -/

/-- The statement at `a` assigns to the name `target` the address of the name `value`, or the array
that it names: the six shapes that the assignment pass knows. -/
inductive Program.Assigns (p : Program) (a : Nat) : (target value : Nat) → Prop
  | reference (target : p.listing.isName a = true) (assigns : p.text (a + 1) = "=")
      (takes : p.text (a + 2) = "&") (value : p.listing.isName (a + 3) = true) :
      Assigns p a a (a + 3)
  | pointer (star : p.text a = "*") (target : p.listing.isName (a + 1) = true)
      (assigns : p.text (a + 2) = "=") (takes : p.text (a + 3) = "&")
      (value : p.listing.isName (a + 4) = true) : Assigns p a (a + 1) (a + 4)
  | member (target : p.listing.isName a = true) (dot : p.text (a + 1) = ".")
      (field : p.listing.isName (a + 2) = true) (assigns : p.text (a + 3) = "=")
      (takes : p.text (a + 4) = "&") (value : p.listing.isName (a + 5) = true) :
      Assigns p a a (a + 5)
  | arrayToMember (target : p.listing.isName a = true) (dot : p.text (a + 1) = ".")
      (field : p.listing.isName (a + 2) = true) (assigns : p.text (a + 3) = "=")
      (value : p.listing.isName (a + 4) = true) (ends : p.text (a + 5) = ";") :
      Assigns p a a (a + 4)
  | arrayThroughPointer (star : p.text a = "*") (target : p.listing.isName (a + 1) = true)
      (assigns : p.text (a + 2) = "=") (value : p.listing.isName (a + 3) = true)
      (ends : p.text (a + 4) = ";") : Assigns p a (a + 1) (a + 3)
  | element {close : Nat} (target : p.listing.isName a = true) (opens : p.text (a + 1) = "[")
      (closes : p.listing.closing? (a + 1) = some close) (assigns : p.text (close + 1) = "=")
      (takes : p.text (close + 2) = "&") (value : p.listing.isName (close + 3) = true) :
      Assigns p a a (close + 3)

/-- The target and the value of the assignment at `a`, told by its operators. -/
def Program.sides (p : Program) (a : Nat) : Nat × Nat :=
  if p.text a = "*" then (a + 1, if p.text (a + 3) = "&" then a + 4 else a + 3)
  else if p.text (a + 1) = "=" then (a, a + 3)
  else if p.text (a + 1) = "." then (a, if p.text (a + 4) = "&" then a + 5 else a + 4)
  else (a, (p.listing.closing? (a + 1)).getD 0 + 3)

/-- A statement assigns in one way only. -/
theorem Program.Assigns.sides_eq {p : Program} (hp : p.WellFormed) {a target value : Nat}
    (h : p.Assigns a target value) : p.sides a = (target, value) := by
  have hstar : ∀ {j : Nat}, p.listing.isName j = true → p.text j ≠ "*" :=
    fun hn => hp.listing.text_ne_of_isName hn rfl
  have hand : ∀ {j : Nat}, p.listing.isName j = true → p.text j ≠ "&" :=
    fun hn => hp.listing.text_ne_of_isName hn rfl
  cases h with
  | reference target assigns => simp [sides, hstar target, assigns]
  | pointer star _ _ takes => simp [sides, star, takes]
  | member target dot _ _ takes => simp [sides, hstar target, dot, takes]
  | arrayToMember target dot _ _ value => simp [sides, hstar target, dot, hand value]
  | arrayThroughPointer star _ _ value => simp [sides, star, hand value]
  | element target opens closes => simp [sides, hstar target, opens, closes]

/-- What a finding in the body of `f` is about, by its rule: locals and arguments of `f`. -/
structure Finding.Blames (p : Program) (f : Function) (x : Finding) : Prop where
  assigned : x.rule = .autoVariables → ∃ target value, p.Assigns x.anchor target value ∧
    p.NamesArgument f target ∧ p.NamesLocal f value
  returned : x.rule = .returnAddressOfAutoVariable → p.NamesLocal f (x.anchor + 2)
  parameter : x.rule = .returnAddressOfFunctionParameter → p.NamesArgument f (x.anchor + 2)
  deallocated : x.rule = .autovarInvalidDeallocation → p.NamesLocal f x.anchor
  array : x.rule = .returnLocalVariable → p.NamesLocal f (x.anchor + 1)
  reference : x.rule = .returnReference → p.NamesLocal f (x.anchor + 1) ∧
    ∀ v source, p.variableAt? (x.anchor + 1) = some v →
      v.constructorArgument? p.listing = some source → p.NamesLocal f source

namespace Program

variable {p : Program} {s : Scope} {f : Function} {a i j : Nat}

/-! ## Statements stay in their body -/

namespace WellFormed

/-- The token behind one of the body is the `}` of the body, or one of the body again. -/
theorem lt_stop_of_text (hp : p.WellFormed) (hs : s ∈ p.symbols.functionScopes) (hj : j < s.stop)
    (ht : p.text (j + 1) ≠ "\x7d") : j + 1 < s.stop := by
  have hbody := hp.bodies s hs
  refine Nat.lt_of_le_of_ne hj fun he => ht ?_
  rw [he]
  exact hp.listing.text_close_brace hbody.closes hbody.brace

theorem lt_stop_of_word (hp : p.WellFormed) (hs : s ∈ p.symbols.functionScopes) (hj : j < s.stop)
    {w : String} (ht : p.text (j + 1) = w) (hw : w ≠ "\x7d") : j + 1 < s.stop :=
  hp.lt_stop_of_text hs hj (ht ▸ hw)

theorem lt_stop_of_name (hp : p.WellFormed) (hs : s ∈ p.symbols.functionScopes) (hj : j < s.stop)
    (hn : p.listing.isName (j + 1) = true) : j + 1 < s.stop :=
  hp.lt_stop_of_text hs hj (hp.listing.text_ne_of_isName hn rfl)

/-- What opens in a body closes there. -/
theorem lt_stop_of_closing (hp : p.WellFormed) (hs : s ∈ p.symbols.functionScopes)
    (hi : s.start < i) (his : i < s.stop) {c : Nat} (hc : p.listing.closing? i = some c) :
    c < s.stop := by
  have hbody := hp.bodies s hs
  have hnested := (hp.listing.nested_iff hbody.closes hc).mp ⟨Nat.le_of_lt hi, Nat.le_of_lt his⟩
  refine Nat.lt_of_le_of_ne hnested.2 fun he => ?_
  have := hp.listing.closing?_injective hbody.closes (he ▸ hc)
  omega

end WellFormed

/-- A statement that begins in a body names both its sides there. -/
theorem Assigns.within (hp : p.WellFormed) (hs : s ∈ p.symbols.functionScopes)
    (ha : s.start < a) (has : a < s.stop) {target value : Nat} (h : p.Assigns a target value) :
    (s.start < target ∧ target < s.stop) ∧ s.start < value ∧ value < s.stop := by
  have word : ∀ {j : Nat} {w : String}, j < s.stop → p.text (j + 1) = w → w ≠ "\x7d" →
      j + 1 < s.stop := fun hj ht hw => hp.lt_stop_of_word hs hj ht hw
  have name : ∀ {j : Nat}, j < s.stop → p.listing.isName (j + 1) = true → j + 1 < s.stop :=
    fun hj hn => hp.lt_stop_of_name hs hj hn
  cases h with
  | reference _ assigns takes value =>
    have := name (word (word has assigns (by decide)) takes (by decide)) value
    omega
  | pointer _ target assigns takes value =>
    have := name (word (word (name has target) assigns (by decide)) takes (by decide)) value
    omega
  | member _ dot field assigns takes value =>
    have := name (word (word (name (word has dot (by decide)) field) assigns (by decide)) takes
      (by decide)) value
    omega
  | arrayToMember _ dot field assigns value =>
    have := name (word (name (word has dot (by decide)) field) assigns (by decide)) value
    omega
  | arrayThroughPointer _ target assigns value =>
    have := name (word (name has target) assigns (by decide)) value
    omega
  | @element close _ opens closes assigns takes value =>
    have hopen := word has opens (by decide)
    have hclose := hp.lt_stop_of_closing hs (Nat.lt_succ_of_lt ha) hopen closes
    have hlt := Listing.lt_of_closing? closes
    have := name (word (word hclose assigns (by decide)) takes (by decide)) value
    omega

end Program

/-! ## The rules -/

section
variable {p : Program} {s : Scope} {f : Function} {i : Nat} {x : Finding}

/-- A finding about an assigned parameter blames both sides of the assignment. -/
theorem Program.Keeps.blames_assigned (hp : p.WellFormed) (hk : p.Keeps s f)
    (hrule : x.rule = .autoVariables) (hx : s.start < x.anchor ∧ x.anchor < s.stop)
    {target value : Nat} (hassigns : p.Assigns x.anchor target value) {q : Variable → Bool}
    (hq : ∀ v, q v = true → v.isArgument = true)
    (htarget : p.symbols.holds q (p.variableIdAt? target) = true)
    (hvalue : p.automaticAt value = true ∨ p.automaticArrayAt value = true) : x.Blames p f := by
  obtain ⟨⟨htstart, htstop⟩, hvstart, hvstop⟩ :=
    hassigns.within hp hk.isFunction.mem hx.1 hx.2
  have hlocal : p.NamesLocal f value := hvalue.elim (hk.namesLocal_of_automatic hvstart hvstop)
    (hk.namesLocal_of_automaticArray hvstart hvstop)
  refine ⟨fun _ => ⟨target, value, hassigns, hk.namesArgument htstart htstop hq htarget, hlocal⟩,
    ?_, ?_, ?_, ?_, ?_⟩
  all_goals
    intro h
    rw [hrule] at h
    cases h

theorem isArgument_of_reference {v : Variable} (h : (v.isArgument && v.isReference) = true) :
    v.isArgument = true := (Bool.and_eq_true_iff.mp h).1

theorem isArgument_of_pointer {v : Variable} (h : (v.isArgument && v.isPointer) = true) :
    v.isArgument = true := (Bool.and_eq_true_iff.mp h).1

namespace Assignment

variable {b : Bool} {h : Hit}

theorem blames_toReference (hp : p.WellFormed) (hk : p.Keeps s f)
    (hh : toReference p b i = some h) (hf : x ∈ h.finding)
    (hx : s.start < x.anchor ∧ x.anchor < s.stop) : x.Blames p f := by
  unfold toReference at hh
  split at hh
  · next hc =>
    obtain rfl := Option.some.inj hh
    obtain ⟨_, rfl⟩ := mem_findingIf.mp hf
    simp only [Bool.and_eq_true, reference_matches] at hc
    obtain ⟨⟨⟨_, hname, heq, hand, hlocal⟩, harg⟩, hauto⟩ := hc
    exact hk.blames_assigned hp rfl hx (.reference hname heq hand hlocal)
      (fun _ => isArgument_of_reference) harg (.inl hauto)
  · cases hh

theorem blames_throughPointer (hp : p.WellFormed) (hk : p.Keeps s f)
    (hh : throughPointer p b i = some h) (hf : x ∈ h.finding)
    (hx : s.start < x.anchor ∧ x.anchor < s.stop) : x.Blames p f := by
  unfold throughPointer at hh
  split at hh
  · next hc =>
    obtain rfl := Option.some.inj hh
    obtain ⟨_, rfl⟩ := mem_findingIf.mp hf
    simp only [Bool.and_eq_true, pointer_matches] at hc
    obtain ⟨⟨⟨_, hstar, hname, heq, hand, hlocal⟩, harg⟩, hauto⟩ := hc
    exact hk.blames_assigned hp rfl hx (.pointer hstar hname heq hand hlocal)
      (fun _ => isArgument_of_pointer) harg (.inl hauto)
  · cases hh

theorem blames_toMember (hp : p.WellFormed) (hk : p.Keeps s f)
    (hh : toMember p b i = some h) (hf : x ∈ h.finding)
    (hx : s.start < x.anchor ∧ x.anchor < s.stop) : x.Blames p f := by
  unfold toMember at hh
  split at hh
  · next hc =>
    obtain rfl := Option.some.inj hh
    obtain ⟨hescapes, rfl⟩ := mem_findingIf.mp hf
    obtain ⟨_, hname, hdot, hfield, heq, hand, hlocal⟩ := memberAddress_matches.mp hc
    simp only [Bool.and_eq_true] at hescapes
    obtain ⟨_, ⟨harg, hauto⟩, _⟩ := hescapes
    exact hk.blames_assigned hp rfl hx (.member hname hdot hfield heq hand hlocal)
      (fun _ => isArgument_of_pointer) harg (.inl hauto)
  · cases hh

theorem blames_arrayToMember (hp : p.WellFormed) (hk : p.Keeps s f)
    (hh : arrayToMember p b i = some h) (hf : x ∈ h.finding)
    (hx : s.start < x.anchor ∧ x.anchor < s.stop) : x.Blames p f := by
  unfold arrayToMember at hh
  split at hh
  · next hc =>
    obtain rfl := Option.some.inj hh
    obtain ⟨hescapes, rfl⟩ := mem_findingIf.mp hf
    obtain ⟨_, hname, hdot, hfield, heq, hlocal, hends⟩ := memberName_matches.mp hc
    simp only [Bool.and_eq_true] at hescapes
    obtain ⟨_, harg, hauto⟩ := hescapes
    exact hk.blames_assigned hp rfl hx (.arrayToMember hname hdot hfield heq hlocal hends)
      (fun _ => isArgument_of_pointer) harg (.inr hauto)
  · cases hh

theorem blames_arrayThroughPointer (hp : p.WellFormed) (hk : p.Keeps s f)
    (hh : arrayThroughPointer p b i = some h) (hf : x ∈ h.finding)
    (hx : s.start < x.anchor ∧ x.anchor < s.stop) : x.Blames p f := by
  unfold arrayThroughPointer at hh
  split at hh
  · next hc =>
    obtain rfl := Option.some.inj hh
    obtain ⟨hescapes, rfl⟩ := mem_findingIf.mp hf
    obtain ⟨_, hstar, hname, heq, hlocal, hends⟩ := pointedName_matches.mp hc
    obtain ⟨harg, hauto⟩ := Bool.and_eq_true_iff.mp hescapes
    refine hk.blames_assigned hp rfl hx (.arrayThroughPointer hstar hname heq hlocal hends)
      (fun v hv => ?_) harg (.inr hauto)
    simp only [isDoublePointerArgument, Bool.and_eq_true] at hv
    exact hv.1.1
  · cases hh

theorem blames_toElement (hp : p.WellFormed) (hk : p.Keeps s f)
    (hh : toElement p b i = some h) (hf : x ∈ h.finding)
    (hx : s.start < x.anchor ∧ x.anchor < s.stop) : x.Blames p f := by
  unfold toElement at hh
  split at hh
  · next hc =>
    obtain ⟨_, hname, hopen⟩ := indexed_matches.mp hc
    split at hh
    · next close hclose =>
      split at hh
      · next hc' =>
        obtain rfl := Option.some.inj hh
        obtain ⟨_, rfl⟩ := mem_findingIf.mp hf
        simp only [Bool.and_eq_true, indexedTail_matches] at hc'
        obtain ⟨⟨⟨_, heq, hand, hlocal⟩, harg⟩, hauto⟩ := hc'
        exact hk.blames_assigned hp rfl hx (.element hname hopen hclose heq hand hlocal)
          (fun _ => isArgument_of_pointer) harg (.inl hauto)
      · cases hh
    · cases hh
  · cases hh

/-- Both shapes of a returned address have the name two tokens behind the `return`. -/
theorem lt_stop_of_returnAddress (hp : p.WellFormed) (hs : s ∈ p.symbols.functionScopes)
    (his : i < s.stop) (hand : p.text (i + 1) = "&") (hname : p.listing.isName (i + 2) = true) :
    i + 2 < s.stop :=
  hp.lt_stop_of_name hs (hp.lt_stop_of_word hs his hand (by decide)) hname

theorem blames_returnOfLocal (hp : p.WellFormed) (hk : p.Keeps s f)
    (hh : returnOfLocal p b i = some h) (hf : x ∈ h.finding)
    (hx : s.start < x.anchor ∧ x.anchor < s.stop) : x.Blames p f := by
  unfold returnOfLocal at hh
  split at hh
  · next hc =>
    obtain rfl := Option.some.inj hh
    obtain rfl := Option.some.inj hf
    refine ⟨nofun, fun _ => ?_, nofun, nofun, nofun, nofun⟩
    have hstart : s.start < i + 2 := Nat.lt_of_lt_of_le hx.1 (Nat.le_add_right i 2)
    rcases Bool.or_eq_true_iff.mp hc with hc | hc
    · obtain ⟨hmatch, hauto⟩ := Bool.and_eq_true_iff.mp hc
      obtain ⟨_, hand, hname, _⟩ := returnAddress_matches.mp hmatch
      exact hk.namesLocal_of_automatic hstart
        (lt_stop_of_returnAddress hp hk.isFunction.mem hx.2 hand hname) hauto
    · obtain ⟨helement, hauto⟩ := Bool.and_eq_true_iff.mp hc
      obtain ⟨_, hand, hname, _⟩ := returnElement_matches.mp (Bool.and_eq_true_iff.mp helement).1
      exact hk.namesLocal_of_automaticArray hstart
        (lt_stop_of_returnAddress hp hk.isFunction.mem hx.2 hand hname) hauto
  · cases hh

theorem blames_returnOfArgument (hp : p.WellFormed) (hk : p.Keeps s f)
    (hh : returnOfArgument p b i = some h) (hf : x ∈ h.finding)
    (hx : s.start < x.anchor ∧ x.anchor < s.stop) : x.Blames p f := by
  unfold returnOfArgument at hh
  split at hh
  · next hc =>
    obtain rfl := Option.some.inj hh
    obtain ⟨hvalue, rfl⟩ := mem_findingIf.mp hf
    obtain ⟨_, hand, hname, _⟩ := returnAddress_matches.mp (Bool.and_eq_true_iff.mp hc).1
    refine ⟨nofun, nofun, fun _ => ?_, nofun, nofun, nofun⟩
    refine hk.namesArgument (Nat.lt_of_lt_of_le hx.1 (Nat.le_add_right i 2))
      (lt_stop_of_returnAddress hp hk.isFunction.mem hx.2 hand hname) (fun v hv => ?_) hvalue
    exact (Bool.and_eq_true_iff.mp hv).1
  · cases hh

theorem blames_deallocation (hk : p.Keeps s f) (hh : deallocation p b i = some h)
    (hf : x ∈ h.finding) (hx : s.start < x.anchor ∧ x.anchor < s.stop) : x.Blames p f := by
  unfold deallocation at hh
  split at hh
  · obtain ⟨name, _, rfl⟩ := Option.map_eq_some_iff.mp hh
    obtain ⟨harray, rfl⟩ := mem_findingIf.mp hf
    refine ⟨nofun, nofun, nofun, fun _ => ?_, nofun, nofun⟩
    exact hk.namesLocal_of_automaticArray hx.1 hx.2 harray
  · cases hh

/-- Whatever rule makes a hit in the body of a function, its finding blames the function. -/
theorem blames_hit? (hp : p.WellFormed) (hk : p.Keeps s f) (hh : hit? p b i = some h)
    (hf : x ∈ h.finding) (hx : s.start < x.anchor ∧ x.anchor < s.stop) : x.Blames p f := by
  obtain ⟨m, hm, hh⟩ := List.exists_of_findSome?_eq_some hh
  simp only [matchers, List.mem_cons, List.not_mem_nil, or_false] at hm
  rcases hm with rfl | rfl | rfl | rfl | rfl | rfl | rfl | rfl | rfl
  · exact blames_toReference hp hk hh hf hx
  · exact blames_throughPointer hp hk hh hf hx
  · exact blames_toMember hp hk hh hf hx
  · exact blames_arrayToMember hp hk hh hf hx
  · exact blames_arrayThroughPointer hp hk hh hf hx
  · exact blames_toElement hp hk hh hf hx
  · exact blames_returnOfLocal hp hk hh hf hx
  · exact blames_returnOfArgument hp hk hh hf hx
  · exact blames_deallocation hk hh hf hx

end Assignment

namespace Return

theorem blames_localArray (hp : p.WellFormed) (hk : p.Keeps s f) (hh : localArray p i = some x)
    (hx : s.start < x.anchor ∧ x.anchor < s.stop) : x.Blames p f := by
  unfold localArray at hh
  split at hh
  · next hc =>
    obtain rfl := Option.some.inj hh
    obtain ⟨hmatch, harray⟩ := Bool.and_eq_true_iff.mp hc
    obtain ⟨_, hname, _⟩ := name_matches.mp hmatch
    refine ⟨nofun, nofun, nofun, nofun, fun _ => ?_, nofun⟩
    exact hk.namesLocal_of_automaticArray (Nat.lt_succ_of_lt hx.1)
      (hp.lt_stop_of_name hk.isFunction.mem hx.2 hname) harray
  · cases hh

/-- What a returned local was constructed from is a local of the same function. -/
theorem namesLocal_source (hp : p.WellFormed) (hk : p.Keeps s f) (hi : s.start < i)
    (his : i < s.stop) (hreturned : Return.namesLocal p i = true) {v : Variable} {source : Nat}
    (hv : p.variableAt? i = some v) (hsource : v.constructorArgument? p.listing = some source) :
    p.NamesLocal f source := by
  obtain ⟨hauto, hany⟩ := Bool.and_eq_true_iff.mp hreturned
  simp only [hv, Option.any_some, hsource] at hany
  obtain ⟨hmatch, hautoSource⟩ := Bool.and_eq_true_iff.mp hany
  obtain ⟨id, w, hb, hw, hlocal⟩ := Program.exists_of_holds hauto
  obtain rfl : w = v := by
    have hat : p.variableAt? i = some w := Option.bind_eq_some_iff.mpr ⟨id, hb, hw⟩
    exact Option.some.inj (hat.symm.trans hv)
  simp only [Variable.isLocal, Bool.and_eq_true, decide_eq_true_eq] at hlocal
  have hrole := hlocal.1.1
  obtain ⟨hstart, hstop⟩ := (hk.own i id w hi his hb hw (by rw [hrole]; decide)).2.2 hrole
  unfold Variable.constructorArgument? at hsource
  split at hsource
  · next hparen =>
    obtain rfl := Option.some.inj hsource
    have hs := hk.isFunction.mem
    have hname := hp.isName_of_holds hautoSource
    exact hk.namesLocal_of_automatic (by omega)
      (hp.lt_stop_of_name hs (hp.lt_stop_of_word hs hstop hparen (by decide)) hname) hautoSource
  · cases hsource

theorem blames_reference (hp : p.WellFormed) (hk : p.Keeps s f) {temporaries : List String}
    (hh : reference p temporaries i = some x) (hx : s.start < x.anchor ∧ x.anchor < s.stop) :
    x.Blames p f := by
  unfold reference at hh
  split at hh
  · next hmatch =>
    split at hh
    · next hreturned =>
      obtain rfl := Option.some.inj hh
      obtain ⟨_, hname, _⟩ := name_matches.mp hmatch
      have hstart := Nat.lt_succ_of_lt hx.1
      have hstop := hp.lt_stop_of_name hk.isFunction.mem hx.2 hname
      refine ⟨nofun, nofun, nofun, nofun, nofun, fun _ => ⟨?_, ?_⟩⟩
      · exact hk.namesLocal_of_automatic hstart hstop (Bool.and_eq_true_iff.mp hreturned).1
      · exact fun v source => namesLocal_source hp hk hstart hstop hreturned
    · cases hh
  · split at hh
    · obtain rfl := Option.some.inj hh
      exact ⟨nofun, nofun, nofun, nofun, nofun, nofun⟩
    · cases hh

theorem blames_cString {temporaries : List String} (hh : cString p temporaries i = some x) :
    x.Blames p f := by
  unfold cString at hh
  split at hh
  · obtain rfl := Option.some.inj hh
    exact ⟨nofun, nofun, nofun, nofun, nofun, nofun⟩
  · cases hh

end Return

end

end StackEscape
