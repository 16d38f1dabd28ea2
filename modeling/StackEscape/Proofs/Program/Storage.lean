import StackEscape.Proofs.Outline.Marks
import StackEscape.Proofs.Program.History

/-!
# Storage classes

Which specifiers a declaration has is told by its tokens, and a word for static storage among them
is recorded of every local that the declaration declares, the first one or a later one.
-/

namespace StackEscape

namespace Program

/-- The word `w` is a specifier in the declaration of the local `v`: it stands with the type, in
front of everything that is declared, and in no template argument list. -/
def Specifies (p : Program) (v : Variable) (w : String) : Prop :=
  ∃ j, v.typeStart ≤ j ∧ p.text j = w ∧ ¬ p.listing.InTemplateList v.typeStart j ∧
    ∀ id' v', p.symbols.Owns v.scope id' v' → v'.role = .local → v'.typeStart = v.typeStart →
      j < v'.nameToken

/-- A local of a declaration with a specifier for static storage is recorded as static. -/
theorem isStatic_of_specifies {file source : String} {p : Program}
    (h : ofSource file source = .ok p) {s : Scope} (hs : s ∈ p.symbols.functionScopes)
    {id : VariableId} {v : Variable} (hv : p.symbols.Owns s.id id v) (hlocal : v.role = .local)
    {w : String} (hspecifies : p.Specifies v w) (hw : Declarator.isStaticWord w = true) :
    v.isStatic = true := by
  have hl := (wellFormed_ofSource h).listing
  obtain ⟨t, ht⟩ := exists_history h
  obtain ⟨f, hran⟩ := ht.ran s hs
  obtain ⟨j, hj, rfl, hout, hfront⟩ := hspecifies
  rw [ht.symbols] at hv hfront
  obtain ⟨x, hx, rfl⟩ := hv.exists_of_resolveTypes
  rw [t.role_typed] at hlocal
  rw [t.typeStart_typed] at hj hout
  rw [t.isStatic_typed]
  have hbefore := (ht.inside s hs id x hx hlocal).2
  obtain ⟨d, hd, y, hy, rfl⟩ := hran.exists_declare_of_local hx hlocal (Nat.le_of_lt hbefore)
  obtain ⟨start, _, _, hreads⟩ := Body.exists_reads_of_declare_mem hd
  obtain ⟨hfirst, hothers⟩ := Declaration.first_of_ofTokens? hreads
  have hstart : y.typeStart = start := (Declaration.readFrom_ofTokens? hl hreads y hy).1.typeStart
  -- the first name of the declaration stands behind the specifier, too
  obtain ⟨id', hz⟩ := hran.exists_of_declare_mem hd List.mem_cons_self
  have hlt := hfront id' _ (by rw [t.scope_typed]; exact hz.resolveTypes) (t.role_typed _) <| by
    rw [t.typeStart_typed, t.typeStart_typed]
    exact Body.typeStart_eq hl hd List.mem_cons_self hy
  rw [t.nameToken_typed] at hlt
  have hstatic : d.first.isStatic = true :=
    Declarator.isStatic_of_ofTokens? hfirst (hstart ▸ hj) hlt hw (hstart ▸ hout)
  rcases List.mem_cons.mp hy with rfl | hy
  · exact hstatic
  · rw [hothers] at hy
    exact (Declarator.isStatic_of_mem_siblings y hy).trans hstatic

end Program

end StackEscape
