import StackEscape.Proofs.Program.Reach

/-!
# Loop variables

The head of a loop stands outside the braces of its body, and it opens no frame of its own. What it
declares belongs to the block around the loop: behind the loop it is in reach until that block ends.
-/

namespace StackEscape

namespace Listing

/-- The loop `for ( ... ) { ... }` that begins at `k` in the block that opens at `o`: its head ends
at `c`, and its body at `e`. -/
structure ForLoop (l : Listing) (o k c e : Nat) : Prop where
  keyword : l.text k = "for"
  opens : l.text (k + 1) = "("
  head : l.closing? (k + 1) = some c
  brace : l.text (c + 1) = "\x7b"
  body : l.closing? (c + 1) = some e
  around : l.Innermost o k

instance (l : Listing) (o k c e : Nat) : Decidable (l.ForLoop o k c e) :=
  decidable_of_iff (l.text k = "for" ∧ l.text (k + 1) = "(" ∧ l.closing? (k + 1) = some c ∧
      l.text (c + 1) = "\x7b" ∧ l.closing? (c + 1) = some e ∧ l.Innermost o k)
    ⟨fun ⟨h₁, h₂, h₃, h₄, h₅, h₆⟩ => ⟨h₁, h₂, h₃, h₄, h₅, h₆⟩,
      fun ⟨h₁, h₂, h₃, h₄, h₅, h₆⟩ => ⟨h₁, h₂, h₃, h₄, h₅, h₆⟩⟩

/-- The token at `i` stands in the head of a loop that begins at `k` and whose head ends at `c`, and
in no braces there. -/
def InHead (l : Listing) (k c i : Nat) : Prop :=
  k + 1 < i ∧ i < c ∧ ∀ o < i, k < o → ¬ l.Encloses o i

instance (l : Listing) (k c i : Nat) : Decidable (l.InHead k c i) :=
  inferInstanceAs (Decidable (_ ∧ _ ∧ _))

/-- What stands in the head of a loop stands in the block around the loop. -/
theorem ForLoop.innermost {l : Listing} (hl : l.WellFormed) {o k c e i : Nat}
    (h : l.ForLoop o k c e) (hi : l.InHead k c i) : l.Innermost o i := by
  obtain ⟨hki, hic, hflat⟩ := hi
  obtain ⟨⟨hbrace, hok, x, hx, hkx⟩, hlast⟩ := h.around
  have hparen : l.text c = ")" := by
    have hpair := hl.text_of_closing? h.head
    rw [h.opens] at hpair
    exact (Option.some.inj hpair).symm
  have hcx := (hl.nested_iff hx h.head).mp ⟨by omega, hkx⟩
  have hne : c ≠ x := by
    rintro rfl
    have hcloses := hl.text_close_brace hx hbrace
    rw [hparen] at hcloses
    exact absurd hcloses (by decide)
  refine ⟨⟨hbrace, by omega, x, hx, by omega⟩, fun o' ho' hencloses => ?_⟩
  have hle : o' ≤ k := Nat.not_lt.mp fun hlt => hflat o' ho' hlt hencloses
  obtain ⟨hbrace', _, x', hx', hix'⟩ := hencloses
  have hne' : o' ≠ k := by
    rintro rfl
    have hkeyword := h.keyword
    rw [hbrace'] at hkeyword
    exact absurd hkeyword (by decide)
  exact hlast o' (by omega) ⟨hbrace', by omega, x', hx', by omega⟩

end Listing

def SymbolTable.NamedAt (t : SymbolTable) (id : VariableId) (i : Nat) : Prop :=
  ∃ v ∈ t.getVariable? id, v.nameToken = i

instance (t : SymbolTable) (id : VariableId) (i : Nat) : Decidable (t.NamedAt id i) :=
  inferInstanceAs (Decidable (∃ v ∈ t.getVariable? id, _))

namespace Program

/-- **Loop variables end with the block around the loop.** While that block is open, a name behind
the loop that is called like a variable of its head, and is not itself what it refers to, refers to
nothing declared before that variable. Where types are complete, it refers to the variable exactly
if the block is open and no later variable of the name is in reach. -/
theorem bound_to_loop_iff {file source : String} {p : Program} (h : ofSource file source = .ok p)
    {s : Scope} (hs : s ∈ p.symbols.functionScopes) {o k c e : Nat}
    (hloop : p.listing.ForLoop o k c e) {id : VariableId} {v : Variable}
    (hv : p.symbols.Owns s.id id v) (hlocal : v.role = .local)
    (hhead : p.listing.InHead k c v.nameToken) {i : Nat} (hi : e < i) (his : i < s.stop)
    {found : VariableId} (hb : p.variableIdAt? i = some found) :
    (¬ p.symbols.NamedAt found i → v.name = p.text i → p.listing.Encloses o i → id ≤ found) ∧
      (p.listing.TypesComplete s.start s.stop →
        (found = id ↔ ¬ p.symbols.NamedAt found i ∧ v.name = p.text i ∧ p.listing.Encloses o i ∧
          ∀ id' v', p.symbols.Owns s.id id' v' → v'.name = p.text i → p.InReach v' i →
            id' ≤ id)) := by
  have hp := wellFormed_ofSource h
  have hinner := hloop.innermost hp.listing hhead
  have hstart := start_lt_of_local h hs hv hlocal
  have hbehind : v.nameToken < i := by
    have := Listing.lt_of_closing? hloop.body
    have := hhead.2.1
    omega
  obtain ⟨w, hw, hcases⟩ := exists_reaches h hs (Nat.lt_trans hstart hbehind) his hb
  have reaches : ¬ p.symbols.NamedAt found i → p.Reaches s i found w :=
    fun hno => hcases.resolve_left fun he => hno ⟨w, hw, he⟩
  have hname : w.name = p.text i := by
    obtain ⟨x, hx, hname⟩ := (hp.named.bindings i found hb).2
    obtain rfl := Option.some.inj (hx.symm.trans hw)
    exact hname
  have latest : p.Reaches s i found w → v.name = p.text i → p.listing.Encloses o i →
      id ≤ found ∧ w.role ≠ .member :=
    fun hreaches hname hencloses =>
      hreaches.latest id v hv hname ⟨.inl hbehind, fun _ => ⟨o, hinner, hencloses⟩⟩
  refine ⟨fun hno hname hencloses => (latest (reaches hno) hname hencloses).1,
    fun hcomplete => ⟨?_, ?_⟩⟩
  · rintro rfl
    obtain rfl := Option.some.inj (hw.symm.trans hv.1)
    -- the variable itself is named in the head, in front of `i`
    have hno : ¬ p.symbols.NamedAt found i := by
      rintro ⟨x, hx, he⟩
      obtain rfl := Option.some.inj (hw.symm.trans hx)
      omega
    have hreaches := reaches hno
    obtain ⟨o', hinner', hencloses⟩ := hreaches.block hcomplete hlocal
    obtain rfl := hinner.unique hinner'
    exact ⟨hno, hname, hencloses, fun id' v' hv' hname' hreach =>
      (hreaches.latest id' v' hv' hname' hreach).1⟩
  · rintro ⟨hno, hvname, hencloses, hlatest⟩
    obtain ⟨hle, hrole⟩ := latest (reaches hno) hvname hencloses
    obtain ⟨howns, hreach⟩ := (reaches hno).inReach hcomplete hrole
    exact Nat.le_antisymm (hlatest found w howns hname hreach) hle

/-- What is computed of a program to tell that the variable `id` is declared in the head of the loop
at `k`, and that the token at `i` behind the loop is bound to `found`. -/
def BehindLoop (o k c e i : Nat) (id found : VariableId) (p : Program) : Prop :=
  p.listing.ForLoop o k c e ∧ e < i ∧ p.variableIdAt? i = some found ∧
    ∃ s ∈ p.symbols.functionScopes, i < s.stop ∧ p.listing.TypesComplete s.start s.stop ∧
      ∃ v ∈ p.symbols.getVariable? id, v.scope = s.id ∧ v.role = .local ∧
        p.listing.InHead k c v.nameToken

instance (o k c e i : Nat) (id found : VariableId) :
    DecidablePred (BehindLoop o k c e i id found) := fun p => inferInstanceAs
    (Decidable (_ ∧ _ ∧ _ ∧ ∃ s ∈ p.symbols.functionScopes, _))

/-- The block around the loop has ended, and `i` refers to the array again. -/
theorem bound_to_loop_iff_ended :
    ∃ p s v, ofSource "a.cpp" "char*f(){char i[4];{for(int i=0;i<4;i++){}}return i;}" = .ok p ∧
      s ∈ p.symbols.functionScopes ∧ p.listing.ForLoop 12 13 26 28 ∧ p.symbols.Owns s.id 1 v ∧
      v.role = .local ∧ p.listing.InHead 13 26 v.nameToken ∧ 28 < 31 ∧ 31 < s.stop ∧
      p.variableIdAt? 31 = some 0 ∧ p.listing.TypesComplete s.start s.stop ∧
      (¬ p.symbols.NamedAt 0 31 → v.name = p.text 31 → p.listing.Encloses 12 31 → 1 ≤ 0) ∧
      (0 = 1 ↔ ¬ p.symbols.NamedAt 0 31 ∧ v.name = p.text 31 ∧ p.listing.Encloses 12 31 ∧
        ∀ id' v', p.symbols.Owns s.id id' v' → v'.name = p.text 31 → p.InReach v' 31 →
          id' ≤ 1) := by
  obtain ⟨p, hp, hloop, hi, hb, s, hs, his, hcomplete, v, hv, hscope, hlocal, hhead⟩ :
      ∃ p, ofSource "a.cpp" "char*f(){char i[4];{for(int i=0;i<4;i++){}}return i;}" = .ok p ∧
        BehindLoop 12 13 26 28 31 1 0 p := exists_of_any (by decide +kernel)
  have hown : p.symbols.Owns s.id 1 v := ⟨hv, hscope, by rw [hlocal]; decide⟩
  obtain ⟨hopen, hiff⟩ := bound_to_loop_iff hp hs hloop hown hlocal hhead hi his hb
  exact ⟨p, s, v, hp, hs, hloop, hown, hlocal, hhead, hi, his, hb, hcomplete, hopen,
    hiff hcomplete⟩

/-- Behind the loop, `i` refers to the variable of the loop and not to the array. -/
theorem bound_behind_loop :
    ∃ p s v, ofSource "test.cpp" "char*f(){char i[4];for(int i=0;i<4;i++){}return i;}" = .ok p ∧
      s ∈ p.symbols.functionScopes ∧ p.listing.ForLoop 5 12 25 27 ∧ p.symbols.Owns s.id 1 v ∧
      v.role = .local ∧ p.listing.InHead 12 25 v.nameToken ∧ 27 < 29 ∧ 29 < s.stop ∧
      p.variableIdAt? 29 = some 1 := by
  obtain ⟨p, hp, hloop, hi, hb, s, hs, his, _, v, hv, hscope, hlocal, hhead⟩ :
      ∃ p, ofSource "test.cpp" "char*f(){char i[4];for(int i=0;i<4;i++){}return i;}" = .ok p ∧
        BehindLoop 5 12 25 27 29 1 1 p := exists_of_any (by decide +kernel)
  exact ⟨p, s, v, hp, hs, hloop, ⟨hv, hscope, by rw [hlocal]; decide⟩, hlocal, hhead, hi, his, hb⟩

end Program

end StackEscape
