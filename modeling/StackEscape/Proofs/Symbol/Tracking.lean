import Mathlib.Data.List.Forall2
import StackEscape.Proofs.Symbol.Growth
import StackEscape.Proofs.Symbol.Scopes

/-!
# Frames and blocks

While the steps of a function body are followed, the frames stand for the blocks that are open at
the token reached: `Tracks` is that invariant. It says which variables are in sight, whatever the
body looks like; that the frames and the open blocks are as many as each other, and so only names of
open blocks are in sight, takes complete types, since the way over an incomplete one may pass a `}`.
-/

namespace StackEscape

/-! ## Looking names up -/

theorem mem_of_lookup {α : Type} {entries : List (String × α)} {name : String} {x : α}
    (h : entries.lookup name = some x) : (name, x) ∈ entries := by
  obtain ⟨before, after, rfl, _⟩ := List.lookup_eq_some_iff.mp h
  simp

namespace Frame

theorem find?_eq_lookup (frames : List Frame) (name : String) :
    find? frames name = frames.flatten.lookup name := by
  induction frames with
  | nil => rfl
  | cons f fs ih =>
    rw [List.flatten_cons, List.lookup_append, ← ih]
    unfold find?
    rw [List.findSome?_cons]
    cases f.lookup name <;> rfl

/-- Of the entries for a name the one with the latest variable is found, if it stands first. -/
theorem exists_lookup {entries : Frame} {name : String} {id : VariableId}
    (hlatest : entries.Pairwise fun x y => y.2 < x.2) (h : (name, id) ∈ entries) :
    ∃ found, entries.lookup name = some found ∧ id ≤ found := by
  induction entries with
  | nil => cases h
  | cons x rest ih =>
    obtain ⟨hx, hrest⟩ := List.pairwise_cons.mp hlatest
    rcases decEq name x.1 with hne | rfl
    · rw [List.lookup_cons, beq_false_of_ne hne]
      rcases List.mem_cons.mp h with rfl | h
      · exact absurd rfl hne
      · exact ih hrest h
    · refine ⟨x.2, by rw [List.lookup_cons, beq_self_eq_true], ?_⟩
      rcases List.mem_cons.mp h with h | h
      · exact Nat.le_of_eq (congrArg Prod.snd h)
      · exact Nat.le_of_lt (hx _ h)

end Frame

namespace SymbolTable

variable {t u : SymbolTable}

/-- The variable at a place is a local or an argument of the function with the given scope. -/
def Owns (t : SymbolTable) (scope : ScopeId) (id : VariableId) (v : Variable) : Prop :=
  t.getVariable? id = some v ∧ v.scope = scope ∧ v.role ≠ .member

theorem Owns.grow {scope : ScopeId} {id : VariableId} {v : Variable} (h : t.Owns scope id v)
    (hg : t.Grows u) : u.Owns scope id v := ⟨hg id v h.1, h.2⟩

/-- The locals of a frame are declared in the block that opens at `o`, and in no block within. -/
def Placed (t : SymbolTable) (l : Listing) (frame : Frame) (o : Nat) : Prop :=
  ∀ x ∈ frame, ∃ v, t.getVariable? x.2 = some v ∧ (v.role = .local → l.Innermost o v.nameToken)

theorem Placed.grow {l : Listing} {frame : Frame} {o : Nat} (h : t.Placed l frame o)
    (hg : t.Grows u) : u.Placed l frame o := by
  intro x hx
  obtain ⟨v, hv, hinner⟩ := h x hx
  exact ⟨v, hg _ _ hv, hinner⟩

end SymbolTable

theorem Resolver.vars_mention (l : Listing) (frames : List Frame) (r : Resolver) (token : Nat) :
    (r.mention l frames token).table.vars = r.table.vars := by
  unfold mention
  repeat' split
  all_goals rfl

theorem Resolver.owns_mention {l : Listing} {frames : List Frame} {r : Resolver} {token : Nat}
    {scope : ScopeId} {id : VariableId} {v : Variable} :
    (r.mention l frames token).table.Owns scope id v ↔ r.table.Owns scope id v := by
  unfold SymbolTable.Owns SymbolTable.getVariable?
  rw [vars_mention]

/-- What is in sight in the body of a function before the token at `i` is read: `frames` are the
frames of the body and of its blocks, `os` the braces that are open. -/
structure Tracks (l : Listing) (s : Scope) (i : Nat) (t : SymbolTable) (frames : List Frame)
    (os : List Nat) : Prop where
  behind : s.start < i
  before : i ≤ s.stop
  opened : l.OpenAt s.start i os
  depth : os.length ≤ frames.length
  owned : ∀ x ∈ frames.flatten, ∃ v, t.Owns s.id x.2 v ∧ v.name = x.1
  latest : frames.flatten.Pairwise fun x y => y.2 < x.2
  arguments : ∀ id v, t.Owns s.id id v → v.role = .argument →
    ∀ base ∈ frames.getLast?, (v.name, id) ∈ base
  locals : ∀ id v, t.Owns s.id id v → v.role = .local → ∃ o, s.start ≤ o ∧ o < i ∧
    l.Innermost o v.nameToken ∧ ∀ n, os[n]? = some o → (v.name, id) ∈ (frames.drop n).flatten
  placed : l.TypesComplete s.start s.stop → List.Forall₂ (t.Placed l) frames os

namespace Tracks

variable {l : Listing} {s : Scope} {i j : Nat} {t : SymbolTable} {frames : List Frame}
  {frame : Frame} {os : List Nat}

theorem start_mem (h : Tracks l s i t frames os) (hs : SymbolTable.IsBody l s) : s.start ∈ os :=
  (h.opened.mem s.start).mpr
    ⟨Nat.le_refl _, h.behind, hs.brace, s.stop, hs.closes, h.before⟩

theorem frames_ne_nil (h : Tracks l s i t frames os) (hs : SymbolTable.IsBody l s) :
    frames ≠ [] := by
  rintro rfl
  have := List.length_pos_of_mem (h.start_mem hs)
  have := h.depth
  simp only [List.length_nil] at this
  omega

/-! ## What one move does -/

/-- Only the variables of the table matter. -/
theorem of_vars (h : Tracks l s i t frames os) {u : SymbolTable} (hu : u.vars = t.vars) :
    Tracks l s i u frames os := by
  have hget : u.getVariable? = t.getVariable? := by
    funext id
    unfold SymbolTable.getVariable?
    rw [hu]
  have howns : u.Owns = t.Owns := by
    unfold SymbolTable.Owns
    rw [hget]
  have hplaced : u.Placed l = t.Placed l := by
    unfold SymbolTable.Placed
    rw [hget]
  refine { h with owned := ?_, arguments := ?_, locals := ?_, placed := ?_ }
  · rw [howns]
    exact h.owned
  · rw [howns]
    exact h.arguments
  · rw [howns]
    exact h.locals
  · rw [hplaced]
    exact h.placed

/-- Nothing changes over a stretch that leaves the open blocks alone. -/
theorem hold (h : Tracks l s i t frames os) (hij : i ≤ j) (hj : j ≤ s.stop)
    (ho : l.OpenAt s.start j os) : Tracks l s j t frames os := by
  have := h.behind
  refine { h with behind := by omega, before := hj, opened := ho, locals := ?_ }
  intro id v hv hlocal
  obtain ⟨o, hso, hoi, h⟩ := h.locals id v hv hlocal
  exact ⟨o, hso, Nat.lt_of_lt_of_le hoi hij, h⟩

theorem enter (h : Tracks l s i t frames os) (hl : l.WellFormed) (hs : SymbolTable.IsBody l s)
    (hi : i < s.stop) (ht : l.text i = "\x7b") : Tracks l s (i + 1) t ([] :: frames) (i :: os) := by
  obtain ⟨c, hc⟩ := hl.exists_closer ht
  have hframes := h.frames_ne_nil hs
  refine ⟨Nat.lt_succ_of_lt h.behind, hi, h.opened.enter hl (Nat.le_of_lt h.behind) ht hc,
    Nat.succ_le_succ h.depth, h.owned, h.latest, ?_, ?_, ?_⟩
  · intro id v hv harg base hbase
    obtain ⟨f, fs, rfl⟩ := List.exists_cons_of_ne_nil hframes
    rw [List.getLast?_cons_cons] at hbase
    exact h.arguments id v hv harg base hbase
  · intro id v hv hlocal
    obtain ⟨o, hso, hoi, hinner, hmem⟩ := h.locals id v hv hlocal
    refine ⟨o, hso, Nat.lt_succ_of_lt hoi, hinner, fun n hn => ?_⟩
    cases n with
    | zero =>
      obtain rfl := Option.some.inj hn
      exact absurd hoi (Nat.lt_irrefl _)
    | succ n => exact hmem n hn
  · exact fun hcomplete => .cons (fun _ hx => nomatch hx) (h.placed hcomplete)

theorem leave (h : Tracks l s i t frames os) (hl : l.WellFormed) (hs : SymbolTable.IsBody l s)
    (hi : i < s.stop) (ht : l.text i = "\x7d") :
    ∃ f fs os', frames = f :: fs ∧ fs ≠ [] ∧ Tracks l s (i + 1) t fs os' := by
  obtain ⟨o, rest, rfl, hopened⟩ := h.opened.leave hl hs.closes h.behind hi ht
  obtain ⟨f, fs, rfl⟩ := List.exists_cons_of_ne_nil (h.frames_ne_nil hs)
  have hbehind := h.behind
  have hdepth : rest.length ≤ fs.length := Nat.le_of_succ_le_succ h.depth
  have hstart : s.start ∈ rest := (hopened.mem s.start).mpr
    ⟨Nat.le_refl _, by omega, hs.brace, s.stop, hs.closes, hi⟩
  have hfs : fs ≠ [] := by
    rintro rfl
    have := List.length_pos_of_mem hstart
    simp only [List.length_nil] at hdepth
    omega
  refine ⟨f, fs, rest, rfl, hfs, by omega, hi, hopened, hdepth, ?_, ?_, ?_, ?_, ?_⟩
  · exact fun x hx => h.owned x (List.mem_append_right _ hx)
  · exact (List.pairwise_append.mp h.latest).2.1
  · intro id v hv harg base hbase
    obtain ⟨g, gs, rfl⟩ := List.exists_cons_of_ne_nil hfs
    exact h.arguments id v hv harg base (by rwa [List.getLast?_cons_cons])
  · intro id v hv hlocal
    obtain ⟨o', hso, hoi, hinner, hmem⟩ := h.locals id v hv hlocal
    exact ⟨o', hso, Nat.lt_succ_of_lt hoi, hinner, fun n hn => hmem (n + 1) hn⟩
  · intro hcomplete
    cases h.placed hcomplete with
    | cons _ hrest => exact hrest

theorem localType (h : Tracks l s i t frames os) (hl : l.WellFormed)
    (hs : SymbolTable.IsBody l s) (hi : i < s.stop) (hword : l.text i ∈ Body.typeWords)
    (hends : Body.localTypeEnd? l s.stop i = some j) (hj : j ≤ s.stop) :
    ∃ os', Tracks l s j t frames os' := by
  have hij := Body.lt_localTypeEnd? hends
  by_cases hcomplete : l.TypesComplete s.start s.stop
  · have hb := Body.balanced_localType hl hcomplete h.behind hi hword hends
    exact ⟨os, h.hold (Nat.le_of_lt hij) hj (h.opened.balanced (Nat.le_of_lt hij) hb)⟩
  · obtain ⟨n, hn⟩ := Body.drop_localType hl h.opened hs.closes h.behind hword hends hj
    have hbehind := h.behind
    refine ⟨os.drop n, { h with
      behind := by omega, before := hj, opened := hn, depth := ?_, locals := ?_,
      placed := fun hc => absurd hc hcomplete }⟩
    · have := h.depth
      rw [List.length_drop]
      omega
    · intro id v hv hlocal
      obtain ⟨o, hso, hoi, hinner, hmem⟩ := h.locals id v hv hlocal
      refine ⟨o, hso, Nat.lt_trans hoi hij, hinner, fun m hm => ?_⟩
      rw [List.getElem?_drop] at hm
      obtain ⟨f, hf, hx⟩ := List.mem_flatten.mp (hmem (n + m) hm)
      rw [Nat.add_comm, ← List.drop_drop] at hf
      exact List.mem_flatten.mpr ⟨f, List.mem_of_mem_drop hf, hx⟩

/-! ## What a declaration does -/

section
variable {o : Nat} {d : Declaration} {ds : List Declarator} {r r' : Resolver} {frame' : Frame}

/-- Declared names stand in the innermost block. -/
theorem innermost_declared (h : Tracks l s i t frames (o :: os)) (hl : l.WellFormed)
    (hs : SymbolTable.IsBody l s) (hi : i < s.stop)
    (hreads : Declaration.ofTokens? l Declaration.localTerminators i s.stop = some d) :
    ∀ x ∈ d.declarators, l.Innermost o x.nameToken := by
  intro x hx
  have hread := (Declaration.readFrom_ofTokens? hl hreads x hx).1
  have hname := (Declaration.named_ofTokens? hl hreads x hx).isName
  have hlt := (Declaration.nameToken_lt hl hs.brace hs.closes h.behind hi hreads x hx).1
  exact (h.opened.balanced (Nat.le_of_lt hlt) hread.balanced).innermost hl
    (hl.text_ne_of_isName hname rfl)

/-- The frames keep their order, and what they refer to is owned. -/
theorem entries_declared (h : Tracks l s i r.table (frame :: frames) os)
    (hd : Resolver.Declares l .local s.id ds r r' frame frame') :
    (∀ x ∈ (frame' :: frames).flatten, ∃ v, r'.table.Owns s.id x.2 v ∧ v.name = x.1) ∧
      (frame' :: frames).flatten.Pairwise fun x y => y.2 < x.2 := by
  have hgrows : r.table.Grows r'.table := (hd.grows 0 fun _ _ => Nat.zero_le _).vars
  obtain ⟨front, rfl, hsorted, hfresh⟩ := hd.frame
  rw [List.flatten_cons, List.append_assoc]
  constructor
  · intro x hx
    rcases List.mem_append.mp hx with hx | hx
    · obtain ⟨_, y, _, hname, hv⟩ := hfresh x hx
      exact ⟨_, ⟨hv, rfl, by simp [Declarator.toVariable]⟩, hname.symm⟩
    · obtain ⟨v, hv, hname⟩ := h.owned x hx
      exact ⟨v, hv.grow hgrows, hname⟩
  · refine List.pairwise_append.mpr ⟨hsorted, h.latest, fun x hx y hy => ?_⟩
    obtain ⟨v, hv, _⟩ := h.owned y hy
    have hlt : y.2 < r.table.vars.size := (Array.getElem?_eq_some_iff.mp hv.1).1
    exact Nat.lt_of_lt_of_le hlt (hfresh x hx).1

/-- The arguments stay in the outermost frame. -/
theorem arguments_declared (h : Tracks l s i r.table (frame :: frames) os)
    (hd : Resolver.Declares l .local s.id ds r r' frame frame') {id : VariableId} {v : Variable}
    (hv : r'.table.Owns s.id id v) (harg : v.role = .argument) :
    ∀ base ∈ (frame' :: frames).getLast?, (v.name, id) ∈ base := by
  intro base hbase
  obtain ⟨front, rfl, _, _⟩ := hd.frame
  rcases hd.vars id v hv.1 with hold | ⟨y, _, rfl, _⟩
  · have hmem := h.arguments id v ⟨hold, hv.2⟩ harg
    cases frames with
    | nil =>
      obtain rfl : front ++ frame = base := Option.some.inj hbase
      exact List.mem_append_right _ (hmem frame rfl)
    | cons f fs =>
      rw [List.getLast?_cons_cons] at hbase hmem
      exact hmem base hbase
  · cases harg

/-- A local is in the frame of its block, or in one within, as long as the block is open. -/
theorem locals_declared (h : Tracks l s i r.table (frame :: frames) (o :: os))
    (hd : Resolver.Declares l .local s.id ds r r' frame frame')
    (hinner : ∀ x ∈ ds, l.Innermost o x.nameToken) (hij : i < j) {id : VariableId} {v : Variable}
    (hv : r'.table.Owns s.id id v) (hlocal : v.role = .local) :
    ∃ b, s.start ≤ b ∧ b < j ∧ l.Innermost b v.nameToken ∧
      ∀ n, (o :: os)[n]? = some b → (v.name, id) ∈ ((frame' :: frames).drop n).flatten := by
  obtain ⟨front, rfl, _, _⟩ := hd.frame
  rcases hd.vars id v hv.1 with hold | ⟨y, hy, rfl, hmem⟩
  · obtain ⟨b, hsb, hbi, hblock, hmem⟩ := h.locals id v ⟨hold, hv.2⟩ hlocal
    refine ⟨b, hsb, Nat.lt_trans hbi hij, hblock, fun n hn => ?_⟩
    cases n with
    | zero =>
      rw [List.drop_zero, List.flatten_cons, List.append_assoc]
      exact List.mem_append_right _ (hmem 0 hn)
    | succ n => exact hmem (n + 1) hn
  · obtain ⟨hso, hoi, _⟩ := (h.opened.mem o).mp List.mem_cons_self
    refine ⟨o, hso, Nat.lt_trans hoi hij, hinner y hy, fun n hn => ?_⟩
    cases n with
    | zero => exact List.mem_append_left _ hmem
    | succ n =>
      -- the innermost brace is listed only once
      rw [List.getElem?_cons_succ] at hn
      have hmem := List.mem_of_getElem? hn
      exact absurd ((List.pairwise_cons.mp h.opened.sorted).1 o hmem) (Nat.lt_irrefl o)

/-- Declared names go into the innermost frame. -/
theorem declare (h : Tracks l s i r.table (frame :: frames) os) (hl : l.WellFormed)
    (hs : SymbolTable.IsBody l s) (hi : i < s.stop)
    (hreads : Declaration.ofTokens? l Declaration.localTerminators i s.stop = some d)
    (hd : Resolver.Declares l .local s.id d.declarators r r' frame frame') :
    Tracks l s (d.first.nameToken + 1) r'.table (frame' :: frames) os := by
  have hbehind := h.behind
  have hfirst : d.first ∈ d.declarators := List.mem_cons_self
  obtain ⟨hlt, hstop⟩ := Declaration.nameToken_lt hl hs.brace hs.closes hbehind hi hreads _ hfirst
  have hread := (Declaration.readFrom_ofTokens? hl hreads _ hfirst).1
  have hname := (Declaration.named_ofTokens? hl hreads _ hfirst).isName
  obtain ⟨o, rest, rfl⟩ := List.exists_cons_of_ne_nil (List.ne_nil_of_mem (h.start_mem hs))
  have hinner := h.innermost_declared hl hs hi hreads
  obtain ⟨howned, hlatest⟩ := h.entries_declared hd
  refine ⟨by omega, hstop, ?_, h.depth, howned, hlatest,
    fun id v hv harg => h.arguments_declared hd hv harg,
    fun id v hv hlocal => h.locals_declared hd hinner (by omega) hv hlocal, fun hcomplete => ?_⟩
  · exact h.opened.balanced (by omega) (hread.balanced.name hl (Nat.le_of_lt hlt) hname)
  · have hgrows : r.table.Grows r'.table := (hd.grows 0 fun _ _ => Nat.zero_le _).vars
    obtain ⟨front, rfl, _, hfresh⟩ := hd.frame
    cases h.placed hcomplete with
    | cons hhead htail =>
      refine .cons ?_ (htail.imp fun _ _ h => h.grow hgrows)
      intro x hx
      rcases List.mem_append.mp hx with hx | hx
      · obtain ⟨_, y, hy, _, hv⟩ := hfresh x hx
        exact ⟨_, hv, fun _ => hinner y hy⟩
      · exact hhead.grow hgrows x hx

end

end Tracks

/-- **One move** of a walk over a body is followed by the resolver, and what is in sight behind it is
tracked again. -/
theorem Tracks.move {l : Listing} {s : Scope} (hl : l.WellFormed) (hs : SymbolTable.IsBody l s)
    {i : Nat} (hi : i < s.stop) (outer : List Frame) {r : Resolver} (blocks : List Frame)
    {base : Frame} {os : List Nat} (h : Tracks l s i r.table (blocks ++ [base]) os)
    {m : Body.Move} (hm : Body.Moves l s.stop i m) :
    ∃ r₁ blocks₁ base₁, Resolver.Follows l s.id m.step.toList r r₁ ∧
      (∀ rest, r.followBody l s.id outer blocks base (m.step.toList ++ rest) =
        r₁.followBody l s.id outer blocks₁ base₁ rest) ∧
      (m.next ≤ s.stop → ∃ os₁, Tracks l s m.next r₁.table (blocks₁ ++ [base₁]) os₁) := by
  have silent : Resolver.Follows l s.id [] r r := .silent l s.id r [] (by simp)
  cases hm with
  | enter brace =>
    exact ⟨r, [] :: blocks, base, .silent l s.id r _ (by simp), fun _ => rfl,
      fun _ => ⟨_, h.enter hl hs hi brace⟩⟩
  | leave brace =>
    obtain ⟨f, fs, os₁, he, hfs, htracks⟩ := h.leave hl hs hi brace
    cases blocks with
    | nil =>
      obtain ⟨_, rfl⟩ := List.cons.inj he
      exact absurd rfl hfs
    | cons block blocks =>
      obtain ⟨_, rfl⟩ := List.cons.inj he
      exact ⟨r, blocks, base, .silent l s.id r _ (by simp), fun _ => rfl,
        fun _ => ⟨os₁, htracks⟩⟩
  | finish semicolon =>
    have ho : l.OpenAt s.start (i + 1) os :=
      h.opened.token hl (by rw [semicolon]; decide) (by rw [semicolon]; decide)
    exact ⟨r, blocks, base, silent, fun _ => rfl,
      fun hn => ⟨os, h.hold (Nat.le_succ i) hn ho⟩⟩
  | loop keyword opener =>
    have ho : l.OpenAt s.start (i + 2) os :=
      (h.opened.token hl (by rw [keyword]; decide) (by rw [keyword]; decide)).token hl
        (by rw [opener]; decide) (by rw [opener]; decide)
    exact ⟨r, blocks, base, silent, fun _ => rfl,
      fun hn => ⟨os, h.hold (Nat.le_add_right i 2) hn ho⟩⟩
  | localType keyword ends =>
    exact ⟨r, blocks, base, silent, fun _ => rfl,
      fun hn => h.localType hl hs hi keyword ends hn⟩
  | @declare d reads =>
    cases blocks with
    | nil =>
      have hd := Resolver.declares_declare (l := l) .local s.id r base d.declarators
      exact ⟨_, [], _, .declare l s.id r base d, fun _ => rfl,
        fun _ => ⟨os, h.declare hl hs hi reads hd⟩⟩
    | cons block blocks =>
      have hd := Resolver.declares_declare (l := l) .local s.id r block d.declarators
      exact ⟨_, _ :: blocks, base, .declare l s.id r block d, fun _ => rfl,
        fun _ => ⟨os, h.declare hl hs hi reads hd⟩⟩
  | pass hopen hclose =>
    have hnext : i + 1 ≤ s.stop → Tracks l s (i + 1) r.table (blocks ++ [base]) os :=
      fun hn => h.hold (Nat.le_succ i) hn (h.opened.token hl hopen hclose)
    cases hmention : Body.isMention l i with
    | false =>
      rw [show (Body.pass l i).step.toList = [] by simp [Body.pass, hmention]]
      exact ⟨r, blocks, base, silent, fun _ => rfl, fun hn => ⟨os, hnext hn⟩⟩
    | true =>
      rw [show (Body.pass l i).step.toList = [.mention i] by simp [Body.pass, hmention]]
      exact ⟨r.mention l (blocks ++ base :: outer) i, blocks, base, .mention l s.id r _ i,
        fun _ => rfl, fun hn => ⟨os, (hnext hn).of_vars (Resolver.vars_mention ..)⟩⟩

/-! ## What a walk does -/

/-- Following steps from one resolver to another, the mention of `token` is come by in the state
`r'` that is tracked, with the steps `front` done and the steps `back` to come. -/
structure Reached (l : Listing) (s : Scope) (outer : List Frame) (token : Nat)
    (steps : List Body.Step) (r r' final : Resolver) (front back : List Body.Step)
    (blocks : List Frame) (base : Frame) (os : List Nat) : Prop where
  split : steps = front ++ .mention token :: back
  follows : Resolver.Follows l s.id front r r'
  tracks : Tracks l s token r'.table (blocks ++ [base]) os
  rest : Resolver.Follows l s.id back (r'.mention l (blocks ++ base :: outer) token) final
  /-- What is still to come does not concern the tokens up to there. -/
  grows : (r'.mention l (blocks ++ base :: outer) token).table.GrowsFrom (token + 1) final.table

def Reaches (l : Listing) (s : Scope) (outer : List Frame) (token : Nat) (steps : List Body.Step)
    (r final : Resolver) : Prop :=
  ∃ r' front back blocks base os,
    Reached l s outer token steps r r' final front back blocks base os

theorem Reaches.later {l : Listing} {s : Scope} {outer : List Frame} {token : Nat}
    {r r₁ final : Resolver} {steps rest : List Body.Step}
    (h : Reaches l s outer token rest r₁ final) (hf : Resolver.Follows l s.id steps r r₁) :
    Reaches l s outer token (steps ++ rest) r final := by
  obtain ⟨r', front, back, blocks, base, os, h⟩ := h
  exact ⟨r', steps ++ front, back, blocks, base, os,
    { h with split := by rw [h.split, List.append_assoc], follows := hf.trans h.follows }⟩

/-- A walk that mentions a token reaches it, and tracks all the way what is in sight. -/
theorem Tracks.reaches {l : Listing} {s : Scope} (hl : l.WellFormed)
    (hs : SymbolTable.IsBody l s) {i token : Nat} {fresh : Bool} (outer : List Frame)
    {r : Resolver} (blocks : List Frame) {base : Frame} {os : List Nat}
    (h : Tracks l s i r.table (blocks ++ [base]) os)
    (hm : .mention token ∈ Body.steps l s.stop i fresh) :
    Reaches l s outer token (Body.steps l s.stop i fresh) r
      (r.followBody l s.id outer blocks base (Body.steps l s.stop i fresh)) := by
  fun_induction Body.steps l s.stop i fresh generalizing r blocks base os with
  | case2 => cases hm
  | case1 i fresh hi m =>
    rename_i ih
    by_cases hhere : .mention token ∈ m.step
    · obtain rfl : token = i := Body.eq_of_mention_mem_move hhere
      have hnext : token < m.next := Body.lt_next_move l s.stop token fresh
      have hbinds := Body.binds_steps hl (i := m.next) m.fresh hs.brace hs.closes
        (Nat.lt_trans h.behind hnext)
      rw [show m.step.toList = [.mention token] by rw [Option.mem_def.mp hhere]; rfl]
      refine ⟨r, [], _, blocks, base, os, rfl, .silent l s.id r [] (by simp), h,
        Resolver.follows_followBody .., ?_⟩
      exact Resolver.growsFrom_followBody s.id outer blocks base
        fun st hst => (hbinds st hst).mono fun _ ht => Nat.le_trans hnext ht.1
    · have hmoves : Body.Moves l s.stop i m := Body.moves_move l s.stop i fresh
      obtain ⟨r₁, blocks₁, base₁, hfollows, hrest, htracks⟩ := h.move hl hs hi outer blocks hmoves
      have hm := (List.mem_append.mp hm).resolve_left (mt Option.mem_toList.mp hhere)
      have hwithin := Body.within_of_mention_mem hm
      obtain ⟨os₁, htracks⟩ := htracks (by omega)
      rw [hrest]
      exact (ih blocks₁ htracks hm).later hfollows

end StackEscape
