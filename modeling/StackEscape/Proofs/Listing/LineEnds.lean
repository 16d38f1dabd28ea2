import StackEscape.Proofs.Listing.Layout

/-!
# Line ends

A carriage return in front of a line feed is a blank like any other: where no literal and no
directive goes on behind the end of its line, a text with carriage returns is cut into the same
tokens at the same places. A continued directive is another matter, since only a line feed right
behind the backslash continues one.
-/

namespace StackEscape

/-- The text with a carriage return in front of every line feed. -/
def crlf (cs : List Char) : List Char :=
  cs.flatMap fun c => if c = '\n' then ['\r', '\n'] else [c]

/-- A text, and the same text with carriage returns in front of some of its line feeds. -/
inductive Returned : List Char → List Char → Prop
  | nil : Returned [] []
  | keep (c : Char) {cs cs' : List Char} : Returned cs cs' → Returned (c :: cs) (c :: cs')
  | feed {cs cs' : List Char} : Returned cs cs' → Returned ('\n' :: cs) ('\r' :: '\n' :: cs')

theorem crlf_feed (cs : List Char) : crlf ('\n' :: cs) = '\r' :: '\n' :: crlf cs := rfl

theorem crlf_cons {c : Char} (hc : c ≠ '\n') (cs : List Char) :
    crlf (c :: cs) = c :: crlf cs := by simp [crlf, hc]

theorem returned_crlf (cs : List Char) : Returned cs (crlf cs) := by
  induction cs with
  | nil => exact .nil
  | cons c cs ih =>
    by_cases hc : c = '\n'
    · rw [hc, crlf_feed]
      exact .feed ih
    · rw [crlf_cons hc]
      exact .keep c ih

namespace Returned

variable {c : Char} {cs cs' ds : List Char}

/-- Only line feeds have carriage returns in front of them. -/
theorem exists_cons (h : Returned (c :: cs) ds) (hc : c ≠ '\n') :
    ∃ cs', ds = c :: cs' ∧ Returned cs cs' := by
  cases h with
  | keep _ h => exact ⟨_, rfl, h⟩
  | feed => exact absurd rfl hc

theorem head?_of_ne (h : Returned cs ds) (hhead : ds.head? = some c) (hc : c ≠ '\r') :
    cs.head? = some c := by
  cases h with
  | nil => exact hhead
  | keep => exact hhead
  | feed => exact absurd (Option.some.inj hhead).symm hc

theorem append_left (h : Returned cs cs') (front : List Char) :
    Returned (front ++ cs) (front ++ cs') := by
  induction front with
  | nil => exact h
  | cons c front ih => exact .keep c ih

theorem contains_eq (h : Returned cs cs') : cs'.contains '\n' = cs.contains '\n' := by
  induction h with
  | nil => rfl
  | keep c _ ih => rw [List.contains_cons, List.contains_cons, ih]
  | feed => rfl

/-- Carriage returns do not move what stands behind the line feeds. -/
theorem advance_eq (h : Returned cs cs') (p : Position) : p.advance cs' = p.advance cs := by
  induction h generalizing p with
  | nil => rfl
  | keep c _ ih => exact ih (p.next c)
  | feed _ ih => exact ih (p.next '\n')

/-- A front without line feeds stands in both texts. -/
theorem cut_line (h : Returned cs cs') :
    ∃ front, '\n' ∉ front ∧
      ((cs = front ∧ cs' = front) ∨
        ∃ tail tail', Returned tail tail' ∧ cs = front ++ '\n' :: tail ∧
          (cs' = front ++ '\n' :: tail' ∨ cs' = front ++ ['\r'] ++ '\n' :: tail')) := by
  induction h with
  | nil => exact ⟨[], List.not_mem_nil, .inl ⟨rfl, rfl⟩⟩
  | @keep c cs cs' h ih =>
    by_cases hc : c = '\n'
    · subst hc
      exact ⟨[], List.not_mem_nil, .inr ⟨cs, cs', h, rfl, .inl rfl⟩⟩
    · obtain ⟨front, hfront, hends⟩ := ih
      refine ⟨c :: front, ?_, ?_⟩
      · rintro (_ | ⟨_, hmem⟩)
        · exact hc rfl
        · exact hfront hmem
      · rcases hends with ⟨rfl, rfl⟩ | ⟨tail, tail', htail, rfl, rfl | rfl⟩
        · exact .inl ⟨rfl, rfl⟩
        · exact .inr ⟨tail, tail', htail, rfl, .inl rfl⟩
        · exact .inr ⟨tail, tail', htail, rfl, .inr rfl⟩
  | @feed cs cs' h => exact ⟨[], List.not_mem_nil, .inr ⟨cs, cs', h, rfl, .inr rfl⟩⟩

/-- Up to a line end the texts are the same. -/
theorem cut_word (h : Returned cs cs') :
    ∃ front tail tail', cs = front ++ tail ∧ cs' = front ++ tail' ∧ EndsLine tail ∧
      EndsWord tail' ∧ Returned tail tail' := by
  have hfeed : ∀ ds, EndsLine ('\n' :: ds) := fun _ _ hd => (Option.some.inj hd).symm
  obtain ⟨front, -, ⟨rfl, rfl⟩ | ⟨tail, tail', htail, rfl, rfl | rfl⟩⟩ := h.cut_line
  · exact ⟨cs', [], [], by simp, by simp, nofun, .nil, .nil⟩
  · exact ⟨front, _, _, rfl, rfl, hfeed tail, .blank (by decide) _, htail.keep '\n'⟩
  · exact ⟨front, _, _, rfl, List.append_assoc .., hfeed tail, .blank (by decide) _, htail.feed⟩

/-- Blanks stay blanks. -/
theorem blanks (h : Returned cs cs') :
    Returned (cs.takeWhile Text.isBlank) (cs'.takeWhile Text.isBlank) ∧
      Returned (cs.dropWhile Text.isBlank) (cs'.dropWhile Text.isBlank) := by
  induction h with
  | nil => exact ⟨.nil, .nil⟩
  | keep c h ih =>
    cases hc : Text.isBlank c with
    | false => simpa [hc] using ⟨Returned.nil, h.keep c⟩
    | true => simpa [hc] using ⟨ih.1.keep c, ih.2⟩
  | feed _ ih =>
    have hreturn : Text.isBlank '\r' = true := by decide
    have hfeed : Text.isBlank '\n' = true := by decide
    simpa [hreturn, hfeed] using ⟨ih.1.feed, ih.2⟩

end Returned

namespace Lexeme

/-! ## Tokens on one line -/

section
variable {c : Char} {cs cs' : List Char} {x : Lexeme}

/-- Whether a character may stand in a number, and so in particular in a name. -/
def isPlain (c : Char) : Bool := continuesNumber false 'e' c

theorem isPlain_of_continuesName (h : continuesName c = true) : isPlain c = true := by
  have hor : (isLetter c || isDigit c || c == '_') = true := h
  rw [isPlain, continuesNumber, hor]
  rfl

theorem isPlain_of_continuesNumber {b : Bool} {last : Char} (h : continuesNumber b last c = true) :
    isPlain c = true := by
  simp only [isPlain, continuesNumber, Bool.or_eq_true, Bool.and_eq_true] at h ⊢
  exact h.imp_right fun hsign => ⟨⟨hsign.1.1, rfl⟩, .inl (.inl (.inl rfl))⟩

theorem isBlank_eq_false_of_isPlain (h : isPlain c = true) : Text.isBlank c = false := by
  refine Bool.eq_false_iff.mpr fun hblank => ?_
  rw [isPlain, continuesNumber_eq_false_of_isBlank hblank] at h
  cases h

theorem isPlain_of_numberLength (b : Bool) (last : Char) (cs : List Char) :
    ∀ d ∈ cs.take (numberLength b last cs), isPlain d = true := by
  fun_induction numberLength b last cs with
  | case1 => exact List.forall_mem_nil _
  | case2 last c cs hc ih =>
    rw [List.take_succ_cons]
    exact List.forall_mem_cons.mpr ⟨isPlain_of_continuesNumber hc, ih⟩
  | case3 => exact List.forall_mem_nil _

theorem isPlain_of_named {cs : List Char} (hc : startsName c = true) :
    ∀ d ∈ c :: cs.take (runLength continuesName cs), isPlain d = true := by
  refine List.forall_mem_cons.mpr
    ⟨isPlain_of_continuesName (continuesName_of_startsName hc), fun d hd => ?_⟩
  exact isPlain_of_continuesName (List.all_eq_true.mp (all_take_runLength continuesName cs) d hd)

/-- A long operator is one of the table, which the text goes on with. -/
theorem operatorLength_cases (c : Char) (cs : List Char) :
    c :: cs.take (operatorLength (c :: cs)) ∈ longOperators ∨ operatorLength (c :: cs) = 0 := by
  unfold operatorLength
  split
  · next op hop =>
    have hmem := List.mem_of_find?_eq_some hop
    have hprefix := List.find?_some hop
    cases op with
    | nil => exact .inr rfl
    | cons o op =>
      obtain ⟨rfl, hfront⟩ := List.cons_prefix_cons.mp (List.isPrefixOf_iff_prefix.mp hprefix)
      rw [List.length_cons, Nat.add_sub_cancel, ← List.prefix_iff_eq_take.mp hfront]
      exact .inl hmem
  · exact .inr rfl

/-- A token that is no literal consists of plain characters, or is an operator. -/
theorem cases_token {cs : List Char} (h : token c cs = .ok x)
    (hliteral : x.kind ≠ some .string ∧ x.kind ≠ some .character) :
    (∀ d ∈ c :: cs.take x.extra, isPlain d = true) ∨ c :: cs.take x.extra ∈ longOperators ∨
      x.extra = 0 := by
  have hquoted : ∀ {q : Quote} {mark : Nat} {body : List Char}, quoted q mark body ≠ .ok x := by
    intro q mark body hq
    rw [kind_quoted hq] at hliteral
    cases q
    · exact hliteral.1 rfl
    · exact hliteral.2 rfl
  unfold token at h
  split at h
  · next hc =>
    simp only [named] at h
    split at h
    · split at h
      · exact absurd h hquoted
      · obtain rfl := Except.ok.inj h
        exact .inl (isPlain_of_named hc)
    · obtain rfl := Except.ok.inj h
      exact .inl (isPlain_of_named hc)
  split at h
  · next hnumber =>
    obtain rfl := Except.ok.inj h
    refine .inl (List.forall_mem_cons.mpr ⟨?_, isPlain_of_numberLength _ _ _⟩)
    simp only [Bool.or_eq_true, Bool.and_eq_true] at hnumber
    rcases hnumber with hdigit | ⟨hpoint, _⟩
    · exact isPlain_of_continuesName (by simp [continuesName, hdigit])
    · simp [isPlain, continuesNumber, hpoint]
  split at h
  · exact absurd h hquoted
  · obtain rfl := Except.ok.inj h
    exact .inr (operatorLength_cases c cs)

/-- Only literals have blanks in them. -/
theorem isBlank_eq_false_of_token (h : token c cs = .ok x)
    (hliteral : x.kind ≠ some .string ∧ x.kind ≠ some .character) :
    ∀ d ∈ cs.take x.extra, Text.isBlank d = false := by
  intro d hd
  rcases cases_token h hliteral with hplain | hlong | hextra
  · exact isBlank_eq_false_of_isPlain (hplain d (List.mem_cons_of_mem c hd))
  · exact isBlank_eq_false_of_mem_longOperators _ hlong d (List.mem_cons_of_mem c hd)
  · rw [hextra] at hd
    cases hd

/-- Literals apart, no token goes on behind the end of its line. -/
theorem lineFeed_notMem_of_measure {fresh : Bool} {kind : Kind} {n : Nat}
    (h : measure fresh c cs = .ok ⟨some kind, n⟩)
    (hliteral : kind = .string ∨ kind = .character →
      '\n' ∉ (spelling (c :: cs.take n)).toList) : '\n' ∉ c :: cs.take n := by
  intro hmem
  by_cases hkind : kind = .string ∨ kind = .character
  · have hspelling := contains_spelling (c :: cs.take n)
    rw [List.contains_iff_mem.mpr hmem] at hspelling
    exact hliteral hkind (List.contains_iff_mem.mp hspelling)
  · have hbegins := beginsToken_of_measure h rfl
    rw [measure_eq_token hbegins] at h
    have hblank : Text.isBlank '\n' = true := by decide
    obtain ⟨hstring, hcharacter⟩ := not_or.mp hkind
    rcases List.mem_cons.mp hmem with rfl | hmem
    · rw [hbegins.visible] at hblank
      cases hblank
    · have hvisible := isBlank_eq_false_of_token h
        ⟨fun hk => hstring (Option.some.inj hk), fun hk => hcharacter (Option.some.inj hk)⟩ _ hmem
      rw [hvisible] at hblank
      cases hblank

end

/-! ## Gaps -/

/-- The directives of a text, each with the lines that it is continued on. `fresh` says that nothing
but gaps stands before the text on its line. -/
def directives (fresh : Bool) : List Char → List (List Char)
  | [] => []
  | c :: cs =>
    match measure fresh c cs with
    | .error _ => []
    | .ok lexeme =>
      let taken := c :: cs.take lexeme.extra
      let behind := directives ((lexeme.kind.isNone && fresh) || taken.contains '\n')
        (cs.drop lexeme.extra)
      if lexeme.kind = none ∧ c = '#' then taken :: behind else behind
termination_by cs => cs.length

section
variable {fresh : Bool} {c : Char} {cs : List Char} {n : Nat}

theorem directives_token {kind : Kind} (h : measure fresh c cs = .ok ⟨some kind, n⟩) :
    directives fresh (c :: cs) = directives ((c :: cs.take n).contains '\n') (cs.drop n) := by
  rw [directives.eq_def]
  simp only [h]
  rfl

theorem directives_gap (h : measure fresh c cs = .ok ⟨none, n⟩) :
    directives fresh (c :: cs) =
      (if c = '#' then [c :: cs.take n] else []) ++
        directives (fresh || (c :: cs.take n).contains '\n') (cs.drop n) := by
  rw [directives.eq_def]
  simp only [h, Option.isNone_none, Bool.true_and, true_and]
  split <;> rfl

end

theorem directiveLength_cons {c : Char} {cs : List Char} (hc : c ≠ '\n')
    (hslash : c = '\\' → ∀ d ∈ cs.head?, d ≠ '\n') :
    directiveLength (c :: cs) = directiveLength cs + 1 := by
  rw [directiveLength]
  · rintro ds rfl rfl
    exact hslash rfl '\n' rfl rfl
  · exact fun h => hc h

/-- A directive that is not continued goes up to the end of its line. A carriage return there
belongs to it. -/
theorem directiveLength_returned {cs cs' : List Char} (h : Returned cs cs')
    (hline : '\n' ∉ cs.take (directiveLength cs)) :
    directiveLength cs = lineLength cs ∧ directiveLength cs' = lineLength cs' := by
  have hcons : ∀ {c : Char} {cs : List Char}, c ≠ '\n' →
      lineLength (c :: cs) = lineLength cs + 1 := by
    intro c cs hc
    simp [lineLength, runLength, hc]
  fun_induction directiveLength cs generalizing cs' with
  | case1 => simp at hline
  | case2 =>
    refine ⟨rfl, ?_⟩
    cases h with
    | keep => rfl
    | feed => rfl
  | case3 c cs hslash hc ih =>
    have hfeed : c ≠ '\n' := fun he => hc he
    obtain ⟨cs', rfl, hcs⟩ := h.exists_cons hfeed
    rw [List.take_succ_cons] at hline
    obtain ⟨hlength, hlength'⟩ := ih hcs fun hmem => hline (List.mem_cons_of_mem c hmem)
    rw [hcons hfeed, hcons hfeed, hlength]
    refine ⟨rfl, ?_⟩
    rw [directiveLength_cons hfeed, hlength']
    rintro rfl d hd rfl
    obtain ⟨ds, rfl⟩ := List.head?_eq_some_iff.mp (hcs.head?_of_ne hd (by decide))
    exact hslash ds rfl rfl
  | case4 =>
    cases h
    exact ⟨rfl, rfl⟩

theorem commentLength?_cons {c : Char} {cs : List Char} (hc : c = '*' → cs.head? ≠ some '/') :
    commentLength? (c :: cs) = (commentLength? cs).map (· + 1) := by
  rw [commentLength?]
  rintro ds rfl rfl
  exact hc rfl rfl

/-- Where a block comment ends does not depend on carriage returns. -/
theorem commentLength?_returned {cs cs' : List Char} (h : Returned cs cs') {n : Nat}
    (hn : commentLength? cs = some n) :
    ∃ n', commentLength? cs' = some n' ∧ Returned (cs.take n) (cs'.take n') ∧
      Returned (cs.drop n) (cs'.drop n') := by
  fun_induction commentLength? cs generalizing cs' n with
  | case1 cs =>
    obtain rfl := Option.some.inj hn
    obtain ⟨_, rfl, hstar⟩ := h.exists_cons (by decide)
    obtain ⟨ds, rfl, hslash⟩ := hstar.exists_cons (by decide)
    exact ⟨2, rfl, .keep _ (.keep _ .nil), hslash⟩
  | case2 c cs hno ih =>
    obtain ⟨m, hm, rfl⟩ := Option.map_eq_some_iff.mp hn
    cases h with
    | @keep _ _ cs' hcs =>
      obtain ⟨m', hm', htake, hdrop⟩ := ih hcs hm
      refine ⟨m' + 1, ?_, htake.keep c, hdrop⟩
      rw [commentLength?_cons, hm']
      · rfl
      · rintro rfl hhead
        obtain ⟨ds, rfl⟩ := List.head?_eq_some_iff.mp (hcs.head?_of_ne hhead (by decide))
        exact hno ds rfl rfl
    | @feed _ cs' hcs =>
      obtain ⟨m', hm', htake, hdrop⟩ := ih hcs hm
      refine ⟨m' + 2, ?_, htake.feed, hdrop⟩
      rw [commentLength?_cons (fun hc => absurd hc (by decide)),
        commentLength?_cons (fun hc => absurd hc (by decide)), hm']
      rfl
  | case3 => cases hn

theorem lineLength_append {front tail : List Char} (hfront : '\n' ∉ front) (htail : EndsLine tail) :
    lineLength (front ++ tail) = front.length := by
  have hall : ∀ d ∈ front, (d != '\n') = true :=
    fun d hd => bne_iff_ne.mpr fun he => hfront (he ▸ hd)
  rw [lineLength, runLength, List.takeWhile_append_of_pos hall]
  cases tail with
  | nil => simp
  | cons d tail => simp [htail d rfl]

/-- What stands at the front of a text that is a gap, and how far it reaches. -/
theorem cases_gap {fresh : Bool} {c : Char} {cs : List Char} {n : Nat}
    (h : measure fresh c cs = .ok ⟨none, n⟩) :
    Text.isBlank c = true ∨
    (c = '/' ∧ cs.head? = some '/' ∧ n = lineLength cs) ∨
    (c = '/' ∧ ∃ ds m, cs = '*' :: ds ∧ commentLength? ds = some m ∧ n = m + 1) ∨
    (c = '#' ∧ fresh = true ∧ n = directiveLength cs) := by
  have htoken : token c cs ≠ .ok ⟨none, n⟩ := by
    intro htoken
    have hkind := isSome_kind_token htoken
    cases hkind
  unfold measure at h
  split at h
  · exact .inl ‹_›
  split at h
  · next hline =>
    obtain rfl := congrArg Lexeme.extra (Except.ok.inj h)
    exact .inr (.inl ⟨hline.1, hline.2, rfl⟩)
  split at h
  · next hcomment =>
    obtain ⟨hc, hhead⟩ := hcomment
    obtain ⟨ds, rfl⟩ := List.head?_eq_some_iff.mp hhead
    split at h
    · next m hm =>
      obtain rfl := congrArg Lexeme.extra (Except.ok.inj h)
      exact .inr (.inr (.inl ⟨hc, ds, m, rfl, hm, rfl⟩))
    · cases h
  split at h
  · next hdirective =>
    obtain rfl := congrArg Lexeme.extra (Except.ok.inj h)
    exact .inr (.inr (.inr ⟨hdirective.1, hdirective.2, rfl⟩))
  · exact absurd h htoken

/-! ## Two scans abreast -/

/-- What is left of a text without carriage returns and of the same text with them. The scan of the
second is where that of the first is, or right behind a carriage return. -/
structure Abreast (p p' : Position) (cs cs' : List Char) : Prop where
  text : Returned cs cs'
  place : p' = p ∨ p'.line = p.line ∧ cs'.head? = some '\n'

namespace Abreast

variable {p p' : Position} {c : Char} {cs ds : List Char} {fresh : Bool}

theorem refl (h : Returned cs ds) (p : Position) : Abreast p p cs ds := ⟨h, .inl rfl⟩

/-- What is visible stands at the same place. -/
theorem exists_cons (h : Abreast p p' (c :: cs) ds) (hc : c ≠ '\n') :
    p' = p ∧ ∃ cs', ds = c :: cs' ∧ Returned cs cs' := by
  obtain ⟨cs', rfl, hcs⟩ := h.text.exists_cons hc
  refine ⟨h.place.resolve_right fun hplace => hc ?_, cs', rfl, hcs⟩
  exact Option.some.inj hplace.2

/-- Both scans pass over blanks. -/
theorem blanks (h : Abreast p p' cs ds) :
    Abreast (p.advance (cs.takeWhile Text.isBlank)) (p'.advance (ds.takeWhile Text.isBlank))
      (cs.dropWhile Text.isBlank) (ds.dropWhile Text.isBlank) := by
  obtain ⟨htake, hdrop⟩ := h.text.blanks
  refine ⟨hdrop, .inl ?_⟩
  rcases h.place with rfl | ⟨hline, hhead⟩
  · exact htake.advance_eq p'
  · -- behind the carriage return both go on with the line feed
    have hfeed : Text.isBlank '\n' = true := by decide
    obtain ⟨cs, rfl⟩ := List.head?_eq_some_iff.mp (h.text.head?_of_ne hhead (by decide))
    obtain ⟨ds, rfl⟩ := List.head?_eq_some_iff.mp hhead
    rw [List.takeWhile_cons_of_pos hfeed, List.takeWhile_cons_of_pos hfeed] at htake ⊢
    have hplace : p'.next '\n' = p.next '\n' := by
      rw [Position.next, if_pos rfl, Position.next, if_pos rfl, hline]
    rw [Position.advance_cons, Position.advance_cons, hplace]
    cases htake with
    | keep _ htake => exact htake.advance_eq _

/-- Both scans pass over what goes up to the end of the line: the second one over a carriage return,
too, if there is one. -/
theorem line (h : Abreast p p' (c :: cs) ds) (hc : c ≠ '\n')
    (hmeasure : ∀ cs', Returned cs cs' → measure fresh c cs' = .ok ⟨none, lineLength cs'⟩) :
    ∃ q ds', scan p' fresh ds =
        scan q (fresh || (c :: cs.take (lineLength cs)).contains '\n') ds' ∧
      Abreast (p.advance (c :: cs.take (lineLength cs))) q (cs.drop (lineLength cs)) ds' := by
  obtain ⟨rfl, cs', rfl, hcs⟩ := h.exists_cons hc
  rw [scan_gap p' (hmeasure cs' hcs)]
  obtain ⟨front, hfront, hends⟩ := hcs.cut_line
  have hline : ∀ tail, EndsLine tail → lineLength (front ++ tail) = front.length :=
    fun _ => lineLength_append hfront
  have hfeed : ∀ tail, EndsLine ('\n' :: tail) := fun _ _ hd => (Option.some.inj hd).symm
  rcases hends with ⟨rfl, rfl⟩ | ⟨tail, tail', htail, rfl, rfl | rfl⟩
  · have hall := hline [] nofun
    rw [List.append_nil] at hall
    rw [hall, List.take_length, List.drop_length]
    exact ⟨_, _, rfl, refl .nil _⟩
  · rw [hline _ (hfeed _), hline _ (hfeed _), List.take_left, List.drop_left, List.take_left,
      List.drop_left]
    exact ⟨_, _, rfl, refl (htail.keep '\n') _⟩
  · have hreturn : '\n' ∉ front ++ ['\r'] := by simpa using hfront
    rw [hline _ (hfeed _), List.take_left, List.drop_left,
      lineLength_append hreturn (hfeed tail'), List.take_left, List.drop_left, ← List.cons_append,
      Position.advance_append]
    have hcontains : (c :: front ++ ['\r']).contains '\n' = (c :: front).contains '\n' := by simp
    rw [hcontains]
    exact ⟨_, _, rfl, htail.keep '\n', .inr ⟨rfl, rfl⟩⟩

/-- Both scans pass over a block comment. -/
theorem comment (h : Abreast p p' ('/' :: '*' :: cs) ds) {n : Nat}
    (hn : commentLength? cs = some n) :
    ∃ q ds', scan p' fresh ds = scan q (fresh || ('/' :: '*' :: cs.take n).contains '\n') ds' ∧
      Abreast (p.advance ('/' :: '*' :: cs.take n)) q (cs.drop n) ds' := by
  obtain ⟨rfl, cs', rfl, hstar⟩ := h.exists_cons (by decide)
  obtain ⟨ds, rfl, hcs⟩ := hstar.exists_cons (by decide)
  obtain ⟨n', hn', htake, hdrop⟩ := commentLength?_returned hcs hn
  have hmeasure : measure fresh '/' ('*' :: ds) = .ok ⟨none, n' + 1⟩ := by
    simp [measure, hn', show Text.isBlank '/' = false by decide]
  have htaken : Returned ('/' :: '*' :: cs.take n) ('/' :: '*' :: ds.take n') :=
    .keep _ (.keep _ htake)
  rw [scan_gap p' hmeasure, List.take_succ_cons, List.drop_succ_cons, htaken.contains_eq,
    htaken.advance_eq]
  exact ⟨_, _, rfl, refl hdrop _⟩

/-- Both scans pass over a gap, if it is no directive that is continued. -/
theorem gap (h : Abreast p p' (c :: cs) ds) {n : Nat} (hn : measure fresh c cs = .ok ⟨none, n⟩)
    (hline : c = '#' → '\n' ∉ cs.take n) :
    ∃ q ds', scan p' fresh ds = scan q (fresh || (c :: cs.take n).contains '\n') ds' ∧
      Abreast (p.advance (c :: cs.take n)) q (cs.drop n) ds' := by
  rcases cases_gap hn with hblank | ⟨rfl, hhead, rfl⟩ | ⟨rfl, ds, m, rfl, hm, rfl⟩ |
      ⟨rfl, rfl, rfl⟩
  · have hrun : n = runLength Text.isBlank cs := by
      rw [measure, if_pos hblank] at hn
      exact (congrArg Lexeme.extra (Except.ok.inj hn)).symm
    have hblanks := h.blanks
    have hcontains := h.text.blanks.1.contains_eq
    rw [List.takeWhile_cons_of_pos hblank] at hblanks hcontains
    rw [List.dropWhile_cons_of_pos hblank] at hblanks
    rw [hrun, take_runLength, drop_runLength, scan_blanks p', hcontains]
    exact ⟨_, _, rfl, hblanks⟩
  · refine h.line (by decide) fun cs' hcs => ?_
    obtain ⟨cs, rfl⟩ := List.head?_eq_some_iff.mp hhead
    obtain ⟨ds, rfl, -⟩ := hcs.exists_cons (by decide)
    simp [measure, show Text.isBlank '/' = false by decide]
  · exact h.comment hm
  · obtain ⟨-, cs', rfl, hcs⟩ := h.exists_cons (by decide)
    rw [(directiveLength_returned hcs (hline rfl)).1]
    refine h.line (by decide) fun cs' hcs => ?_
    rw [← (directiveLength_returned hcs (hline rfl)).2]
    simp [measure, show Text.isBlank '#' = false by decide]

/-- Both scans cut off the same token at the same place, if it stands on one line. -/
theorem token (h : Abreast p p' (c :: cs) ds) {kind : Kind} {n : Nat}
    (hn : measure fresh c cs = .ok ⟨some kind, n⟩) (hline : '\n' ∉ c :: cs.take n) :
    ∃ ds', scan p' fresh ds =
        (scan (p.advance (c :: cs.take n)) ((c :: cs.take n).contains '\n') ds').map
          (⟨spelling (c :: cs.take n), kind, p⟩ :: ·) ∧
      Abreast (p.advance (c :: cs.take n)) (p.advance (c :: cs.take n)) (cs.drop n) ds' := by
  obtain ⟨hc, htaken⟩ := not_or.mp fun h => hline (List.mem_cons.mpr h)
  obtain ⟨rfl, cs', rfl, hcs⟩ := h.exists_cons (Ne.symm hc)
  -- the token ends before the first line feed, so both texts have it in front of what differs
  obtain ⟨front, tail, tail', rfl, rfl, hends, hword, htail⟩ := hcs.cut_word
  have hle : n ≤ front.length := by
    have htoken := (measure_eq_token (beginsToken_of_measure hn rfl)).symm.trans hn
    have hlength : n ≤ (front ++ tail).length := extra_le_of_token htoken
    rw [List.length_append] at hlength
    refine Nat.le_of_not_lt fun hlt => ?_
    cases tail with
    | nil => exact absurd hlength (Nat.not_le_of_lt hlt)
    | cons d tail =>
      obtain rfl := hends d rfl
      refine htaken (List.mem_take_iff_getElem.mpr ⟨front.length, ?_, by simp⟩)
      rw [List.length_append, List.length_cons]
      omega
  have hn' : measure fresh c (front ++ tail') = .ok ⟨some kind, n⟩ := measure_cut hn rfl hle hword
  rw [scan_token p' hn']
  simp only [List.take_append_of_le_length hle, List.drop_append_of_le_length hle]
  exact ⟨_, rfl, refl (htail.append_left _) _⟩

end Abreast

/-- **Carriage returns do not change what a text is cut into**, where no literal and no directive
goes on behind the end of its line. -/
theorem scan_returned {p p' : Position} {fresh : Bool} {cs ds : List Char} {ts : List Token}
    (h : scan p fresh cs = .ok ts) (hds : Abreast p p' cs ds)
    (hliteral : ∀ t ∈ ts, t.kind = .string ∨ t.kind = .character → '\n' ∉ t.text.toList)
    (hdirective : ∀ d ∈ directives fresh cs, '\n' ∉ d) : scan p' fresh ds = .ok ts := by
  fun_induction scan p fresh cs generalizing p' ds ts with
  | case1 =>
    obtain rfl := Except.ok.inj h
    cases hds.text
    exact scan_nil _ _
  | case2 => cases h
  | case3 p fresh c cs x hx =>
    rename_i taken after brokeLine hk ih
    obtain ⟨kind, n⟩ := x
    obtain rfl : kind = none := hk
    rw [directives_gap hx] at hdirective
    obtain ⟨hfirst, hbehind⟩ := List.forall_mem_append.mp hdirective
    have hline : c = '#' → '\n' ∉ cs.take n := by
      rintro rfl hmem
      exact hfirst _ List.mem_cons_self (List.mem_cons_of_mem _ hmem)
    obtain ⟨q, ds', hscan, habreast⟩ := hds.gap hx hline
    rw [hscan]
    exact ih h habreast hliteral hbehind
  | case4 p fresh c cs x hx =>
    rename_i taken after brokeLine kind hk ih
    obtain ⟨kind, n⟩ := x
    obtain rfl : kind = some _ := hk
    cases hs : scan after brokeLine (cs.drop n) with
    | error fault => rw [hs] at h; cases h
    | ok rest =>
      rw [hs] at h
      obtain rfl := Except.ok.inj h
      obtain ⟨hfirst, hbehind⟩ := List.forall_mem_cons.mp hliteral
      rw [directives_token hx] at hdirective
      obtain ⟨ds', hscan, habreast⟩ := hds.token hx (lineFeed_notMem_of_measure hx hfirst)
      rw [hscan, ih hs habreast hbehind hdirective]
      rfl

end Lexeme

namespace Listing

def withReturns (source : String) : String := String.ofList (crlf source.toList)

/-- No literal of a listing goes on behind the end of its line. -/
def OneLineLiterals (l : Listing) : Prop :=
  ∀ t ∈ l.tokens.toList, t.kind = .string ∨ t.kind = .character → '\n' ∉ t.text.toList

instance (l : Listing) : Decidable l.OneLineLiterals := inferInstanceAs (Decidable (∀ _ ∈ _, _))

/-- **Line ends do not matter** where no literal and no directive goes on behind one: with a
carriage return in front of every line feed, the source has the same tokens at the same places and
the same links. -/
theorem ofSource_withReturns {file source : String} {l : Listing} (h : ofSource file source = .ok l)
    (hliteral : l.OneLineLiterals)
    (hdirective : ∀ d ∈ Lexeme.directives true source.toList, '\n' ∉ d) :
    ofSource file (withReturns source) = .ok l := by
  obtain ⟨hscan, -⟩ := scan_of_ofSource h
  have hreturned := Lexeme.scan_returned hscan (.refl (returned_crlf source.toList) .start)
    hliteral hdirective
  unfold ofSource at h ⊢
  rw [hscan] at h
  rw [withReturns, String.toList_ofList, hreturned]
  exact h

/-- The case of directives and comments of both sorts, with a backslash last on a line. -/
theorem ofSource_withReturns_comments : ∃ l,
    ofSource "a.cpp" "#if A\n/* b\n */ #c\nint f() \x7b // \\\n L'd'; \n\x7d\n" = .ok l ∧
      l.OneLineLiterals ∧
      (∀ d ∈ Lexeme.directives true
        "#if A\n/* b\n */ #c\nint f() \x7b // \\\n L'd'; \n\x7d\n".toList, '\n' ∉ d) ∧
      ofSource "a.cpp"
        (withReturns "#if A\n/* b\n */ #c\nint f() \x7b // \\\n L'd'; \n\x7d\n") = .ok l := by
  obtain ⟨l, hl, hliteral⟩ : ∃ l,
      ofSource "a.cpp" "#if A\n/* b\n */ #c\nint f() \x7b // \\\n L'd'; \n\x7d\n" = .ok l ∧
        l.OneLineLiterals := exists_ok_of_any (by decide +kernel)
  have hdirective : ∀ d ∈ Lexeme.directives true
      "#if A\n/* b\n */ #c\nint f() \x7b // \\\n L'd'; \n\x7d\n".toList, '\n' ∉ d := by
    decide +kernel
  exact ⟨l, hl, hliteral, hdirective, ofSource_withReturns hl hliteral hdirective⟩

/-- With carriage returns, the second line of a continued directive is read as source. -/
theorem withReturns_continued_directive : ∃ l l',
    ofSource "test.cpp" "#define M \\\n x\nint y;" = .ok l ∧
      '\r' ∉ "#define M \\\n x\nint y;".toList ∧ l.OneLineLiterals ∧
      ofSource "test.cpp" (withReturns "#define M \\\n x\nint y;") = .ok l' ∧
      l.tokens.map Token.text = #["int", "y", ";"] ∧
      l'.tokens.map Token.text = #["x", "int", "y", ";"] := by
  obtain ⟨l, hl, hliteral, htexts⟩ : ∃ l, ofSource "test.cpp" "#define M \\\n x\nint y;" = .ok l ∧
      l.OneLineLiterals ∧ l.tokens.map Token.text = #["int", "y", ";"] :=
    exists_ok_of_any (by decide +kernel)
  obtain ⟨l', hl', htexts'⟩ : ∃ l',
      ofSource "test.cpp" (withReturns "#define M \\\n x\nint y;") = .ok l' ∧
        l'.tokens.map Token.text = #["x", "int", "y", ";"] := exists_ok_of_any (by decide +kernel)
  exact ⟨l, l', hl, by decide +kernel, hliteral, hl', htexts, htexts'⟩

end Listing

end StackEscape
