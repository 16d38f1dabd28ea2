import StackEscape.Outline.Declarator

/-!
# Function headings

`Heading.ofTokens?` recognizes the definition of a function by its parameter list, which a name or
an operator stands before and a body comes after. What the function returns is read off the tokens
before its whole qualified name.
-/

namespace StackEscape

/-- What a function hands back, as far as escapes are concerned. -/
inductive ReturnCategory where
  | byValue
  | pointer
  | reference
  /-- A `const char *`, which is a pointer too. -/
  | constCharPointer
deriving DecidableEq, Repr

namespace ReturnCategory

def returnsPointer : ReturnCategory → Bool
  | .pointer | .constCharPointer => true
  | _ => false

def returnsReference : ReturnCategory → Bool
  | .reference => true
  | _ => false

end ReturnCategory

/-- The heading of a function definition. Indices are those of tokens. -/
structure Heading where
  name : String
  nameToken : Nat
  returns : ReturnCategory
  /-- The name before `::`, if the function is defined outside its class. -/
  qualifier : Option String
  parameters : List Declarator
  bodyOpen : Nat
  bodyClose : Nat
deriving DecidableEq, Repr

namespace Heading

/-- The parenthesis that opens the parameter list of what starts before `p`, and the word
`operator` if that is what it belongs to. -/
def parameterList? (l : Listing) (stop p : Nat) : Option (Nat × Option Nat) :=
  if p < stop then
    let w := l.text p
    if w = "(" then some (p, none)
    else if w = "operator" then
      let call := l.text (p + 1) = "(" && l.text (p + 2) = ")"
      let index := l.text (p + 1) = "[" && l.text (p + 2) = "]"
      let opener := if call || index then p + 3 else p + 2
      if l.text opener = "(" then some (opener, some p) else none
    else if [";", "\x7b", "\x7d", "=", "["].contains w then none
    else if w = "<" then
      match _h : l.templateEnd? stop p with
      | some j => parameterList? l stop j
      | none => parameterList? l stop (p + 1)
    else parameterList? l stop (p + 1)
  else none
termination_by stop - p
decreasing_by
  · have := Listing.lt_templateEnd? ‹_›; omega
  · omega
  · omega

theorem le_parameterList? {l : Listing} {stop p opener : Nat} {operator : Option Nat}
    (h : parameterList? l stop p = some (opener, operator)) : p ≤ opener := by
  fun_induction parameterList? l stop p with
  | case1 => simp at h; omega
  | case2 p _ _ _ _ call index o _ =>
    simp only [Option.some.injEq, Prod.mk.injEq] at h
    have : p ≤ o := by simp only [o]; split <;> omega
    omega
  | case3 => simp at h
  | case4 => simp at h
  | case5 _ _ _ _ _ _ _ _ ht ih => have := ih h; have := Listing.lt_templateEnd? ht; omega
  | case6 _ _ _ _ _ _ _ _ ih => have := ih h; omega
  | case7 _ _ _ _ _ _ _ ih => have := ih h; omega
  | case8 => simp at h

/-- Words that may stand between a parameter list and the body. -/
def trailingWords : List String := ["const", "volatile", "override", "final", "&", "&&", "mutable"]

/-- Index behind the qualifiers, exception specifications and trailing return type at `q`. -/
def passQualifiers? (l : Listing) (stop q : Nat) : Option Nat :=
  if q < stop then
    let w := l.text q
    if trailingWords.contains w then passQualifiers? l stop (q + 1)
    else if w = "noexcept" || w = "throw" then
      if l.text (q + 1) = "(" then
        match _h : l.closing? (q + 1) with
        | some close => passQualifiers? l stop (close + 1)
        | none => none
      else passQualifiers? l stop (q + 1)
    else if w = "." then passQualifiers? l stop (l.seek ["\x7b", ";"] stop (q + 1))
    else some q
  else some q
termination_by stop - q
decreasing_by
  · omega
  · have := Listing.lt_of_closing? ‹_›; omega
  · omega
  · have := l.le_seek ["\x7b", ";"] stop (q + 1); omega

theorem le_passQualifiers? {l : Listing} {stop q j : Nat}
    (h : passQualifiers? l stop q = some j) : q ≤ j := by
  fun_induction passQualifiers? l stop q with
  | case1 _ _ _ _ ih => have := ih h; omega
  | case2 _ _ _ _ _ _ _ hc ih => have := ih h; have := Listing.lt_of_closing? hc; omega
  | case3 => simp at h
  | case4 _ _ _ _ _ _ ih => have := ih h; omega
  | case5 q _ _ _ _ _ ih => have := ih h; have := l.le_seek ["\x7b", ";"] stop (q + 1); omega
  | case6 => simp at h; omega
  | case7 => simp at h; omega

/-- Index behind the list of constructor initializers at `q`. -/
def passInitializers? (l : Listing) (stop q : Nat) : Option Nat :=
  if q < stop then
    let name := l.passNames ["::"] stop q
    match _ht : if l.text name = "<" then l.templateEnd? stop name else some name with
    | none => none
    | some opener =>
      if l.text opener = "(" || l.text opener = "\x7b" then
        match _h : l.closing? opener with
        | some close =>
          if l.text (close + 1) = "," then passInitializers? l stop (close + 2)
          else some (close + 1)
        | none => none
      else none
  else none
termination_by stop - q
decreasing_by
  have hc := Listing.lt_of_closing? ‹_›
  have hn := l.le_passNames ["::"] stop q
  have : l.passNames ["::"] stop q ≤ opener := by
    split at _ht
    · have := Listing.lt_templateEnd? _ht; omega
    · simp at _ht; omega
  omega

theorem lt_passInitializers? {l : Listing} {stop q j : Nat}
    (h : passInitializers? l stop q = some j) : q < j := by
  have opener_le : ∀ {q opener : Nat},
      (if l.text (l.passNames ["::"] stop q) = "<" then
        l.templateEnd? stop (l.passNames ["::"] stop q) else some (l.passNames ["::"] stop q))
        = some opener → q ≤ opener := by
    intro q opener ht
    have := l.le_passNames ["::"] stop q
    split at ht
    · have := Listing.lt_templateEnd? ht; omega
    · simp at ht; omega
  fun_induction passInitializers? l stop q with
  | case1 => simp at h
  | case2 _ _ _ _ ht _ _ hc _ ih =>
    have := opener_le ht; have := Listing.lt_of_closing? hc; have := ih h; omega
  | case3 _ _ _ _ ht _ _ hc _ =>
    have := opener_le ht; have := Listing.lt_of_closing? hc; simp at h; omega
  | case4 => simp at h
  | case5 => simp at h
  | case6 => simp at h

/-- The brace that opens the body after a parameter list that ends before `q`. -/
def bodyOpen? (l : Listing) (stop q : Nat) : Option Nat :=
  match passQualifiers? l stop q with
  | none => none
  | some q =>
    match if l.text q = ":" then passInitializers? l stop (q + 1) else some q with
    | none => none
    | some q => if q < stop && l.text q = "\x7b" then some q else none

theorem le_bodyOpen? {l : Listing} {stop q j : Nat} (h : bodyOpen? l stop q = some j) :
    q ≤ j := by
  unfold bodyOpen? at h
  split at h
  · simp at h
  · next hq =>
    have := le_passQualifiers? hq
    split at h
    · simp at h
    · next hi =>
      split at h
      · obtain rfl := Option.some.inj h
        split at hi
        · have := lt_passInitializers? hi; omega
        · simp at hi; omega
      · simp at h

/-- Where the name that ends at `n` begins, its qualifiers included; not before `start`. -/
def qualifiedStart (l : Listing) (start : Nat) : Nat → Nat
  | n + 2 =>
    if start ≤ n && l.text (n + 1) = "::" && l.isName n then qualifiedStart l start n else n + 2
  | n => n

/-- What a function returns whose name begins at `n`, in a definition that begins at `start`. -/
def returnCategory (l : Listing) (start n : Nat) : ReturnCategory :=
  if start + 3 ≤ n && l.text (n - 3) = "const" && l.text (n - 2) = "char"
      && l.text (n - 1) = "*" then .constCharPointer
  else if n ≤ start then .byValue
  else if l.text (n - 1) = "*" then .pointer
  else if l.text (n - 1) = "&" then .reference
  else .byValue

/-- The parts between the commas of a parameter list that closes at `close`, each from its first
token to the one behind its last; `segment` is where the part around `j` begins. -/
def segments (l : Listing) (close segment j : Nat) : List (Nat × Nat) :=
  if j ≤ close then
    if j = close || l.text j = "," then
      let later := segments l close (j + 1) (j + 1)
      if segment < j then (segment, j) :: later else later
    else if ["(", "[", "\x7b"].contains (l.text j) then segments l close segment (l.passBracket j)
    else if l.text j = "<" then
      match _h : l.templateEnd? close j with
      | some k => segments l close segment k
      | none => segments l close segment (j + 1)
    else segments l close segment (j + 1)
  else []
termination_by close + 1 - j
decreasing_by
  · omega
  · have := l.lt_passBracket j; omega
  · have := Listing.lt_templateEnd? ‹_›; omega
  · omega
  · omega

/-- The parameter that fills the part from `start` to `stop`. Nothing, a default value or array
bounds may follow its name. -/
def parameter? (l : Listing) (start stop : Nat) : Option Declarator :=
  match Declarator.ofTokens? l start stop with
  | none => none
  | some d =>
    let after := d.nameToken + 1
    if after = stop || l.text after = "=" then some { d with isArray := false }
    else if l.text after = "[" then some d
    else none

def parametersOf (l : Listing) (opener close : Nat) : List Declarator :=
  (segments l close (opener + 1) (opener + 1)).filterMap fun (start, stop) =>
    parameter? l start stop

/-- Whether the token before a parameter list can be the name of the function. -/
def namesFunction (l : Listing) (i : Nat) : Bool :=
  l.isName i && !Word.isStatementWord (l.text i) && !Word.isReservedInNames (l.text i)

def nameToken? (l : Listing) (opener : Nat) : Option Nat → Option Nat
  | some operator => some operator
  | none => if namesFunction l (opener - 1) then some (opener - 1) else none

/-- The text by which a function is known: for an operator all of its tokens. -/
def nameText (l : Listing) (name opener : Nat) : String :=
  if l.text name = "operator" then
    String.join ((List.range' name (opener - name)).map l.text)
  else l.text name

def ofTokens? (l : Listing) (start stop : Nat) : Option Heading :=
  match parameterList? l stop start with
  | none => none
  | some (opener, operator) =>
    if stop ≤ opener || opener = start then none
    else match nameToken? l opener operator, l.closing? opener with
      | some name, some close =>
        match bodyOpen? l stop (close + 1) with
        | none => none
        | some bodyOpen =>
          match l.closing? bodyOpen with
          | none => none
          | some bodyClose =>
            let unqualified := qualifiedStart l start name
            let first :=
              if start < unqualified && l.text (unqualified - 1) = "~" then unqualified - 1
              else unqualified
            some
              { name := nameText l name opener
                nameToken := name
                returns := returnCategory l start first
                qualifier :=
                  if first < name && l.text (name - 1) = "::" then some (l.text (name - 2)) else none
                parameters := parametersOf l opener close
                bodyOpen, bodyClose }
      | _, _ => none

theorem lt_bodyOpen {l : Listing} {start stop : Nat} {heading : Heading}
    (h : ofTokens? l start stop = some heading) :
    start < heading.bodyOpen ∧ heading.bodyOpen < heading.bodyClose := by
  simp only [ofTokens?] at h
  split at h
  · simp at h
  · next hp =>
    have := le_parameterList? hp
    split at h
    · simp at h
    · split at h
      · next hc =>
        have := Listing.lt_of_closing? hc
        split at h
        · simp at h
        · next ho =>
          have := le_bodyOpen? ho
          split at h
          · simp at h
          · next hb =>
            have := Listing.lt_of_closing? hb
            obtain rfl := Option.some.inj h
            dsimp only
            omega
      · simp at h

end Heading

end StackEscape
