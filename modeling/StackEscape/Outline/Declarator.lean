import StackEscape.Outline.Extent

/-!
# Declarators

A declaration is recognized by its shape: type tokens, then `*` and `&` modifiers, then a name,
then a token that may follow a declared name. Further declarators may come after a comma. Lists of
words tell declarations from statements.
-/

namespace StackEscape

namespace Word

/-- Builtin types. A variable of one of them is never a class object. -/
def builtinTypes : List String :=
  ["bool", "char", "char16_t", "char32_t", "wchar_t", "short", "int", "long", "float", "double",
   "void", "size_t", "signed", "unsigned"]

/-- Specifiers that stand before or after the name of a type. -/
def specifiers : List String :=
  ["static", "extern", "const", "volatile", "register", "mutable", "constexpr", "inline",
   "thread_local", "struct", "class", "union", "enum", "typename", "virtual", "explicit", "friend"]

/-- Words that are never part of a declaration's type or name. -/
def statementWords : List String :=
  ["return", "delete", "new", "throw", "goto", "case", "default", "else", "do", "if", "while",
   "for", "switch", "break", "continue", "sizeof", "typedef", "using", "namespace", "template",
   "operator", "this", "true", "false", "nullptr", "public", "private", "protected", "try", "catch",
   "static_assert", "asm"]

def isBuiltinType (w : String) : Bool := builtinTypes.contains w

def isSpecifier (w : String) : Bool := specifiers.contains w

def isStatementWord (w : String) : Bool := statementWords.contains w

/-- Words that can name neither a variable nor a function that is declared like one. -/
def isReservedInNames (w : String) : Bool := isSpecifier w || isBuiltinType w

end Word

/-- One declared name and what its declaration says about it. Indices are those of tokens. -/
structure Declarator where
  /-- First token of the type, specifiers included. -/
  typeStart : Nat
  nameToken : Nat
  /-- Last name among the type tokens, such as `string` in `std::string`. -/
  typeName : String
  isStatic : Bool
  isPointer : Bool
  isReference : Bool
  isArray : Bool
deriving DecidableEq, Repr

/-- The declarators of one declaration; there is at least one. -/
structure Declaration where
  first : Declarator
  others : List Declarator
deriving DecidableEq, Repr

def Declaration.declarators (d : Declaration) : List Declarator := d.first :: d.others

namespace Declarator

/-- Where the type tokens, modifiers and names that start at `k` end; absent if a word among them
cannot be part of a declaration. -/
def end? (l : Listing) (stop k : Nat) : Option Nat :=
  if k < stop then
    if l.isName k then
      if Word.isStatementWord (l.text k) then none else end? l stop (k + 1)
    else if ["::", "*", "&", "&&"].contains (l.text k) then end? l stop (k + 1)
    else if l.text k = "<" then
      match _h : l.templateEnd? stop k with
      | some j => end? l stop j
      | none => none
    else some k
  else some k
termination_by stop - k
decreasing_by
  · omega
  · omega
  · have := Listing.lt_templateEnd? ‹_›; omega

theorem le_end? {l : Listing} {stop k j : Nat} (h : end? l stop k = some j) : k ≤ j := by
  fun_induction end? l stop k with
  | case1 => simp at h
  | case2 _ _ _ _ ih => have := ih h; omega
  | case3 _ _ _ _ ih => have := ih h; omega
  | case4 _ _ _ _ _ _ ht ih => have := Listing.lt_templateEnd? ht; have := ih h; omega
  | case5 => simp at h
  | case6 => simp at h; omega
  | case7 => simp at h; omega

/-- The tokens from `i` to the declared name, without those in template argument lists. -/
def typeTokens? (l : Listing) (name i : Nat) : Option (List Nat) :=
  if i < name then
    if l.text i = "<" then
      match _h : l.templateEnd? name i with
      | some j => typeTokens? l name j
      | none => none
    else (typeTokens? l name (i + 1)).map (i :: ·)
  else some []
termination_by name - i
decreasing_by
  · have := Listing.lt_templateEnd? ‹_›; omega
  · omega

/-- Whether a type token names a type, and is not a specifier. -/
def namesType (l : Listing) (i : Nat) : Bool := l.isName i && !Word.isSpecifier (l.text i)

def isStaticWord (w : String) : Bool := w = "static" || w = "extern"

def isReferenceMark (w : String) : Bool := w = "&" || w = "&&"

/-- The declarator that starts at `start`: type tokens, modifiers and a name. The token behind the
name is for the caller to judge; it tells whether an array is declared. -/
def ofTokens? (l : Listing) (start stop : Nat) : Option Declarator :=
  if !l.isName start || Word.isStatementWord (l.text start) then none
  else match end? l stop start with
    | none => none
    | some k =>
      let name := k - 1
      if k ≤ start + 1 || stop < k || !l.isName name || Word.isReservedInNames (l.text name)
          || l.textBefore name = "::" then none
      else match typeTokens? l name start with
        | none => none
        | some types =>
          let words := types.map l.text
          match (types.filter (namesType l)).getLast? with
          | none => none
          | some t =>
            some
              { typeStart := start
                nameToken := name
                typeName := l.text t
                isStatic := words.any isStaticWord
                isPointer := words.contains "*"
                isReference := words.any isReferenceMark
                isArray := l.text (name + 1) = "[" }

theorem start_lt_nameToken {l : Listing} {start stop : Nat} {d : Declarator}
    (h : ofTokens? l start stop = some d) : start < d.nameToken := by
  simp only [ofTokens?] at h
  split at h
  · simp at h
  · split at h
    · simp at h
    · split at h
      · simp at h
      · next hk =>
        split at h
        · simp at h
        · split at h
          · simp at h
          · obtain rfl := Option.some.inj h
            simp only [Bool.or_eq_true, decide_eq_true_eq, not_or] at hk
            dsimp only
            omega

/-- Words that may stand between a comma and the name declared after it. -/
def modifiers : List String := ["*", "&", "&&", "const", "volatile"]

/-- Tokens that may stand behind a further declarator. -/
def siblingTerminators : List String := [";", "=", "[", ",", "(", "\x7b"]

/-- The declarators after commas, the initializer around `j` having been reached. They share the
type of the first one, but each has modifiers of its own. -/
def siblings (l : Listing) (stop : Nat) (first : Declarator) (j : Nat) : List Declarator :=
  let comma := l.initializerEnd stop j
  if h : comma < stop ∧ l.text comma = "," then
    let name := l.passWords modifiers stop (comma + 1)
    if !l.isName name || Word.isStatementWord (l.text name)
        || !siblingTerminators.contains (l.text (name + 1)) then []
    else
      let marks := (List.range' (comma + 1) (name - (comma + 1))).map l.text
      { first with
          nameToken := name
          isPointer := marks.contains "*"
          isReference := marks.any isReferenceMark
          isArray := l.text (name + 1) = "[" } :: siblings l stop first (name + 1)
  else []
termination_by stop - j
decreasing_by
  have hj := Listing.le_initializerEnd h.1
  have hn := l.le_passWords modifiers stop (l.initializerEnd stop j + 1)
  have hc := h.1
  change stop - (l.passWords modifiers stop (l.initializerEnd stop j + 1) + 1) < stop - j
  change l.initializerEnd stop j < stop at hc
  omega

end Declarator

/-- Tokens that may stand behind the first name of a declaration outside function bodies. -/
def Declaration.memberTerminators : List String := [";", "=", "[", ",", "\x7b", ":"]

/-- Inside function bodies a name may also be followed by constructor arguments. -/
def Declaration.localTerminators : List String := [";", "=", "[", ",", "(", "\x7b", ":"]

/-- The declaration that starts at `start`, its first name being followed by one of
`terminators`. -/
def Declaration.ofTokens? (l : Listing) (terminators : List String) (start stop : Nat) :
    Option Declaration :=
  match Declarator.ofTokens? l start stop with
  | none => none
  | some d =>
    if terminators.contains (l.text (d.nameToken + 1)) then
      some ⟨d, Declarator.siblings l stop d (d.nameToken + 1)⟩
    else none

end StackEscape
