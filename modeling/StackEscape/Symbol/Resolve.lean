import StackEscape.Outline.Tree
import StackEscape.Symbol.Table

/-!
# Name resolution

`SymbolTable.ofListing` goes through the outline of a listing, enters what it declares into a table
and binds the names in function bodies. Names are looked up in frames, the innermost one first; a
later declaration in a frame hides an earlier one of the same name.
-/

namespace StackEscape

/-- The names declared in one region, the latest first. -/
abbrev Frame := List (String × VariableId)

/-- What a name refers to, the innermost frame coming first. -/
def Frame.find? (frames : List Frame) (name : String) : Option VariableId :=
  frames.findSome? (·.lookup name)

/-- A table under construction, and the members of the classes completed so far. Of two classes of
one name the one completed first counts. -/
structure Resolver where
  table : SymbolTable
  members : List (String × Frame)

namespace Resolver

def addScope (r : Resolver) (kind : ScopeKind) (name : String) (start stop : Nat)
    (parent : Option ScopeId) (function : Option FunctionId) : Resolver × ScopeId :=
  let id := r.table.scopes.size
  ({ r with table.scopes := r.table.scopes.push ⟨id, kind, name, start, stop, parent, function⟩ },
    id)

def addVariable (l : Listing) (r : Resolver) (role : Role) (scope : ScopeId) (d : Declarator) :
    Resolver × VariableId :=
  let id := r.table.vars.size
  let v : Variable :=
    { id
      name := l.text d.nameToken
      nameToken := d.nameToken
      typeStart := d.typeStart
      scope
      typeName := d.typeName
      role
      isStatic := d.isStatic
      isReference := d.isReference
      isPointer := d.isPointer
      isArray := d.isArray
      typeScope := none }
  ({ r with
      table.vars := r.table.vars.push v
      table.bindings := r.table.bindings.bind d.nameToken id }, id)

/-- Enters variables one after the other and declares their names in a frame. -/
def declare (l : Listing) (role : Role) (scope : ScopeId) (r : Resolver) (frame : Frame) :
    List Declarator → Resolver × Frame
  | [] => (r, frame)
  | d :: ds =>
    let (r, id) := r.addVariable l role scope d
    declare l role scope r ((l.text d.nameToken, id) :: frame) ds

/-- Keeps the members of a class, unless it has no name or the name is taken. -/
def addMembers (r : Resolver) (name : String) (members : Frame) : Resolver :=
  if name.isEmpty || (r.members.lookup name).isSome then r
  else { r with members := (name, members) :: r.members }

/-- Binds the name at `token`, unless it is bound already or refers to nothing. -/
def mention (l : Listing) (frames : List Frame) (r : Resolver) (token : Nat) : Resolver :=
  match r.table.bindings.get? token with
  | some _ => r
  | none =>
    match Frame.find? frames (l.text token) with
    | some id => { r with table.bindings := r.table.bindings.bind token id }
    | none => r

/-- Follows the steps of a function body. `blocks` are the frames of the open blocks, the innermost
first; `base` is that of the body itself, which the arguments share, and `outer` those around it. -/
def followBody (l : Listing) (scope : ScopeId) (outer : List Frame) (r : Resolver)
    (blocks : List Frame) (base : Frame) : List Body.Step → Resolver
  | [] => r
  | .enterBlock :: steps => followBody l scope outer r ([] :: blocks) base steps
  | .leaveBlock :: steps => followBody l scope outer r blocks.tail base steps
  | .mention token :: steps =>
    followBody l scope outer (r.mention l (blocks ++ base :: outer) token) blocks base steps
  | .declare d :: steps =>
    match blocks with
    | [] =>
      let (r, base) := r.declare l .local scope base d.declarators
      followBody l scope outer r [] base steps
    | block :: blocks =>
      let (r, block) := r.declare l .local scope block d.declarators
      followBody l scope outer r (block :: blocks) base steps

/-- Enters a function, its arguments and its locals. The members of its class, if it is defined
outside of it, are in sight. -/
def addFunction (l : Listing) (r : Resolver) (parent : ScopeId) (frames : List Frame)
    (heading : Heading) (body : List Body.Step) : Resolver :=
  let id := r.table.functions.size
  let (r, scope) :=
    r.addScope .function heading.name heading.bodyOpen heading.bodyClose (some parent) (some id)
  let firstArgument := r.table.vars.size
  let (r, base) := r.declare l .argument scope [] heading.parameters
  let arguments := List.range' firstArgument heading.parameters.length
  let f : Function := ⟨id, heading.name, heading.nameToken, heading.returns, scope, arguments⟩
  let r := { r with table.functions := r.table.functions.push f }
  let outer := (heading.qualifier.bind fun q => r.members.lookup q).toList ++ frames
  r.followBody l scope outer [] base body

/-- Enters what an outline declares. `scope` is the named region around it, `frame` the names
declared in that region so far and `outer` the frames around it. -/
def enter (l : Listing) (scope : ScopeId) (outer : List Frame) (r : Resolver) (frame : Frame) :
    Outline → Resolver × Frame
  | .done => (r, frame)
  | .block kind name opener closer inside after =>
    match kind with
    | .namespaceBlock =>
      let (r, id) := r.addScope .namespaceBlock name opener closer (some scope) none
      let (r, _) := enter l id (frame :: outer) r [] inside
      enter l scope outer r frame after
    | .classBody =>
      let (r, id) := r.addScope .classBody name opener closer (some scope) none
      let (r, members) := enter l id (frame :: outer) r [] inside
      enter l scope outer (r.addMembers name members) frame after
  | .linkage inside after =>
    let (r, frame) := enter l scope outer r frame inside
    enter l scope outer r frame after
  | .function heading body after =>
    enter l scope outer (r.addFunction l scope (frame :: outer) heading body) frame after
  | .declaration d after =>
    let (r, frame) := r.declare l .member scope frame d.declarators
    enter l scope outer r frame after

end Resolver

namespace SymbolTable

/-- Records for every class object the class body that declares its type. -/
def resolveTypes (t : SymbolTable) : SymbolTable :=
  { t with vars := t.vars.map fun v =>
      if v.isClassObject then { v with typeScope := t.classScope? v.typeName } else v }

def ofListing (l : Listing) : SymbolTable :=
  let (r, global) := Resolver.addScope ⟨empty l.size, []⟩ .global "" 0 l.size none none
  let (r, _) := r.enter l global [] [] l.outline
  r.table.resolveTypes

end SymbolTable

end StackEscape
