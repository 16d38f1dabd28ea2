/-!
# TOML documents

The tables of a TOML document while it is read. Where a table came from decides what may still be
added to it, so that nothing is defined twice.
-/

namespace StackEscape.Toml

/-- How a table came to be. -/
inductive Origin where
  /-- By a header of its own. -/
  | header
  /-- As a part of the path in the header of another table. -/
  | implied
  /-- As a part of a dotted key. -/
  | dotted
  /-- Written between braces, which completes it. -/
  | inline
deriving DecidableEq, Repr

/-- A TOML value. Floats and times are kept as they are written. -/
inductive Value where
  | string (text : String)
  | integer (number : Int)
  | float (literal : String)
  | boolean (value : Bool)
  | time (literal : String)
  | array (elements : List Value)
  | table (origin : Origin) (entries : List (String × Value))
  /-- An array of tables made by headers, the one made last apart. -/
  | tables (earlier : List (List (String × Value))) (last : List (String × Value))

abbrev Entries := List (String × Value)

namespace Entries

/-- Replaces the value of a key, or adds it behind the others. -/
def set (key : String) (v : Value) : Entries → Entries
  | [] => [(key, v)]
  | (k, old) :: rest => if k = key then (k, v) :: rest else (k, old) :: set key v rest

end Entries

/-- A change of a table: of where it came from and of its entries. It is refused if it would define
something twice. -/
abbrev Change := Origin → Entries → Option (Origin × Entries)

/-- Applies a change to the table at the end of a path, which makes the tables on its way that are
missing. A path that passes an array of tables goes on in the last one. A dotted path may not enter
a table that has a header, and no path enters a completed one. -/
def descend (dotted : Bool) (change : Change) : List String → Change
  | [], origin, entries => change origin entries
  | key :: path, origin, entries =>
    match entries.lookup key with
    | none =>
      (descend dotted change path (if dotted then .dotted else .implied) []).map fun (o, es) =>
        (origin, entries.set key (.table o es))
    | some (.table inner es) =>
      if inner = .inline ∨ (dotted ∧ inner = .header) then none
      else (descend dotted change path inner es).map fun (o, es) =>
        (origin, entries.set key (.table o es))
    | some (.tables earlier last) =>
      (descend dotted change path .header last).map fun (_, es) =>
        (origin, entries.set key (.tables earlier es))
    | some _ => none

/-- Adds a value under a key that a dotted path may stand before. The path has to end in a table
that dotted keys made, and the key must be free. -/
def addValue (path : List String) (key : String) (v : Value) : Change :=
  descend true (fun origin entries =>
    if (origin = .dotted ↔ path = []) ∨ (entries.lookup key).isSome then none
    else some (origin, entries.set key v)) path

/-- Opens the table that a header names. It may exist already only as a part of other headers. -/
def openTable (path : List String) (key : String) : Change :=
  descend false (fun origin entries =>
    match entries.lookup key with
    | none => some (origin, entries.set key (.table .header []))
    | some (.table .implied es) => some (origin, entries.set key (.table .header es))
    | some _ => none) path

/-- Adds a table to the array that a header names. -/
def addTable (path : List String) (key : String) : Change :=
  descend false (fun origin entries =>
    match entries.lookup key with
    | none => some (origin, entries.set key (.tables [] []))
    | some (.tables earlier last) =>
      some (origin, entries.set key (.tables (earlier ++ [last]) []))
    | some _ => none) path

/-- The document read so far, and the path to the table that the last header opened. -/
structure Document where
  root : Entries
  current : List String

namespace Document

def empty : Document := ⟨[], []⟩

def change (d : Document) (path : List String) (c : Change) : Option Entries :=
  (descend false c path .header d.root).map Prod.snd

def addValue (d : Document) (path : List String) (key : String) (v : Value) : Option Document :=
  (d.change d.current (Toml.addValue path key v)).map fun root => { d with root }

def openTable (d : Document) (path : List String) (key : String) : Option Document :=
  (d.change [] (Toml.openTable path key)).map fun root => ⟨root, path ++ [key]⟩

def addTable (d : Document) (path : List String) (key : String) : Option Document :=
  (d.change [] (Toml.addTable path key)).map fun root => ⟨root, path ++ [key]⟩

end Document

end StackEscape.Toml
