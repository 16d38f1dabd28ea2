import StackEscape.Config.Basic
import StackEscape.Toml.Parser
import StackEscape.Toml.Printer

/-!
# Configurations as TOML

A configuration file is a TOML document with a table `analysis`. Keys that are not known are
ignored, so that files may serve later versions too.
-/

namespace StackEscape.Config

open Toml (Value Entries)

/-! ## Reading -/

def flag? : Value → Option Bool
  | .boolean b => some b
  | _ => none

def text? : Value → Option String
  | .string s => some s
  | _ => none

def texts? : Value → Option (List String)
  | .array elements => elements.mapM text?
  | _ => none

def readOr {α : Type} (absent : α) (read : Value → Option α) : Option Value → Option α
  | none => some absent
  | some v => read v

/-- The configuration whose two parts are given as values, where they are. -/
def ofParts? (inconclusive suppress : Option Value) : Option Config := do
  return {
    inconclusive := ← readOr none (fun v => (flag? v).map some) inconclusive
    suppress := ← readOr [] texts? suppress }

/-- The configuration that the value of `analysis` gives: a table, or an array of its fields in
order. A date or time counts as a table without these fields. -/
def ofAnalysis? : Value → Option Config
  | .table _ entries => ofParts? (entries.lookup "inconclusive") (entries.lookup "suppress")
  | .array elements => ofParts? elements[0]? elements[1]?
  | .time _ => some empty
  | _ => none

def ofEntries? (entries : Entries) : Option Config :=
  readOr empty ofAnalysis? (entries.lookup "analysis")

def malformedMessage : String := "not a TOML document with a valid table 'analysis'"

def ofFile (path text : String) : Except ConfigFault Config :=
  match (Toml.ofText? text).bind ofEntries? with
  | some c => .ok c
  | none => .error (.malformed path malformedMessage)

def ofToml (text : String) : Except ConfigFault Config :=
  match ofFile "<string>" text with
  | .error fault => .error fault
  | .ok c =>
    match c.validate with
    | .error fault => .error fault
    | .ok () => .ok c

/-! ## Writing -/

/-- The list of suppressed rules: on one line if there is at most one, else one rule a line. -/
def suppressText : List String → String
  | [] => "[]"
  | [s] => "[" ++ Toml.quote s ++ "]"
  | ss => "[\n" ++ String.join (ss.map fun s => "    " ++ Toml.quote s ++ ",\n") ++ "]"

/-- The line about uncertain findings, if the configuration says anything about them. -/
def inconclusiveLine : Option Bool → String
  | none => ""
  | some true => "inconclusive = true\n"
  | some false => "inconclusive = false\n"

def toToml (c : Config) : String :=
  "[analysis]\n" ++ inconclusiveLine c.inconclusive ++ "suppress = " ++ suppressText c.suppress
    ++ "\n"

end StackEscape.Config
