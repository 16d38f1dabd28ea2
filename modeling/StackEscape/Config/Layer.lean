import StackEscape.Analyzer
import StackEscape.Config.Document
import StackEscape.Text

/-!
# Layered configurations

`Config.load` resolves the configuration of a project. From the lowest layer to the highest: the
user's file, the project's file, environment variables, and what the caller overrides.
-/

namespace StackEscape

/-- What a program sees of the machine it runs on. -/
structure Surroundings where
  /-- The value of an environment variable, if it is set. -/
  environment? : String → Option String
  file : String → FileContent

namespace Config

def inDirectory (directory name : String) : String :=
  if directory.isEmpty then name
  else if directory.toList.getLast? = some '/' then directory ++ name
  else directory ++ "/" ++ name

def home? (s : Surroundings) : Option String := (s.environment? "HOME").or (s.environment? "USERPROFILE")

def userPath? (s : Surroundings) : Option String :=
  (home? s).map fun home => inDirectory (inDirectory home ".dangle") "config.toml"

def projectPath (root : String) : String := inDirectory root "dangle.toml"

/-- The layer that a file gives; a file that does not exist gives an empty one. -/
def fileLayer (s : Surroundings) (path : String) : Except ConfigFault Config :=
  match s.file path with
  | .absent => .ok empty
  | content =>
    match content.read with
    | .ok text => ofFile path text
    | .error _ => .error (.fileNotFound path)

/-- The layer of the user's file. One that cannot be read counts as absent. -/
def userLayer (s : Surroundings) : Except ConfigFault Config :=
  match userPath? s with
  | none => .ok empty
  | some path =>
    match fileLayer s path with
    | .error (.fileNotFound _) => .ok empty
    | layer => layer

/-- The truth value that a variable spells exactly. -/
def flagOf? (s : String) : Option Bool :=
  if s = "true" then some true else if s = "false" then some false else none

/-- The entries of a list with commas, without the blanks around them and the empty ones. -/
def listOf (s : String) : List String :=
  let entries := (Text.pieces ',' s.toList).map Text.trim
  (entries.filter (· ≠ [])).map String.ofList

def environmentLayer (s : Surroundings) : Config where
  inconclusive := (s.environment? "DANGLE_INCONCLUSIVE").bind flagOf?
  suppress := ((s.environment? "DANGLE_SUPPRESS").map listOf).getD []

def load (s : Surroundings) (root : String) (overrides : Option Config) :
    Except ConfigFault Config :=
  match userLayer s with
  | .error fault => .error fault
  | .ok user =>
    match fileLayer s (projectPath root) with
    | .error fault => .error fault
    | .ok project =>
      let c := ((user.under project).under (environmentLayer s)).under (overrides.getD empty)
      match c.validate with
      | .error fault => .error fault
      | .ok () => .ok c

end Config

end StackEscape
