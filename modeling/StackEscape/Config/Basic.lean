import StackEscape.Fault
import StackEscape.Rule

/-!
# Configurations

A configuration says whether uncertain findings are wanted and which rules are suppressed, both as
the user wrote them. Either may be left open, so that configurations can be layered.
-/

namespace StackEscape

/-- What a user may configure. An empty list of suppressed rules says nothing. -/
structure Config where
  inconclusive : Option Bool
  /-- Ids of rules, as written. -/
  suppress : List String
deriving DecidableEq, Repr

namespace Config

def empty : Config := ⟨none, []⟩

/-- Whether uncertain findings are wanted; by default they are not. -/
def wantsInconclusive (c : Config) : Bool := c.inconclusive.getD false

/-- A lower layer under an upper one, which wins where it says something. -/
def under (lower upper : Config) : Config where
  inconclusive := upper.inconclusive.or lower.inconclusive
  suppress := if upper.suppress.isEmpty then lower.suppress else upper.suppress

def suppressField : String := "analysis.suppress"

/-- Refuses a configuration that names a rule that does not exist. -/
def validate (c : Config) : Except ConfigFault Unit :=
  match Rule.ofIds c.suppress with
  | .ok _ => .ok ()
  | .error s => .error (.validationFailed suppressField (Rule.unknownMessage s))

def settings (c : Config) : Except ConfigFault Settings :=
  match Rule.ofIds c.suppress with
  | .ok rules => .ok (.suppressing c.wantsInconclusive rules)
  | .error s => .error (.invalidValue suppressField (Rule.unknownMessage s))

end Config

end StackEscape
