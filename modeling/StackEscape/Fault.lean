import StackEscape.Listing.Lexeme

/-!
# Faults

Everything that can go wrong, by cause. `message` words a fault and `code` sorts it into the three
families that callers tell apart.
-/

namespace StackEscape

inductive FaultCode where
  | parse
  | io
  | config
deriving DecidableEq, Repr

def FaultCode.text : FaultCode → String
  | .parse => "PARSE_ERROR"
  | .io => "IO_ERROR"
  | .config => "CONFIG_ERROR"

/-- A message that leads with the family of its fault. -/
def FaultCode.tag (code : FaultCode) (message : String) : String :=
  "[" ++ code.text ++ "] " ++ message

/-- Why a source cannot be turned into a listing. -/
inductive SourceFault where
  | unterminatedLiteral (file : String) (line : Nat) (quote : Quote)
  | unterminatedComment (file : String) (line : Nat)
  | unclosedBracket (file : String) (line : Nat) (bracket : String)
  | unexpectedCloser (file : String) (line : Nat) (bracket : String)
  | unreadable (path : String) (reason : String)
deriving DecidableEq, Repr

namespace SourceFault

def atLine (file : String) (line : Nat) (what : String) : String :=
  file ++ ":" ++ toString line ++ ": " ++ what

def message : SourceFault → String
  | .unterminatedLiteral file line quote =>
    atLine file line ("unterminated " ++ quote.word ++ " literal")
  | .unterminatedComment file line => atLine file line "unterminated block comment"
  | .unclosedBracket file line bracket => atLine file line ("'" ++ bracket ++ "' is never closed")
  | .unexpectedCloser file line bracket => atLine file line ("unexpected '" ++ bracket ++ "'")
  | .unreadable path reason => "Failed to read " ++ path ++ ": " ++ reason

def code : SourceFault → FaultCode
  | .unreadable .. => .io
  | _ => .parse

end SourceFault

inductive ConfigFault where
  | fileNotFound (path : String)
  | malformed (path : String) (reason : String)
  | validationFailed (field : String) (reason : String)
  | invalidValue (field : String) (reason : String)
deriving DecidableEq, Repr

def ConfigFault.message : ConfigFault → String
  | .fileNotFound path => "Config file not found: " ++ path
  | .malformed path reason => "Config parse error in " ++ path ++ ": " ++ reason
  | .validationFailed field reason => "Config validation failed for " ++ field ++ ": " ++ reason
  | .invalidValue field reason => "Invalid config value for " ++ field ++ ": " ++ reason

def ConfigFault.code (_ : ConfigFault) : FaultCode := .config

inductive AnalysisFault where
  | source (fault : SourceFault)
  | config (fault : ConfigFault)
deriving DecidableEq, Repr

namespace AnalysisFault

def message : AnalysisFault → String
  | .source fault => "Parse error: " ++ fault.message
  | .config fault => "Configuration error: " ++ fault.message

def code : AnalysisFault → FaultCode
  | .source fault => fault.code
  | .config fault => fault.code

end AnalysisFault

end StackEscape
