import StackEscape.Check

/-!
# Analysis

An analyzer runs the checks of a registry over sources and collects what they find, without the
findings of suppressed rules, in the order of discovery.
-/

namespace StackEscape

/-- What a path leads to. -/
inductive FileContent where
  | absent
  | directory
  | bytes (data : ByteArray)

namespace FileContent

def ofString (s : String) : FileContent := .bytes s.toUTF8

/-- The text that a file holds, or why it cannot be read. -/
def read : FileContent → Except String String
  | .absent => .error "No such file or directory"
  | .directory => .error "Is a directory"
  | .bytes data =>
    match String.fromUTF8? data with
    | some s => .ok s
    | none => .error "stream did not contain valid UTF-8"

end FileContent

/-- A registry of checks with the settings to run them under. -/
structure Analyzer where
  settings : Settings
  registry : Registry

namespace Analyzer

def standard (settings : Settings) : Analyzer := ⟨settings, .standard⟩

def analyzeProgram (a : Analyzer) (p : Program) : List Diagnostic :=
  (a.registry.run p a.settings (.suppressing a.settings.suppressed .empty)).entries

def analyzeSource (a : Analyzer) (file source : String) :
    Except AnalysisFault (List Diagnostic) :=
  match Program.ofSource file source with
  | .ok p => .ok (a.analyzeProgram p)
  | .error fault => .error (.source fault)

def analyzeFile (a : Analyzer) (path : String) (content : FileContent) :
    Except AnalysisFault (List Diagnostic) :=
  match content.read with
  | .ok source => a.analyzeSource path source
  | .error reason => .error (.source (.unreadable path reason))

end Analyzer

end StackEscape
