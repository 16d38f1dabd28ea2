import StackEscape.Fault
import StackEscape.Listing.Bracket

/-!
# From source to listing

`Lexeme.scan` cuts a whole text into tokens with their positions; `Listing.ofSource` then pairs
the brackets.
-/

namespace StackEscape

/-- Cuts the text `cs` that stands at position `p`. `lineStart` says that nothing but gaps stands
before it on its line. A fault comes with the line where the lexeme without an end begins. -/
def Lexeme.scan (p : Position) (lineStart : Bool) :
    List Char → Except (LexemeFault × Nat) (List Token)
  | [] => .ok []
  | c :: cs =>
    match measure lineStart c cs with
    | .error fault => .error (fault, p.line)
    | .ok lexeme =>
      let taken := c :: cs.take lexeme.extra
      let after := p.advance taken
      let brokeLine := taken.contains '\n'
      match lexeme.kind with
      | none => scan after (lineStart || brokeLine) (cs.drop lexeme.extra)
      | some kind =>
        (scan after brokeLine (cs.drop lexeme.extra)).map (⟨spelling taken, kind, p⟩ :: ·)
termination_by cs => cs.length

namespace SourceFault

def ofLexeme (file : String) : LexemeFault × Nat → SourceFault
  | (.literal quote, line) => .unterminatedLiteral file line quote
  | (.comment, line) => .unterminatedComment file line

def ofBracket (file : String) : Bracket.Fault → SourceFault
  | .unclosed t => .unclosedBracket file t.position.line t.text
  | .unexpected t => .unexpectedCloser file t.position.line t.text

end SourceFault

namespace Listing

/-- The listing of tokens whose brackets pair. -/
def ofTokens (file : String) (tokens : Array Token) : Except SourceFault Listing :=
  match Bracket.link tokens with
  | .ok links => .ok ⟨file, tokens, links⟩
  | .error fault => .error (.ofBracket file fault)

def ofSource (file source : String) : Except SourceFault Listing :=
  match Lexeme.scan .start true source.toList with
  | .ok tokens => ofTokens file tokens.toArray
  | .error fault => .error (.ofLexeme file fault)

end Listing

end StackEscape
