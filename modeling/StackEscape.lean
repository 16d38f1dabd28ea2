import StackEscape.Config.Layer
import StackEscape.Diagnostic.Record
import StackEscape.Proofs.Analyzer.Blame
import StackEscape.Proofs.Analyzer.Deallocations
import StackEscape.Proofs.Analyzer.Inconclusive
import StackEscape.Proofs.Analyzer.Order
import StackEscape.Proofs.Analyzer.Parameters
import StackEscape.Proofs.Analyzer.References
import StackEscape.Proofs.Analyzer.Renaming
import StackEscape.Proofs.Analyzer.Storage
import StackEscape.Proofs.Analyzer.Suppression
import StackEscape.Proofs.Config.Document
import StackEscape.Proofs.Diagnostic.Record
import StackEscape.Proofs.Listing.Concatenation
import StackEscape.Proofs.Listing.Directives
import StackEscape.Proofs.Listing.Numbers
import StackEscape.Proofs.Pattern.Verbatim
import StackEscape.Proofs.Program.Coverage
import StackEscape.Proofs.Program.Loops
import StackEscape.Proofs.Program.Returns
import StackEscape.Proofs.Program.Scoping
import StackEscape.Proofs.Program.Symbols
import StackEscape.Proofs.Outline.Fences
import StackEscape.Proofs.Outline.Progress
import StackEscape.Proofs.Program.Progress
