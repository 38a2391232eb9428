import ComplexScript.CommandLine
import ComplexScript.Main
import ComplexScript.Proofs.Program.Tree
import ComplexScript.Proofs.Scope.Checking
import ComplexScript.Proofs.Machine.Frames
import ComplexScript.Proofs.Machine.Lockstep
import ComplexScript.Proofs.Session.Steps
import ComplexScript.Proofs.Machine.Sinks
import ComplexScript.Proofs.Machine.Callers
import ComplexScript.Proofs.Session.Undoing
import ComplexScript.Proofs.Text.Stream
import ComplexScript.Proofs.Token.Scanning
import ComplexScript.Proofs.Entry.Moves
import ComplexScript.Proofs.Entry.Rules
import ComplexScript.Proofs.Entry.Trees
import ComplexScript.Proofs.Session.Consistency
import ComplexScript.Proofs.Entry.Height
import ComplexScript.Proofs.Entry.NestedCalls
import ComplexScript.Proofs.Entry.Budget
import ComplexScript.Proofs.Text.Delivery
import ComplexScript.Proofs.Entry.Alike
import ComplexScript.Proofs.Entry.Independence
import ComplexScript.Proofs.Entry.Statements
import ComplexScript.Proofs.Session.Arity
import ComplexScript.Proofs.Session.RefusedWrites
import ComplexScript.Proofs.Session.Bound
import ComplexScript.Proofs.Machine.Parts
import ComplexScript.Proofs.Text.Taking
import ComplexScript.Proofs.Text.Lines
import ComplexScript.Proofs.Token.Placing
import ComplexScript.Proofs.Token.Spelling
import ComplexScript.Proofs.Program.Listing
import ComplexScript.Proofs.Entry.Paths
import ComplexScript.Proofs.Entry.Listing
import ComplexScript.Proofs.Entry.Pointing
import ComplexScript.Proofs.Token.Locality
import ComplexScript.Proofs.Entry.Words
import ComplexScript.Proofs.Entry.Marks
import ComplexScript.Proofs.Entry.Attempts
import ComplexScript.Proofs.Entry.Expression
import ComplexScript.Proofs.Entry.Precedence
import ComplexScript.Proofs.Entry.Programs
import ComplexScript.Proofs.Entry.Blocks
import ComplexScript.Proofs.Entry.RoundTrip
import ComplexScript.Proofs.Session.Limits
import ComplexScript.Proofs.Number.Bounded
import ComplexScript.Proofs.Program.Literals
import ComplexScript.Proofs.Text.Interruption
import ComplexScript.Proofs.Token.Counting
import ComplexScript.Proofs.Entry.Ending
import ComplexScript.Proofs.Machine.Numbers
import ComplexScript.Proofs.Session.Signals
import ComplexScript.Proofs.Scope.Places
import ComplexScript.Proofs.Session.Responses
import ComplexScript.Proofs.Double.Growth
import ComplexScript.Proofs.Token.Numerals
import ComplexScript.Proofs.Token.DigitTokens
import ComplexScript.Proofs.Entry.Contents
import ComplexScript.Proofs.Entry.Fetching
import ComplexScript.Proofs.Session.Numbers
import ComplexScript.Proofs.Session.ReadFailure
import ComplexScript.Proofs.Scope.Monotony
import ComplexScript.Proofs.Text.Stored
import ComplexScript.Proofs.Token.Edges
import ComplexScript.Proofs.Token.Covering
import ComplexScript.Proofs.Token.Trimming
import ComplexScript.Proofs.Number.Whole
import ComplexScript.Proofs.Token.Literals
import ComplexScript.Proofs.Text.Tape
import ComplexScript.Proofs.Entry.Texts
import ComplexScript.Proofs.Double.Bits
import ComplexScript.Proofs.Double.Ratios
import ComplexScript.Proofs.Double.Shortest
import ComplexScript.Proofs.Double.Reading
import ComplexScript.Proofs.Double.Texts
import ComplexScript.Proofs.Number.Rendering
