import Precedence.Text.Bytes
import Precedence.Text.Lines
import Precedence.Text.Space
import Precedence.Text.Quoted
import Precedence.Text.Numeral
import Precedence.Source
import Precedence.Token.Kind
import Precedence.Token.Basic
import Precedence.Token.Scanner
import Precedence.Tree.Basic
import Precedence.Tree.Printer
import Precedence.Tree.Alike
import Precedence.Fault.Basic
import Precedence.Fault.Report
import Precedence.Grammar
import Precedence.Descent.Cursor
import Precedence.Descent.Parse
import Precedence.Descent.Expression
import Precedence.Descent.Statement
import Precedence.Descent.Levels
import Precedence.Parser
import Precedence.Parsed
import Precedence.Console.Basic
import Precedence.Console.Elapsed
import Precedence.Main
import Precedence.Proofs.Descent.Frame
import Precedence.Proofs.Descent.Place
import Precedence.Proofs.Syntax.Derivation
import Precedence.Proofs.Syntax.Sound
import Precedence.Proofs.Descent.Verdict
import Precedence.Proofs.Syntax.Complete
import Precedence.Proofs.Syntax.Acceptance
import Precedence.Proofs.Syntax.Kept
import Precedence.Proofs.Token.Spelling
import Precedence.Proofs.Tree.Pieces
import Precedence.Proofs.Tree.Formed
import Precedence.Proofs.Tree.Joined
import Precedence.Proofs.Syntax.Readback
import Precedence.Proofs.Tree.Separate
import Precedence.Proofs.RoundTrip
import Precedence.Proofs.Tree.Fused
import Precedence.Proofs.Tree.Joining
import Precedence.Proofs.Syntax.Formed
import Precedence.Proofs.FixedPoint
import Precedence.Proofs.Descent.Budget
import Precedence.Proofs.Termination
import Precedence.Proofs.Descent.Blame
import Precedence.Proofs.FaultPlaces
import Precedence.Proofs.Descent.Pairing
import Precedence.Proofs.Descent.Lockstep
import Precedence.Proofs.Lookahead
import Precedence.Proofs.Syntax.Braces
import Precedence.Proofs.Synchronisation
import Precedence.Proofs.Descent.Order
import Precedence.Proofs.Syntax.Nodes
import Precedence.Proofs.Tree.Nodes
import Precedence.Proofs.Operations
import Precedence.Proofs.Token.Longest
import Precedence.Proofs.Token.Blanks
import Precedence.Proofs.Separation
import Precedence.Proofs.Syntax.Height
import Precedence.Proofs.Tree.Height
import Precedence.Proofs.Descent.Closing
import Precedence.Proofs.BlockEnd
import Precedence.Proofs.Descent.Edge
import Precedence.Proofs.Token.Slice
import Precedence.Proofs.Standalone
import Precedence.Proofs.Syntax.Parentheses
import Precedence.Proofs.Grouping
import Precedence.Proofs.Syntax.Openings
import Precedence.Proofs.Descent.Heed
import Precedence.Proofs.IllegalTokens
import Precedence.Proofs.Descent.Counter
import Precedence.Proofs.Restoration
import Precedence.Proofs.Containment
import Precedence.Proofs.Text.Lines
import Precedence.Proofs.LineLookup
import Precedence.Proofs.Text.Excerpt
import Precedence.Proofs.Text.Elapsed
import Precedence.Proofs.Caret
import Precedence.Proofs.Climbing
