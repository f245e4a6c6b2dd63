import ScopeScript.Main
import ScopeScript.Highlight
import ScopeScript.Proofs.Grammar
import ScopeScript.Proofs.Parser.Success
import ScopeScript.Proofs.Parser.Power
import ScopeScript.Proofs.Parser.Soundness
import ScopeScript.Proofs.Grammar.Leading
import ScopeScript.Proofs.Parser.Completeness
import ScopeScript.Proofs.Parser.Exact
import ScopeScript.Proofs.Grammar.Assembly
import ScopeScript.Proofs.Binary64.Reading
import ScopeScript.Proofs.Lexer.Cuts
import ScopeScript.Proofs.Lexer.Pieces
import ScopeScript.Proofs.Node.WellFormed
import ScopeScript.Proofs.Node.Printing
import ScopeScript.Proofs.Lexer.Regular
import ScopeScript.Proofs.Node.Derived
import ScopeScript.Proofs.Node.RoundTrip
import ScopeScript.Proofs.Environment.Stack
import ScopeScript.Proofs.Eval.Frame
import ScopeScript.Proofs.Eval.Visible
import ScopeScript.Proofs.Lexer.Tiling
import ScopeScript.Proofs.Lexer.Places
import ScopeScript.Proofs.Lexer.Seam
import ScopeScript.Proofs.Node.Relocated
import ScopeScript.Proofs.Parser.Faults
import ScopeScript.Proofs.Value.Genuine
import ScopeScript.Proofs.Value.Mentions
import ScopeScript.Proofs.Environment.Difference
import ScopeScript.Proofs.Eval.Sound
import ScopeScript.Proofs.Eval.Break
import ScopeScript.Proofs.Eval.Unmentioned
import ScopeScript.Proofs.Eval.Reached
import ScopeScript.Proofs.Parser.Locality
import ScopeScript.Proofs.Parser.Lines
import ScopeScript.Proofs.Value.Relocated
import ScopeScript.Proofs.Eval.Relocated
import ScopeScript.Proofs.Eval.Trail
import ScopeScript.Proofs.Program.Lines
import ScopeScript.Proofs.Prompt.Brackets
import ScopeScript.Proofs.Parser.Places
import ScopeScript.Proofs.Program.Located
import ScopeScript.Proofs.Session.Alike
import ScopeScript.Proofs.Session.Commands
import ScopeScript.Proofs.Prompt.Typed
import ScopeScript.Proofs.Session.Contained
import ScopeScript.Proofs.Lexer.Behind
import ScopeScript.Proofs.Lexer.Filling
import ScopeScript.Proofs.Program.Layout
import ScopeScript.Proofs.Grammar.Exchange
import ScopeScript.Proofs.Grammar.Loops
import ScopeScript.Proofs.Program.Loops
import ScopeScript.Proofs.Program.Headers
import ScopeScript.Proofs.Value.Typing
import ScopeScript.Proofs.Lexer.Columns
import ScopeScript.Proofs.Highlight
import ScopeScript.Proofs.Lexer.Literals
import ScopeScript.Proofs.Lexer.LineBreaks
import ScopeScript.Proofs.Program.LineEnds
import ScopeScript.Proofs.Parser.Progress
import ScopeScript.Proofs.Parser.Termination
import ScopeScript.Proofs.Eval.Depth
import ScopeScript.Proofs.Eval.Compound
import ScopeScript.Proofs.Eval.Arguments
import ScopeScript.Proofs.Environment.History
import ScopeScript.Proofs.Value.Division
import ScopeScript.Proofs.Value.Equality
import ScopeScript.Proofs.Parser.Lockstep
import ScopeScript.Proofs.Parser.Lookahead
import ScopeScript.Proofs.Parser.EndToken
import ScopeScript.Proofs.Prompt.Tally
import ScopeScript.Proofs.Prompt.Invisible
