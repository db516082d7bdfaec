import Lox.Text
import Lox.Number
import Lox.Token.Basic
import Lox.Token.Lexer
import Lox.Token.Cursor
import Lox.Tree
import Lox.Fault
import Lox.Grammar.Parser
import Lox.Scope
import Lox.Evaluation
import Lox.Diagnostic
import Lox.Reporter
import Lox.Log
import Lox.Session
import Lox.Shell
import Lox.CommandLine
import Lox.Program
import Lox.Main
import Lox.Proofs.Grammar.Derivation
import Lox.Proofs.Grammar.Soundness
import Lox.Proofs.Grammar.Completeness
import Lox.Proofs.Grammar.Depth
import Lox.Proofs.Grammar.Exactness
import Lox.Proofs.Grammar.Vocabulary
import Lox.Proofs.Grammar.Locality
import Lox.Proofs.Grammar.Lookahead
import Lox.Proofs.Grammar.Recovery
import Lox.Proofs.Grammar.Viability
import Lox.Proofs.Grammar.Beginnings
import Lox.Proofs.Grammar.EarliestError
import Lox.Proofs.Number.Overflow
import Lox.Proofs.Number.Rounding
import Lox.Proofs.Number.Shortest
import Lox.Proofs.Number.Nearest
import Lox.Proofs.Lexer.Literals
import Lox.Proofs.Number.Numeral
import Lox.Proofs.Number.Display
import Lox.Proofs.Lexer.Cut
import Lox.Proofs.Lexer.Lexeme
import Lox.Proofs.Lexer.Exactness
import Lox.Proofs.Lexer.Positions
import Lox.Proofs.Lexer.Joining
import Lox.Proofs.Lexer.Stepping
import Lox.Proofs.Evaluation.Frames
import Lox.Proofs.Evaluation.Pairs
import Lox.Proofs.Scope.Stacks
import Lox.Proofs.Evaluation.Unmentioned
import Lox.Proofs.Evaluation.ForLoop
import Lox.Proofs.Evaluation.Resolution
import Lox.Proofs.Evaluation.Lexical
import Lox.Proofs.Evaluation.Lookup
import Lox.Proofs.Evaluation.StaticScope
import Lox.Proofs.Evaluation.Release
import Lox.Proofs.Layout.Parsing
import Lox.Proofs.Layout.Independence
import Lox.Proofs.Session.Ending
import Lox.Proofs.Session.Failures
import Lox.Proofs.Session.Joining
import Lox.Proofs.Session.Braces
import Lox.Proofs.Shell.Commands
import Lox.Proofs.Shell.Dialogue
import Lox.Proofs.Shell.Continuation
import Lox.Proofs.Lexer.Respelling
import Lox.Proofs.Tree.Form
import Lox.Proofs.Tree.Printing
import Lox.Proofs.Shell.Consistency
import Lox.Proofs.Reporter.Excerpts
import Lox.Proofs.Grammar.Walk
import Lox.Proofs.Grammar.EndMark
import Lox.Proofs.Evaluation.Braces
