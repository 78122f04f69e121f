import TinyScript.Cli
import TinyScript.Cli.Directory
import TinyScript.Cli.Options
import TinyScript.Cli.Path
import TinyScript.Cli.Sink
import TinyScript.Diagnostic
import TinyScript.Env
import TinyScript.Eval.Expr
import TinyScript.Eval.Loop
import TinyScript.Eval.Stmt
import TinyScript.Eval.World
import TinyScript.Fault
import TinyScript.Interpreter
import TinyScript.Json
import TinyScript.Main
import TinyScript.Number.Dyadic
import TinyScript.Number.Power
import TinyScript.Number.Read
import TinyScript.Number.Shortest
import TinyScript.Number.Text
import TinyScript.Parser
import TinyScript.Parser.Basic
import TinyScript.Parser.Expr
import TinyScript.Parser.Stmt
import TinyScript.Table
import TinyScript.Text.CodeSet
import TinyScript.Text.Digit
import TinyScript.Text.Lines
import TinyScript.Text.Literal
import TinyScript.Text.Printable
import TinyScript.Text.Quoted
import TinyScript.Text.Space
import TinyScript.Text.Utf8
import TinyScript.Text.Word
import TinyScript.Token
import TinyScript.Token.Cursor
import TinyScript.Token.Kind
import TinyScript.Token.Layout
import TinyScript.Token.Lexeme
import TinyScript.Token.Terminal
import TinyScript.Trace
import TinyScript.Tree.Export
import TinyScript.Tree.Expr
import TinyScript.Tree.Outline
import TinyScript.Tree.Stmt
import TinyScript.Tree.Text
import TinyScript.Value
import TinyScript.Value.Arith
import TinyScript.Value.Basic
import TinyScript.Value.Compare
import TinyScript.Proofs.Grammar.Expr
import TinyScript.Proofs.Grammar.Stmt
import TinyScript.Proofs.Parsing.Step
import TinyScript.Proofs.Parsing.Expr
import TinyScript.Proofs.Parsing.Stmt
import TinyScript.Proofs.Parsing.Program
import TinyScript.Proofs.Lexing.Tokens
import TinyScript.Proofs.Text.Quoted
import TinyScript.Proofs.Tree.Spelled
import TinyScript.Proofs.Lexing.Spelling
import TinyScript.Proofs.Tree.RoundTrip
import TinyScript.Proofs.Eval.Rules
import TinyScript.Proofs.Eval.Frame
import TinyScript.Proofs.Eval.Termination
import TinyScript.Proofs.Eval.Safety
import TinyScript.Proofs.Eval.Effects
import TinyScript.Proofs.Lexing.Pattern
import TinyScript.Proofs.Lexing.Lines
import TinyScript.Proofs.Lexing.Cover
import TinyScript.Proofs.Lexing.Related
import TinyScript.Proofs.Lexing.Seam
import TinyScript.Proofs.Lexing.Blocks
import TinyScript.Proofs.Parsing.Concat
import TinyScript.Proofs.Eval.Lockstep
import TinyScript.Proofs.Eval.Concat
import TinyScript.Proofs.Parsing.Tracks
import TinyScript.Proofs.Parsing.Rejection
import TinyScript.Proofs.Parsing.Pairs
import TinyScript.Proofs.Parsing.Law
import TinyScript.Proofs.Trace.Levels
import TinyScript.Proofs.Parsing.Unreadable
import TinyScript.Proofs.Cli.Ending
import TinyScript.Proofs.Json.Reader
import TinyScript.Proofs.Number.Shortest
import TinyScript.Proofs.Json.Numbers
import TinyScript.Proofs.Json.RoundTrip
import TinyScript.Proofs.Tree.Decode
import TinyScript.Proofs.Tree.Lossless
import TinyScript.Proofs.Eval.Agreement
import TinyScript.Proofs.Eval.Progression
import TinyScript.Proofs.Eval.Atomic
import TinyScript.Proofs.Text.Joined
import TinyScript.Proofs.Tree.Layout
import TinyScript.Proofs.Tree.Entries
import TinyScript.Proofs.Tree.Identified
import TinyScript.Proofs.Lexing.Indentation
import TinyScript.Proofs.Parsing.Alike
import TinyScript.Proofs.Lexing.BlankLines
import TinyScript.Proofs.Lexing.LineEnds
import TinyScript.Proofs.Lexing.Boundary
import TinyScript.Proofs.Lexing.Spacing
import TinyScript.Proofs.Lexing.Munch
import TinyScript.Proofs.Parsing.Progress
import TinyScript.Proofs.Parsing.Discipline
import TinyScript.Proofs.Parsing.Cursor
import TinyScript.Proofs.Eval.Exact
import TinyScript.Proofs.Tree.Bodies
import TinyScript.Proofs.Eval.Definitions
import TinyScript.Proofs.Eval.Session
