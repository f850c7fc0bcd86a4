import Scriptlet.Number
import Scriptlet.Value
import Scriptlet.Token.Basic
import Scriptlet.Token.Piece
import Scriptlet.Failure
import Scriptlet.Report
import Scriptlet.Expr.Basic
import Scriptlet.Expr.Parse
import Scriptlet.Expr.Eval
import Scriptlet.Stmt.Basic
import Scriptlet.Stmt.Parse
import Scriptlet.Stmt.Exec
import Scriptlet.Parser
import Scriptlet.Program
import Scriptlet.Operator
import Scriptlet.Store
import Scriptlet.Session
import Scriptlet.Command.Args
import Scriptlet.Command.Console
import Scriptlet.Main
import Scriptlet.Proofs.Progress
import Scriptlet.Proofs.Grammar
import Scriptlet.Proofs.GrammarExpr
import Scriptlet.Proofs.GrammarStmt
import Scriptlet.Proofs.Proper
import Scriptlet.Proofs.Semantics
import Scriptlet.Proofs.Stack
import Scriptlet.Proofs.AgreementExpr
import Scriptlet.Proofs.AgreementStmt
import Scriptlet.Proofs.Calls
import Scriptlet.Proofs.Pieces
import Scriptlet.Proofs.Scans
import Scriptlet.Proofs.LikeRuns
import Scriptlet.Proofs.Continuation
import Scriptlet.Proofs.Cursor
import Scriptlet.Proofs.CursorExpr
import Scriptlet.Proofs.CursorStmt
import Scriptlet.Proofs.CursorProgram
import Scriptlet.Proofs.Safety
import Scriptlet.Proofs.Places
import Scriptlet.Proofs.Lexemes
import Scriptlet.Proofs.Height
import Scriptlet.Proofs.Breaks
import Scriptlet.Proofs.Steady
import Scriptlet.Proofs.Tiling
import Scriptlet.Proofs.Fences
import Scriptlet.Proofs.LoneLines
import Scriptlet.Proofs.Layout
import Scriptlet.Proofs.Replies
import Scriptlet.Proofs.Origins
import Scriptlet.Proofs.Blame
import Scriptlet.Proofs.Phases
import Scriptlet.Proofs.Handles
import Scriptlet.Proofs.Rescans
import Scriptlet.Proofs.Gaps
import Scriptlet.Proofs.Restarts
import Scriptlet.Proofs.Frames
import Scriptlet.Proofs.Runner
import Scriptlet.Proofs.Insets
import Scriptlet.Proofs.Counting
import Scriptlet.Proofs.Cutoff
import Scriptlet.Proofs.Complaints
import Scriptlet.Proofs.TextLines
import Scriptlet.Proofs.Conversations
import Scriptlet.Proofs.Numerals
import Scriptlet.Proofs.Outlines
import Scriptlet.Proofs.Legible
import Scriptlet.Proofs.TreeTexts
