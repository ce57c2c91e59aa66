import Lox.Main
import Lox.NodeSet
import Lox.Scope
import Lox.Token.Listing
import Lox.Proofs.Grammar.Expr
import Lox.Proofs.Parser.Logic
import Lox.Proofs.Parser.ExprSound
import Lox.Proofs.Grammar.Stmt
import Lox.Proofs.Parser.StmtSound
import Lox.Proofs.Parser.ExprJoins
import Lox.Proofs.Parser.ExprComplete
import Lox.Proofs.Parser.StmtReads
import Lox.Proofs.Parser.DanglingElse
import Lox.Proofs.Parser.Acceptance
import Lox.Proofs.Grammar.Yield
import Lox.Proofs.Parser.RoundTrip
import Lox.Proofs.Static.Placement
import Lox.Proofs.Heap.Growth
import Lox.Proofs.Run.Invariant
import Lox.Proofs.Run.Logic
import Lox.Proofs.Run.EvalSafe
import Lox.Proofs.Run.CallSafe
import Lox.Proofs.Session.Safety
import Lox.Proofs.Run.Fuel
import Lox.Proofs.Heap.Correspondence
import Lox.Proofs.Run.Alike
import Lox.Proofs.Run.EvalAlike
import Lox.Proofs.Run.ExecAlike
import Lox.Proofs.Heap.Reach
import Lox.Proofs.Run.Locality
import Lox.Proofs.Run.Names
import Lox.Proofs.Heap.Insertion
import Lox.Proofs.Run.ForLoop
import Lox.Proofs.Heap.Chain
import Lox.Proofs.Run.Readings
import Lox.Proofs.Run.ReadingOrder
import Lox.Proofs.Run.Notes
import Lox.Proofs.Run.Compositional
import Lox.Proofs.Run.CallLimit
import Lox.Proofs.Session.Closures
import Lox.Proofs.Parser.Extension
import Lox.Proofs.Token.Pieces
import Lox.Proofs.Parser.ExprExtension
import Lox.Proofs.Parser.StmtExtension
import Lox.Proofs.Parser.Concatenation
import Lox.Proofs.Session.Splitting
import Lox.Proofs.Static.Inside
import Lox.Proofs.Session.Outcome
import Lox.Proofs.Session.Declarations
import Lox.Proofs.Session.Answers
import Lox.Proofs.Session.CallLimit
import Lox.Proofs.Static.Selves
import Lox.Proofs.Run.Moment
import Lox.Proofs.Run.Honest
import Lox.Proofs.Run.CallHonest
import Lox.Proofs.Session.Selves
import Lox.Proofs.Session.LogLevel
import Lox.Proofs.Command.Directory
import Lox.Proofs.History.Bucket
import Lox.Proofs.Command.Prompt
import Lox.Proofs.Command.Runs
import Lox.Proofs.Parser.Compositional
import Lox.Proofs.Parser.Locality
import Lox.Proofs.Parser.Blame
import Lox.Proofs.Grammar.Place
import Lox.Proofs.Parser.Mending
import Lox.Proofs.Parser.Insertion
import Lox.Proofs.Parser.Recovery
import Lox.Proofs.Parser.Confinement
import Lox.Proofs.Number.Range
import Lox.Proofs.Token.Words
import Lox.Proofs.Token.Partition
import Lox.Proofs.Parser.Sites
import Lox.Proofs.Token.Respacing
import Lox.Proofs.Parser.Rulings
import Lox.Proofs.Number.Nearest
import Lox.Proofs.Number.Written
import Lox.Proofs.Session.Numbers
import Lox.Proofs.Syntax.Form
import Lox.Proofs.Syntax.Ungrouped
import Lox.Proofs.Syntax.Printed
import Lox.Proofs.Parser.Printing
import Lox.Proofs.Parser.OperatorsLast
import Lox.Proofs.Heap.Ungrouped
import Lox.Proofs.Run.Ungrouped
import Lox.Proofs.Session.Ungrouped
import Lox.Proofs.Scope.Ledger
import Lox.Proofs.Scope.Nesting
import Lox.Proofs.History.Store
import Lox.Proofs.Heap.Moves
import Lox.Proofs.Run.Moves
import Lox.Proofs.Run.Lawful
import Lox.Proofs.Session.WellFormed
import Lox.Proofs.Parser.Cursor
import Lox.Proofs.Parser.Progress
