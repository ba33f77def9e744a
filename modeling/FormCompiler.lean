import FormCompiler.Ast.Expr
import FormCompiler.Ast.Item
import FormCompiler.Ast.Print
import FormCompiler.Compile.Index
import FormCompiler.Compile.Unit
import FormCompiler.Diagnostic.Basic
import FormCompiler.Diagnostic.Code
import FormCompiler.Diagnostic.Queue
import FormCompiler.Double.Arithmetic
import FormCompiler.Double.Basic
import FormCompiler.Double.Shortest
import FormCompiler.Double.Text
import FormCompiler.Flow.Basic
import FormCompiler.Flow.Graph
import FormCompiler.Flow.Print
import FormCompiler.Flow.Read
import FormCompiler.Flow.ValueType
import FormCompiler.Flow.Verify
import FormCompiler.Lowering.Basic
import FormCompiler.Lowering.Expr
import FormCompiler.Lowering.Fault
import FormCompiler.Lowering.Module
import FormCompiler.Lowering.Recognize
import FormCompiler.Machine.Allocate
import FormCompiler.Machine.Basic
import FormCompiler.Machine.Fault
import FormCompiler.Machine.Generate
import FormCompiler.Machine.Immediate
import FormCompiler.Machine.Liveness
import FormCompiler.Machine.Moves
import FormCompiler.Machine.Print
import FormCompiler.Machine.Scan
import FormCompiler.Machine.Select
import FormCompiler.Machine.Target
import FormCompiler.Word.Basic
import FormCompiler.Operator.Basic
import FormCompiler.Optimize.Basic
import FormCompiler.Optimize.Constant
import FormCompiler.Optimize.DeadStore
import FormCompiler.Optimize.Fault
import FormCompiler.Optimize.Fold
import FormCompiler.Optimize.Hoist
import FormCompiler.Optimize.Lanes
import FormCompiler.Optimize.Pipeline
import FormCompiler.Optimize.TailCall
import FormCompiler.Optimize.Unroll
import FormCompiler.Parsing.Basic
import FormCompiler.Parsing.Climbing
import FormCompiler.Parsing.Conditional
import FormCompiler.Parsing.Error
import FormCompiler.Parsing.Form
import FormCompiler.Parsing.Item
import FormCompiler.Parsing.TokenTree
import FormCompiler.Parsing.TypeText
import FormCompiler.Proofs.Double.Nearest
import FormCompiler.Proofs.Double.Shortest
import FormCompiler.Proofs.Double.Text
import FormCompiler.Proofs.Flow.BlockText
import FormCompiler.Proofs.Flow.HeaderText
import FormCompiler.Proofs.Flow.InstrText
import FormCompiler.Proofs.Flow.Items
import FormCompiler.Proofs.Flow.LineText
import FormCompiler.Proofs.Flow.RoundTrip
import FormCompiler.Proofs.Flow.TypeText
import FormCompiler.Proofs.Flow.Verify
import FormCompiler.Proofs.Text.Number
import FormCompiler.Proofs.Text.Split
import FormCompiler.Scope.Symbols
import FormCompiler.Source.Span
import FormCompiler.Text.Split
import FormCompiler.Text.Number
import FormCompiler.Text.Printable
import FormCompiler.Text.Quoted
import FormCompiler.Token.Basic
import FormCompiler.Token.Cursor
import FormCompiler.Token.Lexer
import FormCompiler.Token.Literal
import FormCompiler.Ty.Basic
import FormCompiler.Ty.Substitution
import FormCompiler.Typing.Basic
import FormCompiler.Typing.Checked
import FormCompiler.Typing.Constant
import FormCompiler.Typing.Expr
import FormCompiler.Typing.Module
import FormCompiler.Typing.Problem
import FormCompiler.Proofs.Machine.Generated
import FormCompiler.Proofs.Optimize.DeadStores
import FormCompiler.Proofs.Optimize.Folded
import FormCompiler.Proofs.Optimize.Hoisted
import FormCompiler.Proofs.Optimize.Unstopped
import FormCompiler.Proofs.Optimize.TailCalls
import FormCompiler.Proofs.Optimize.Unrolled
import FormCompiler.Proofs.Optimize.Vectorized
import FormCompiler.Proofs.Action.Ensures
import FormCompiler.Proofs.Flow.Built
import FormCompiler.Proofs.Flow.Dominators
import FormCompiler.Proofs.Lowering.Actions
import FormCompiler.Proofs.Lowering.WalkedExpr
import FormCompiler.Proofs.Lowering.Blocks
import FormCompiler.Proofs.Lowering.Counted
import FormCompiler.Proofs.Lowering.Elements
import FormCompiler.Proofs.Lowering.Expr
import FormCompiler.Proofs.Lowering.Module
import FormCompiler.Proofs.Ty.Mangled
import FormCompiler.Proofs.Ty.Composition
import FormCompiler.Proofs.Ty.Written
import FormCompiler.Proofs.Typing.Coerce
import FormCompiler.Proofs.Typing.Imports
import FormCompiler.Proofs.Compile.Units
import FormCompiler.Proofs.Compile.Stages
import FormCompiler.Proofs.Typing.Siblings
import FormCompiler.Proofs.Typing.Table
import FormCompiler.Proofs.Typing.Constants
import FormCompiler.Proofs.Machine.Operands
import FormCompiler.Proofs.Parsing.Recovering
import FormCompiler.Proofs.Parsing.Climbing
import FormCompiler.Proofs.Token.Layout
import FormCompiler.Proofs.Evaluation.FirstMatch
import FormCompiler.Proofs.Scope.Symbols
