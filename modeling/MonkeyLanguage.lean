import MonkeyLanguage.Code.Encoding
import MonkeyLanguage.Code.Listing
import MonkeyLanguage.Code.OpCode
import MonkeyLanguage.CommandLine
import MonkeyLanguage.Compiler.Basic
import MonkeyLanguage.Eval.Basic
import MonkeyLanguage.Eval.Builtin
import MonkeyLanguage.Eval.Operators
import MonkeyLanguage.Machine.Basic
import MonkeyLanguage.Machine.Stack
import MonkeyLanguage.Main
import MonkeyLanguage.Main.Arguments
import MonkeyLanguage.Session
import MonkeyLanguage.Store
import MonkeyLanguage.Syntax.Basic
import MonkeyLanguage.Syntax.Equality
import MonkeyLanguage.Syntax.Parser
import MonkeyLanguage.Syntax.Precedence
import MonkeyLanguage.Syntax.Printer
import MonkeyLanguage.Syntax.Reading
import MonkeyLanguage.Table
import MonkeyLanguage.Text.Blank
import MonkeyLanguage.Text.Decimal
import MonkeyLanguage.Text.Lines
import MonkeyLanguage.Token.Basic
import MonkeyLanguage.Token.Scanner
import MonkeyLanguage.Value.Basic
import MonkeyLanguage.Value.Equality
import MonkeyLanguage.Value.Printer
import MonkeyLanguage.Proofs.Code.Instruction
import MonkeyLanguage.Proofs.Code.Stream
import MonkeyLanguage.Proofs.Compiler.Translation
import MonkeyLanguage.Proofs.Syntax.Every
import MonkeyLanguage.Proofs.Compiler.Emission
import MonkeyLanguage.Proofs.Compiler.Incremental
import MonkeyLanguage.Proofs.Machine.Step
import MonkeyLanguage.Proofs.Machine.Effect
import MonkeyLanguage.Proofs.Compiler.Balance
import MonkeyLanguage.Proofs.Compiler.StackSafety
import MonkeyLanguage.Proofs.Machine.Computation
import MonkeyLanguage.Proofs.Eval.Run
import MonkeyLanguage.Proofs.Compiler.Parity
import MonkeyLanguage.Proofs.Compiler.Fit
import MonkeyLanguage.Proofs.Compiler.Outcome
import MonkeyLanguage.Proofs.Compiler.Comparison
import MonkeyLanguage.Proofs.Syntax.Grammar
import MonkeyLanguage.Proofs.Syntax.Reads
import MonkeyLanguage.Proofs.Syntax.Soundness
import MonkeyLanguage.Proofs.Syntax.Completeness
import MonkeyLanguage.Proofs.Token.Munch
import MonkeyLanguage.Proofs.Syntax.RoundTrip
import MonkeyLanguage.Proofs.Eval.Signal
import MonkeyLanguage.Proofs.Eval.Clean
import MonkeyLanguage.Proofs.Machine.Raw
import MonkeyLanguage.Proofs.Token.Seam
import MonkeyLanguage.Proofs.Session.File
import MonkeyLanguage.Proofs.Value.Related
import MonkeyLanguage.Proofs.Eval.Simulation
import MonkeyLanguage.Proofs.Eval.Layout
import MonkeyLanguage.Proofs.Eval.Shift
import MonkeyLanguage.Proofs.Eval.Interpreter
import MonkeyLanguage.Proofs.Session.Idle
import MonkeyLanguage.Proofs.Eval.Moment
import MonkeyLanguage.Proofs.Eval.Nesting
import MonkeyLanguage.Proofs.Eval.Chain
import MonkeyLanguage.Proofs.Eval.Lexical
import MonkeyLanguage.Proofs.Machine.Pointer
import MonkeyLanguage.Proofs.Compiler.Forward
import MonkeyLanguage.Proofs.Token.Maximal
import MonkeyLanguage.Proofs.Syntax.Printable
import MonkeyLanguage.Proofs.Syntax.Grouping
import MonkeyLanguage.Proofs.Compiler.Depth
import MonkeyLanguage.Proofs.Token.Whitespace
import MonkeyLanguage.Proofs.Compiler.Raw
import MonkeyLanguage.Proofs.Syntax.Recovery
import MonkeyLanguage.Proofs.Eval.Unmentioned
import MonkeyLanguage.Proofs.Value.Mapping
import MonkeyLanguage.Proofs.Value.Same
import MonkeyLanguage.Proofs.Value.Display
import MonkeyLanguage.Proofs.Value.Data
import MonkeyLanguage.Proofs.Compiler.Arithmetic
import MonkeyLanguage.Proofs.Eval.HashLiteral
import MonkeyLanguage.Proofs.Eval.MapReduce
import MonkeyLanguage.Proofs.Store.History
import MonkeyLanguage.Proofs.Text.Decimal
import MonkeyLanguage.Proofs.Code.Operands
import MonkeyLanguage.Proofs.Code.Tail
import MonkeyLanguage.Proofs.Code.Listing
import MonkeyLanguage.Proofs.Machine.Fetch
import MonkeyLanguage.Proofs.Machine.BoundedStack
