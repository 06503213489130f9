import ScriptEngine.Number.Text
import ScriptEngine.Number.Reading
import ScriptEngine.Text.Quoted
import ScriptEngine.Store
import ScriptEngine.Lexer
import ScriptEngine.Operator
import ScriptEngine.Parser
import ScriptEngine.CodeUnit.Listing
import ScriptEngine.Compiler
import ScriptEngine.Machine.Run
import ScriptEngine.Engine
import ScriptEngine.CommandLine
import ScriptEngine.Main
import ScriptEngine.Proofs.Verifier.Layout
import ScriptEngine.Proofs.Compiler.Verified
import ScriptEngine.Proofs.Machine.Settlement
import ScriptEngine.Proofs.Evaluation.Program
import ScriptEngine.Proofs.Evaluation.Emission
import ScriptEngine.Proofs.Evaluation.Ending
import ScriptEngine.Proofs.Number.Sign
import ScriptEngine.Proofs.Parser.Literals
import ScriptEngine.Proofs.Parser.Roundtrip
import ScriptEngine.Proofs.Machine.Blindness
import ScriptEngine.Proofs.Machine.Safety
import ScriptEngine.Proofs.Number.Natural
import ScriptEngine.Proofs.Table.Key
import ScriptEngine.Proofs.Table.Traversal
import ScriptEngine.Proofs.Machine.Accounting
import ScriptEngine.Proofs.Machine.Coroutine
import ScriptEngine.Proofs.Machine.Reuse
import ScriptEngine.Proofs.Verifier.Soundness
import ScriptEngine.Proofs.Evaluation.Assignment
import ScriptEngine.Proofs.Evaluation.Chunk
import ScriptEngine.Proofs.Lexer.Rendering
import ScriptEngine.Proofs.Compiler.Renaming
import ScriptEngine.Proofs.Machine.Confinement
import ScriptEngine.Proofs.Machine.Comparison
import ScriptEngine.Proofs.Machine.Unwinding
import ScriptEngine.Proofs.Machine.Limits
import ScriptEngine.Proofs.Table.Integrity
import ScriptEngine.Proofs.Verifier.Paths
import ScriptEngine.Proofs.Compiler.Patching
import ScriptEngine.Proofs.Store.Prototype
import ScriptEngine.Proofs.Compiler.Numbering
import ScriptEngine.Proofs.Library.Unpack
import ScriptEngine.Proofs.Number.Coercion
import ScriptEngine.Proofs.Repl.Incomplete
import ScriptEngine.Proofs.Machine.Environment
import ScriptEngine.Proofs.Machine.Counting
import ScriptEngine.Proofs.Machine.Response
