import PascalX86.Invocation.FileTree
import PascalX86.Main
import PascalX86.Operator.Evaluation
import PascalX86.Symbol.Scopes
import PascalX86.Proofs.Checking.Rules
import PascalX86.Proofs.Checking.Expression
import PascalX86.Proofs.Checking.Statement
import PascalX86.Proofs.Checking.Sound
import PascalX86.Proofs.Checking.Declared
import PascalX86.Proofs.Checking.Type
import PascalX86.Proofs.Checking.Declaration
import PascalX86.Proofs.Lowering.Depth
import PascalX86.Proofs.Lowering.Piece
import PascalX86.Proofs.Lowering.Expression
import PascalX86.Proofs.Lowering.Statement
import PascalX86.Proofs.Checking.Program
import PascalX86.Proofs.Lowering.Program
import PascalX86.Proofs.Machine.Basic
import PascalX86.Proofs.Lowering.Label
import PascalX86.Proofs.Machine.Word
import PascalX86.Proofs.Meaning.Tree
import PascalX86.Proofs.Machine.Run
import PascalX86.Proofs.Simulation.Frame
import PascalX86.Proofs.Simulation.Operation
import PascalX86.Proofs.Simulation.Expression
import PascalX86.Proofs.Simulation.Statement
import PascalX86.Proofs.Simulation.Program
import PascalX86.Proofs.Checking.Body
import PascalX86.Proofs.Checking.Constant
import PascalX86.Proofs.Checking.Nesting
import PascalX86.Proofs.Checking.Call
import PascalX86.Proofs.Lowering.Site
import PascalX86.Proofs.Lowering.Call
import PascalX86.Proofs.Lowering.Listing
import PascalX86.Proofs.Lowering.Jump
import PascalX86.Proofs.Frame.Access
import PascalX86.Proofs.Frame.Reference
import PascalX86.Proofs.Frame.Expression
import PascalX86.Proofs.Frame.Temporary
import PascalX86.Proofs.Frame.Statement
import PascalX86.Proofs.Frame.Storage
import PascalX86.Proofs.Frame.Program
import PascalX86.Proofs.Calling.Stack
import PascalX86.Proofs.Calling.Piece
import PascalX86.Proofs.Calling.Expression
import PascalX86.Proofs.Calling.Content
import PascalX86.Proofs.Calling.Argument
import PascalX86.Proofs.Calling.Node
import PascalX86.Proofs.Calling.Program
import PascalX86.Proofs.Frame.Argument
import PascalX86.Proofs.Scanning.Lexeme
import PascalX86.Proofs.Scanning.Location
import PascalX86.Proofs.Checking.Scope
import PascalX86.Proofs.Parsing.Citation
import PascalX86.Proofs.Parsing.Reference
import PascalX86.Proofs.Checking.Reading
import PascalX86.Proofs.Checking.Resolution
import PascalX86.Proofs.Scanning.Streaming
import PascalX86.Proofs.Lowering.Strings
import PascalX86.Proofs.Scanning.Layout
import PascalX86.Proofs.Spelling.Program
import PascalX86.Proofs.Folding.Integer
import PascalX86.Proofs.Folding.Conversion
import PascalX86.Proofs.Loop.Program
import PascalX86.Proofs.Activation.Program
import PascalX86.Proofs.Output.Argument
import PascalX86.Proofs.Output.Program
import PascalX86.Proofs.Output.Fidelity
import PascalX86.Proofs.Lowering.Image
import PascalX86.Proofs.Calling.Copy
import PascalX86.Proofs.Addressing.Program
import PascalX86.Proofs.Storage.Same
import PascalX86.Proofs.Storage.Refusal
import PascalX86.Proofs.Storage.Stack
import PascalX86.Proofs.Folding.Complete
import PascalX86.Proofs.Phrase.Constant
import PascalX86.Proofs.Phrase.Printing
import PascalX86.Proofs.Phrase.Sentence
import PascalX86.Proofs.Phrase.Body
import PascalX86.Proofs.Checking.Default
import PascalX86.Proofs.Folding.Agreement
import PascalX86.Proofs.Scanning.SourceForm
import PascalX86.Proofs.Scanning.TokenTable
import PascalX86.Proofs.Scanning.Number
import PascalX86.Proofs.Scanning.Termination
import PascalX86.Proofs.Descent.Program
import PascalX86.Proofs.Scanning.Line
import PascalX86.Proofs.Invocation.Document
import PascalX86.Proofs.Arena.Program
