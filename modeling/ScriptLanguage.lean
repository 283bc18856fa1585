import ScriptLanguage.Binary64
import ScriptLanguage.CommandLine
import ScriptLanguage.Context
import ScriptLanguage.Datatype
import ScriptLanguage.Decimal
import ScriptLanguage.Decimal.Fixed
import ScriptLanguage.Decimal.Numeral
import ScriptLanguage.Decimal.Shortest
import ScriptLanguage.Element
import ScriptLanguage.Evaluation.Evaluate
import ScriptLanguage.Evaluation.Outcome
import ScriptLanguage.Function
import ScriptLanguage.Integer
import ScriptLanguage.Interactive
import ScriptLanguage.Library
import ScriptLanguage.Main
import ScriptLanguage.Native
import ScriptLanguage.Native.Arithmetic
import ScriptLanguage.Native.Comparison
import ScriptLanguage.Native.Run
import ScriptLanguage.Node
import ScriptLanguage.Node.CastResolution
import ScriptLanguage.ParseError
import ScriptLanguage.Parsing.Bracket
import ScriptLanguage.Parsing.Declaration
import ScriptLanguage.Parsing.Expression
import ScriptLanguage.Parsing.OperatorBinding
import ScriptLanguage.Parsing.Part
import ScriptLanguage.Parsing.Program
import ScriptLanguage.Parsing.Reading
import ScriptLanguage.Parsing.Stacks
import ScriptLanguage.Parsing.Statement
import ScriptLanguage.Proofs.Bracket
import ScriptLanguage.Proofs.Callable
import ScriptLanguage.Proofs.Contract
import ScriptLanguage.Proofs.ControlFlow
import ScriptLanguage.Proofs.Conversion
import ScriptLanguage.Proofs.Declaration
import ScriptLanguage.Proofs.Display
import ScriptLanguage.Proofs.EmptyScope
import ScriptLanguage.Proofs.ExpressionReading
import ScriptLanguage.Proofs.Frame
import ScriptLanguage.Proofs.Fuel
import ScriptLanguage.Proofs.Hygiene
import ScriptLanguage.Proofs.IntegerArithmetic
import ScriptLanguage.Proofs.Inventory
import ScriptLanguage.Proofs.Joining
import ScriptLanguage.Proofs.Layout
import ScriptLanguage.Proofs.LibraryCall
import ScriptLanguage.Proofs.LongestMatch
import ScriptLanguage.Proofs.OperatorCall
import ScriptLanguage.Proofs.Operators
import ScriptLanguage.Proofs.Outline
import ScriptLanguage.Proofs.Placement
import ScriptLanguage.Proofs.PositionAgreement
import ScriptLanguage.Proofs.Positions
import ScriptLanguage.Proofs.Purity
import ScriptLanguage.Proofs.Remainder
import ScriptLanguage.Proofs.Rendering
import ScriptLanguage.Proofs.ResolvedCasts
import ScriptLanguage.Proofs.RoundTrip
import ScriptLanguage.Proofs.Scanning
import ScriptLanguage.Proofs.SessionTags
import ScriptLanguage.Proofs.SoundContext
import ScriptLanguage.Proofs.StackSteps
import ScriptLanguage.Proofs.StatementGrammar
import ScriptLanguage.Proofs.StatementReading
import ScriptLanguage.Proofs.Success
import ScriptLanguage.Proofs.TokenLanguage
import ScriptLanguage.Proofs.Tree
import ScriptLanguage.Proofs.Unrolling
import ScriptLanguage.Proofs.WellTagged
import ScriptLanguage.RuntimeError
import ScriptLanguage.Scope
import ScriptLanguage.Session
import ScriptLanguage.Text.Backspace
import ScriptLanguage.Text.Blank
import ScriptLanguage.Text.ClusterBreak
import ScriptLanguage.Text.CodeRange
import ScriptLanguage.Token
import ScriptLanguage.Token.Quoted
import ScriptLanguage.Token.Scan
import ScriptLanguage.Value
import ScriptLanguage.Value.Conversion
import ScriptLanguage.Value.Text
import ScriptLanguage.Proofs.FloorModulo
import ScriptLanguage.Proofs.ElementConversion
import ScriptLanguage.Proofs.SetConversion
import ScriptLanguage.Proofs.ValueEquivalence
import ScriptLanguage.Proofs.StoreLaws
import ScriptLanguage.Proofs.ComparisonOperators
import ScriptLanguage.Proofs.JointDeclaration
import ScriptLanguage.Proofs.QuotedText
import ScriptLanguage.Proofs.Resolution
import ScriptLanguage.Proofs.FloatValue
import ScriptLanguage.Proofs.Termination
import ScriptLanguage.Proofs.BlockSpan
import ScriptLanguage.Proofs.CallArguments
import ScriptLanguage.Proofs.FloatConversion
