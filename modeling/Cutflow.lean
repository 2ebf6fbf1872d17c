import Cutflow.Main
import Cutflow.Session
import Cutflow.Proofs.Outcome
import Cutflow.Proofs.TaggedValue
import Cutflow.Proofs.Lowering
import Cutflow.Proofs.Interpreter
import Cutflow.Proofs.Number.Bits
import Cutflow.Proofs.Number.Nearest
import Cutflow.Proofs.Number.Spacing
import Cutflow.Proofs.Decimal.ReadBack
import Cutflow.Proofs.Entrywise
import Cutflow.Proofs.Expr.Grammar
import Cutflow.Proofs.Token.Lexeme
import Cutflow.Proofs.Token.Scan
import Cutflow.Proofs.Expr.Reading
import Cutflow.Proofs.Blanks
import Cutflow.Proofs.Decimal.Layout
import Cutflow.Proofs.Agreement
import Cutflow.Proofs.Expr.Formula
import Cutflow.Proofs.Constant
import Cutflow.Proofs.CanonicalName
import Cutflow.Proofs.Expr.Phrase
import Cutflow.Proofs.Expr.Stuck
import Cutflow.Proofs.WellShaped
import Cutflow.Proofs.Traversal
import Cutflow.Proofs.Token.Replacement
import Cutflow.Proofs.Expr.Substitution
import Cutflow.Proofs.Registration
import Cutflow.Proofs.Batch
import Cutflow.Proofs.Selection
import Cutflow.Proofs.SingleCut
import Cutflow.Proofs.AcceptedName
import Cutflow.Proofs.Text.Byte
import Cutflow.Proofs.Decimal.Numeral
import Cutflow.Proofs.Token.Lossless
import Cutflow.Proofs.Text.Line
import Cutflow.Proofs.Json.Line
import Cutflow.Proofs.CommandLine
import Cutflow.Proofs.Json.Quoted
import Cutflow.Proofs.Json.Object
import Cutflow.Proofs.SchemaText
import Cutflow.Proofs.Number.Rounding
import Cutflow.Proofs.Json.Number
import Cutflow.Proofs.Decimal.Length
import Cutflow.Proofs.Json.Scaling
import Cutflow.Proofs.Json.Accuracy
import Cutflow.Proofs.RecordText
import Cutflow.Proofs.Connective
import Cutflow.Proofs.Duality
import Cutflow.Proofs.VectorLength
import Cutflow.Proofs.Overload
import Cutflow.Proofs.Mention
import Cutflow.Proofs.SharedIndex
import Cutflow.Proofs.Token.Concatenation
import Cutflow.Proofs.Json.TrailingGap
import Cutflow.Proofs.EventFile
import Cutflow.Proofs.Expr.Cursor
import Cutflow.Proofs.Expr.Position
