import Cutflow.Shape
import Cutflow.Text
import Cutflow.Token

/-!
# Errors

Everything that can go wrong when a text is read, a function is built or a function is evaluated,
and the one place where these causes are put into words.
-/

namespace Cutflow

/-- What is wrong with an expression at the byte where reading it stopped. -/
inductive SyntaxFault where
  /-- An exponent mark without digits. -/
  | missingExponent
  /-- A character that begins no token. -/
  | unexpectedChar (c : Char)
  /-- The text ends where an operand should begin. -/
  | unexpectedEnd
  /-- A token that begins no operand. -/
  | unexpectedToken (found : Token.Kind)
  /-- Another token than the only one that can stand there. -/
  | expected (wanted found : Token.Kind)
  deriving DecidableEq

/-- What is wrong with the text of a schema. -/
inductive SchemaFault where
  /-- It is no object whose members are words for shapes. -/
  | malformed
  /-- A word that ends at `stop` stands for no shape. -/
  | unknownShape (word : String) (stop : Text.Position)
  deriving DecidableEq

/-- Why there is no pool of threads. -/
inductive PoolFault where
  /-- A pool without any thread is asked for. -/
  | zero
  /-- The system does not let it be built. -/
  | refused (reason : String)
  deriving DecidableEq

/-- The causes of failure. -/
inductive Error where
  /-- An expression cannot be read; the offset counts bytes. -/
  | parse (offset : Nat) (fault : SyntaxFault)
  /-- A function is evaluated at the shape it does not have. -/
  | invalidShape (name : String) (expected : Shape)
  /-- A scalar is indexed. -/
  | scalarBase (label : String)
  /-- A vector is used as an index. -/
  | vectorIndex (label : String)
  /-- An index lies outside the vector of the event at hand. -/
  | indexOutOfRange (label : String) (index : Float) (length : Nat)
  /-- A name is unknown to the compiler, or an event has no such value. -/
  | missingVariable (name : String)
  /-- A function cannot be registered under this name. -/
  | functionName (name : String)
  /-- A schema declares a variable that no expression can mention. -/
  | variableName (name : String)
  /-- A text is no schema. -/
  | schemaText (fault : SchemaFault)
  /-- There are no threads to evaluate on. -/
  | noThreads {fault : PoolFault}
  /-- A text is no event record. -/
  | recordText
  /-- A line of an event file is no event record; lines are counted from one. -/
  | recordLine (number : Nat)
  /-- A schema file cannot be read. -/
  | schemaFile (path : String)
  deriving DecidableEq

/-- The fault in words. -/
def SyntaxFault.message : SyntaxFault → String
  | .missingExponent => "invalid number exponent (expected digits)"
  | .unexpectedChar c => "unexpected character '" ++ String.singleton c ++ "'"
  | .unexpectedEnd => "unexpected end of expression"
  | .unexpectedToken found => "unexpected token " ++ found.label
  | .expected wanted found => "expected " ++ wanted.label ++ ", found " ++ found.label

/-- The fault in words; there are none for a text that is malformed. -/
def SchemaFault.message : SchemaFault → String
  | .malformed => ""
  | .unknownShape word stop =>
    "unknown variant `" ++ word ++ "`, expected `" ++ Shape.scalar.label ++ "` or `"
      ++ Shape.vector.label ++ "` at line " ++ toString stop.line
      ++ " column " ++ toString stop.column

/-- The fault in words. -/
def PoolFault.message : PoolFault → String
  | .zero => "eval threading 'threads' must be >= 1 when set"
  | .refused reason => "failed to build rayon thread pool: " ++ reason

namespace Error

/-- Indices in messages: no exponent and no point in a whole number. -/
def indexLayout : Decimal.Layout where
  tie := .up
  positional _ := true
  wholePoint := false
  exponentPlus := false
  nan := "NaN"
  infinity := "inf"
  minusInfinity := "-inf"

/-- A text between single quotation marks. -/
def quoted (s : String) : String := "'" ++ s ++ "'"

/-- The error in words. Of a fault in the text of a schema the first line is left out. -/
def message : Error → String
  | .parse offset fault => "parse error at byte " ++ toString offset ++ ": " ++ fault.message
  | .invalidShape name expected =>
    "invalid shape: " ++ quoted name ++ " has no " ++ expected.label ++ " evaluator"
  | .scalarBase label => "shape mismatch: cannot index scalar in " ++ quoted label
  | .vectorIndex label => "shape mismatch: cannot use a vector as index in " ++ quoted label
  | .indexOutOfRange label index length =>
    "index " ++ indexLayout.write index ++ " out of range for " ++ quoted label
      ++ " (len " ++ toString length ++ ")"
  | .missingVariable name => "missing variable: " ++ name
  | .functionName name =>
    "config error: function name " ++ quoted name ++ " is not a valid identifier"
  | .variableName name =>
    "config error: schema variable " ++ quoted name ++ " is not a valid identifier"
  | .schemaText fault =>
    "config error: invalid schema json" ++ Text.withoutFirstLine fault.message
  | @noThreads fault => "config error: " ++ fault.message
  | .recordText => "invalid event record json"
  | .recordLine number => "invalid event record on line " ++ toString number
  | .schemaFile path => "read schema " ++ quoted path

end Error

end Cutflow
