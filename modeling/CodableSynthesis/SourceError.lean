import CodableSynthesis.Text.Quoted
import CodableSynthesis.Token.Basic

/-!
Why a source text cannot be read, and where. Readers report a fault in terms of what they were
given; `SourceError` is the fault at its line and column, and `SourceError.message` its wording.

The causes are kept apart from their wording. What a reader expected is an `Expectation`, one for
each thing that any of them looks for, and the words for it stand in one place
(`Expectation.describe`).
-/

namespace CodableSynthesis

/-- What a reader was looking for. The program passes the words for it as a text (`expected`). -/
inductive Expectation where
  | declaration
  | type
  | typeName
  | attributeName
  | directiveName
  | pattern
  | atSign
  | arrow
  | opening (bracket : Bracket)
  | closing (bracket : Bracket)
  | closingAngle
  | commaOrParenthesis
  | endif
  | closingBacktick
  deriving DecidableEq, Repr

/-- An opening bracket as it is written. -/
def Bracket.opener : Bracket → String
  | .brace => "\x7b"
  | .parenthesis => "("
  | .square => "["

/-- A closing bracket as it is written. -/
def Bracket.closer : Bracket → String
  | .brace => "\x7d"
  | .parenthesis => ")"
  | .square => "]"

/-- How an expectation is named in a message. -/
def Expectation.describe : Expectation → String
  | .declaration => "declaration"
  | .type => "type"
  | .typeName => "type name"
  | .attributeName => "attribute name"
  | .directiveName => "directive name"
  | .pattern => "pattern"
  | .atSign => Text.ticked "@"
  | .arrow => Text.ticked "->"
  | .opening b => Text.ticked b.opener
  | .closing b => Text.ticked b.closer
  | .closingAngle => Text.ticked ">"
  | .commaOrParenthesis => Text.ticked "," ++ " or " ++ Text.ticked ")"
  | .endif => Text.ticked "#endif"
  | .closingBacktick => "closing '`'"

/-- What stood in place of what was expected. -/
inductive Finding where
  | token (text : String)
  | endOfLine
  deriving DecidableEq, Repr

/-- How a finding is named in a message. -/
def Finding.describe : Finding → String
  | .token text => Text.ticked text
  | .endOfLine => "end of line"

/-- Why a source text cannot be read: the variants of `ParseError`. -/
inductive SourceFault where
  | unexpected (expected : Expectation) (found : Finding)
  | endOfInput (expected : Expectation)
  | unterminatedString
  | unterminatedComment
  deriving DecidableEq, Repr

/-- The wording of a fault. -/
def SourceFault.message : SourceFault → String
  | .unexpected expected found => "expected " ++ expected.describe ++ ", found " ++ found.describe
  | .endOfInput expected => "expected " ++ expected.describe ++ ", found end of input"
  | .unterminatedString => "unterminated string literal"
  | .unterminatedComment => "unterminated block comment"

/-- A fault and the line and column it is reported at, both counted from one. -/
structure SourceError where
  line : Nat
  column : Nat
  fault : SourceFault
  deriving DecidableEq, Repr

/-- The position and the wording of an error, as it is told in a message. -/
def SourceError.message (e : SourceError) : String :=
  toString e.line ++ ":" ++ toString e.column ++ ": " ++ e.fault.message

end CodableSynthesis
