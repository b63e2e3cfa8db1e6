import CodableSynthesis.SourceError
import CodableSynthesis.Step

/-!
Reading tokens from the front of a list. A fault names what was expected and the token that stood
there; its position is that token's, or the end of the source where no token was left.

The program's parser holds all tokens and an index. Here the tokens still to come are passed on, and
what the index was moved by is what the result lacks of them. A token that was looked at and left is
still there, so no reader has to go back.
-/

namespace CodableSynthesis

/-- Why tokens could not be read. The source is not at hand where tokens are read, so a fault at the
end of the input has no place yet. -/
inductive ReadFault where
  | unexpected (expected : Expectation) (found : Token)
  | endOfInput (expected : Expectation)
  deriving DecidableEq, Repr

namespace ReadFault

/-- The fault at its place in the source the tokens were cut from: `unexpected`. -/
def toSourceError (source : List Char) : ReadFault → SourceError
  | .unexpected expected t =>
    ⟨t.span.line, t.span.column, .unexpected expected (.token t.text)⟩
  | .endOfInput expected =>
    let (line, column) := Text.endOfText source
    ⟨line, column, .endOfInput expected⟩

end ReadFault

/-- What a reader of tokens gives, the rest being shorter than `bound`. -/
abbrev Reading (α : Type) (bound : Nat) :=
  Except ReadFault (Step Token α bound)

namespace Token

/-- Reads a token of the given kind: `expect` and `expect_ident`. -/
def expect (kind : TokenKind) (expected : Expectation) (ts : List Token) :
    Reading Token ts.length :=
  match ts with
  | [] => .error (.endOfInput expected)
  | t :: rest =>
    if t.kind = kind then .ok (.past t rest) else .error (.unexpected expected t)

end Token

end CodableSynthesis
