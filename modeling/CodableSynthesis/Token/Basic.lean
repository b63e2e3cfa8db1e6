import CodableSynthesis.Text.Position

/-!
Tokens of Swift source text, as far as declarations need them: names, numbers and string literals
are kept whole, punctuation is told apart, and every other operator character is a token of its own.

A keyword is a name like any other; which names are keywords depends on where they stand and is for
the readers of declarations to say. Beside its text a token knows its span, whether a line break
lies in front of it and whether anything does. The last two decide what a token belongs to: a line
break may end a declaration, and parentheses, dots and angle brackets may go with what they touch.
-/

namespace CodableSynthesis

/-- The three kinds of brackets that nest. -/
inductive Bracket where
  | brace
  | parenthesis
  | square
  deriving DecidableEq, Repr

/-- What a token is. -/
inductive TokenKind where
  /-- A name or keyword, with its backticks if it has them. -/
  | ident
  | number
  | stringLiteral
  | atSign
  | pound
  | opening (bracket : Bracket)
  | closing (bracket : Bracket)
  | less
  | greater
  | colon
  | comma
  | semicolon
  | dot
  | question
  | bang
  | equals
  | ampersand
  | arrow
  /-- Any other operator character. -/
  | operator
  deriving DecidableEq, Repr

/-- A token at its place in the source. -/
structure Token where
  kind : TokenKind
  text : String
  span : Text.Span
  /-- A line break lies between the token before it, or the beginning, and this one. -/
  newlineBefore : Bool
  /-- Nothing lies between the token before it, or the beginning, and this one. The program compares
  the ends of spans instead (`next_is_adjacent`); that the two agree is part of
  `tokenize_located`. -/
  touches : Bool
  deriving DecidableEq, Repr

namespace Token

/-- Whether the token is the given word, written without backticks: `is_ident`. -/
def isWord (t : Token) (word : String) : Bool :=
  t.kind == .ident && t.text == word

/-- Whether the token is one of the given words. -/
def isWordIn (t : Token) (words : List String) : Bool :=
  t.kind == .ident && words.contains t.text

end Token

end CodableSynthesis
