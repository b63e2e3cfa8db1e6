import CodableSynthesis.Text.Bytes
import CodableSynthesis.Text.Quoted

/-!
Why a JSON document cannot be read as what is wanted, and where.

There are three kinds of causes: a document that ends too early, one that breaks the grammar, and
one that is well-formed but not what was asked for. Each is data, with one function that words it.

A reader reports a failure in terms of the text it had left, which it knows anyway;
`Failure.inDocument` gives it the line and column in the whole document, and the way to the value
that failed is collected on the way out (`Failure.within`).
-/

namespace CodableSynthesis.Json

/-- What a document ends within. -/
inductive Unfinished where
  | value
  | object
  | list
  | string
  deriving DecidableEq, Repr

/-- How a document breaks the grammar. -/
inductive Malformation where
  | noValue
  | noIdentifier
  | noColon
  | noCommaOrBrace
  | noCommaOrBracket
  | invalidNumber
  | numberOutOfRange
  | invalidEscape
  | halfSurrogatePair
  | loneSurrogate
  | controlCharacter
  | keyNotString
  | trailingComma
  | trailingCharacters
  deriving DecidableEq, Repr

/-- What a value turns out to be. -/
inductive Found where
  | null
  | boolean (b : Bool)
  | integer (n : Int)
  /-- A number that is no integer, or none of 64 bits, by its decimal text. -/
  | floating (text : String)
  | string (s : String)
  | sequence
  | map
  deriving DecidableEq, Repr

/-- What a value is wanted to be. -/
inductive Wanted where
  | count
  | string
  | settings
  | sequence
  | map
  deriving DecidableEq, Repr

/-- How a document that keeps the grammar is not what is wanted. -/
inductive Misfit where
  | type (found : Found) (wanted : Wanted)
  /-- A value of a type that would do, but not that value. -/
  | value (found : Found) (wanted : Wanted)
  | unknownField (name : String) (known : List String)
  | repeatedField (name : String)
  deriving DecidableEq, Repr

/-- Why a document cannot be read. -/
inductive Cause where
  | unfinished (u : Unfinished)
  | malformed (m : Malformation)
  | misfit (m : Misfit)
  deriving DecidableEq, Repr

/-- The wording of an end within something. -/
def Unfinished.message (u : Unfinished) : String :=
  "EOF while parsing " ++
    match u with
    | .value => "a value"
    | .object => "an object"
    | .list => "a list"
    | .string => "a string"

/-- The wording of a breach of the grammar. -/
def Malformation.message : Malformation → String
  | .noValue => "expected value"
  | .noIdentifier => "expected ident"
  | .noColon => "expected " ++ Text.ticked ":"
  | .noCommaOrBrace => "expected " ++ Text.ticked "," ++ " or " ++ Text.ticked "\x7d"
  | .noCommaOrBracket => "expected " ++ Text.ticked "," ++ " or " ++ Text.ticked "]"
  | .invalidNumber => "invalid number"
  | .numberOutOfRange => "number out of range"
  | .invalidEscape => "invalid escape"
  | .halfSurrogatePair => "unexpected end of hex escape"
  | .loneSurrogate => "lone leading surrogate in hex escape"
  | .controlCharacter => "control character (\\u0000-\\u001F) found while parsing a string"
  | .keyNotString => "key must be a string"
  | .trailingComma => "trailing comma"
  | .trailingCharacters => "trailing characters"

/-- How what was found is named in a message. -/
def Found.describe : Found → String
  | .null => "null"
  | .boolean b => "boolean " ++ Text.ticked (toString b)
  | .integer n => "integer " ++ Text.ticked (toString n)
  | .floating text => "floating point " ++ Text.ticked text
  | .string s => "string " ++ Text.quoted s
  | .sequence => "sequence"
  | .map => "map"

/-- How what was wanted is named in a message. -/
def Wanted.describe : Wanted → String
  | .count => "usize"
  | .string => "a string"
  | .settings => "struct Settings"
  | .sequence => "a sequence"
  | .map => "a map"

/-- The wording of a misfit. -/
def Misfit.message : Misfit → String
  | .type found wanted => "invalid type: " ++ found.describe ++ ", expected " ++ wanted.describe
  | .value found wanted => "invalid value: " ++ found.describe ++ ", expected " ++ wanted.describe
  | .unknownField name known =>
    "unknown field " ++ Text.ticked name ++ ", expected "
      ++ " or ".intercalate (known.map Text.ticked)
  | .repeatedField name => "duplicate field " ++ Text.ticked name

/-- The wording of a cause. -/
def Cause.message : Cause → String
  | .unfinished u => u.message
  | .malformed m => m.message
  | .misfit m => m.message

/-- One step on the way to a value in a document. -/
inductive Segment where
  | item (index : Nat)
  | key (name : String)
  /-- A member whose key was not read. -/
  | unknown
  deriving DecidableEq, Repr

/-- Some steps on the way to a value, `joint` standing in front of a key. -/
def Segment.trail (joint : String) : List Segment → String
  | [] => ""
  | .item index :: more => "[" ++ toString index ++ "]" ++ trail "." more
  | .key name :: more => joint ++ name ++ trail "." more
  | .unknown :: more => joint ++ "?" ++ trail "." more

/-- The way to a value, from the root, which is a dot. -/
def Segment.path (steps : List Segment) : String :=
  if steps.isEmpty then "." else trail "" steps

/-- A failure to read: on the way `path`, with `remaining` still to be read, and noticed `ahead`
bytes into it. Some failures are noticed by a byte that was looked at, some behind one that was
read. -/
structure Failure where
  path : List Segment
  cause : Cause
  remaining : List Char
  ahead : Nat
  deriving DecidableEq, Repr

namespace Failure

/-- The failure seen from one step further out. -/
def within (step : Segment) (f : Failure) : Failure :=
  { f with path := step :: f.path }

/-- A failure just where the rest begins. -/
def here (cause : Cause) (remaining : List Char) : Failure :=
  ⟨[], cause, remaining, 0⟩

/-- A failure over the first byte of the rest. -/
def onNext (cause : Cause) (remaining : List Char) : Failure :=
  ⟨[], cause, remaining, 1⟩

/-- The failure of a document that ends. -/
def ended (u : Unfinished) : Failure :=
  ⟨[], .unfinished u, [], 0⟩

end Failure

/-- The line and the number of bytes in it, after the first `n` bytes of a text that begins in a
given line behind a given number of bytes. Unlike the columns of a source, these columns count
bytes. -/
def placeAfter (line column : Nat) : Nat → List Char → Nat × Nat
  | 0, _ => (line, column)
  | _ + 1, [] => (line, column)
  | n + 1, c :: cs =>
    if c = '\n' then placeAfter (line + 1) 0 n cs
    else placeAfter line (column + min (n + 1) c.utf8Size) (n + 1 - c.utf8Size) cs

/-- Why and where a document cannot be read. -/
structure Error where
  path : List Segment
  cause : Cause
  line : Nat
  /-- The bytes of the line before the place. -/
  column : Nat
  deriving DecidableEq, Repr

namespace Error

/-- The cause and its position. -/
def detail (e : Error) : String :=
  e.cause.message ++ " at line " ++ toString e.line ++ " column " ++ toString e.column

/-- The way to the value that fails, with the cause and its position. -/
def message (e : Error) : String :=
  "at JSON path " ++ Segment.path e.path ++ " → " ++ e.detail

end Error

/-- A failure at its position in the document. What was read is what the document has more than what
remains. -/
def Failure.inDocument (document : List Char) (f : Failure) : Error :=
  let read := Text.byteLength document - Text.byteLength f.remaining + f.ahead
  let (line, column) := placeAfter 1 0 read document
  ⟨f.path, f.cause, line, column⟩

/-- What a reader makes of a whole document, as `from_str_with_path` tells it: a failure with the
way to the value that fails. -/
def fromDocument {α : Type} (reader : List Char → Except Failure α) (document : String) :
    Except Error α :=
  (reader document.toList).mapError (Failure.inDocument document.toList)

end CodableSynthesis.Json
