/-!
Lines and positions. Two notions of a line meet here.

A *position* counts line feeds: `Position.next` is what passing one character does to it. The
positions of all tokens are such counts, and so are the places that errors and warnings name.

The *lines* of a text are what is left between line feeds once a carriage return in front of one is
dropped as well; a line feed at the very end opens no further line. Generated members are indented
line by line in this sense (`indentLines`), and an error at the end of a source is placed behind its
last line (`endOfText`).

Offsets, lines and columns are natural numbers. The program keeps lines and columns in 32 bits, so
the two agree on sources of fewer than 2^32 lines, each of fewer than 2^32 characters; a statement
about tokens that depends on it says so.
-/

namespace CodableSynthesis.Text

/-- A line collected backwards, without a carriage return at its end. Only one is dropped. -/
def closedLine : List Char → List Char
  | '\r' :: line => line.reverse
  | line => line.reverse

/-- The lines of a text of which `line` was already read, backwards. At the end of the text a line
that was begun counts, and its carriage return, if it ends with one, stays. -/
def linesFrom (line : List Char) : List Char → List (List Char)
  | [] => if line.isEmpty then [] else [line.reverse]
  | c :: cs => if c = '\n' then closedLine line :: linesFrom [] cs else linesFrom (c :: line) cs

/-- The lines of a text, without what ends them. -/
def lines (cs : List Char) : List (List Char) :=
  linesFrom [] cs

/-- What follows the last line feed of a text: all of it if there is none. Of the text in front of a
keyword this is the line that the keyword stands in, up to it. -/
def lastLine (cs : List Char) : List Char :=
  (cs.reverse.takeWhile (· != '\n')).reverse

/-- The blanks and tabs that a text begins with. With `lastLine` this is `line_indent`. -/
def indentation (cs : List Char) : List Char :=
  cs.takeWhile fun c => c == ' ' || c == '\t'

/-- A text with `margin` in front of every line that is not empty: `indent_lines`. The lines are
joined by line feeds, and none is put behind the last. -/
def indentLines (margin : List Char) (cs : List Char) : List Char :=
  ['\n'].intercalate ((lines cs).map fun line => if line.isEmpty then [] else margin ++ line)

/-- A place between two characters of a text. The line and the column are counted without a bound,
where the program counts in 32 bits. -/
structure Position where
  /-- The bytes before it. -/
  offset : Nat
  /-- Its line, counted from one. -/
  line : Nat
  /-- One more than the characters between the last line feed and it. Characters are counted, not
  bytes and not what a reader sees as one. -/
  column : Nat
  deriving DecidableEq, Repr

namespace Position

/-- The place before the first character. -/
def start : Position := ⟨0, 1, 1⟩

/-- The place behind one more character. A carriage return is a character like any other. -/
def next (p : Position) (c : Char) : Position :=
  if c = '\n' then ⟨p.offset + c.utf8Size, p.line + 1, 1⟩
  else ⟨p.offset + c.utf8Size, p.line, p.column + 1⟩

/-- The place behind some more characters. -/
def advance (p : Position) (cs : List Char) : Position :=
  cs.foldl next p

@[simp] theorem advance_nil (p : Position) : p.advance [] = p := rfl

@[simp] theorem advance_cons (p : Position) (c : Char) (cs : List Char) :
    p.advance (c :: cs) = (p.next c).advance cs := rfl

/-- Passing over a text is passing over its parts, one after the other. So a position is determined
by the text in front of it, whichever way that is split into gaps and tokens. -/
@[simp] theorem advance_append (p : Position) (front back : List Char) :
    p.advance (front ++ back) = (p.advance front).advance back := by
  simp [advance, List.foldl_append]

end Position

/-- The line and column just behind the last line of a text, where an error is placed that is found
at the end of the tokens (`eof_position`). A line feed at the very end opens no further line. -/
def endOfText (cs : List Char) : Nat × Nat :=
  match (lines cs).getLast? with
  | none => (1, 1)
  | some line => ((lines cs).length, line.length + 1)

/-- A stretch of source text: its byte offsets, the end excluded, and where it begins. The line and
the column are natural numbers here and of 32 bits in the program; offsets are of the width of an
address there. -/
structure Span where
  start : Nat
  stop : Nat
  line : Nat
  column : Nat
  deriving DecidableEq, Repr

namespace Span

/-- The stretch between two positions. -/
def between (first last : Position) : Span :=
  ⟨first.offset, last.offset, first.line, first.column⟩

/-- The stretch from the beginning of one span to the end of another. It begins in the line and
column of the first. -/
def cover (first last : Span) : Span :=
  { first with stop := last.stop }

end Span

end CodableSynthesis.Text
