import CodableSynthesis.Artifact.Basic

/-!
Writing generated declarations as Swift text, line by line (`Codegen`).

A writer separates its lines by line feeds, so that its first line begins the text and the last one
does not end with a line feed, and indents each by the depth of the blocks open. Blocks are opened
and closed in pairs by `block`; the depth is a natural number, and closing at depth zero leaves it
at zero.

What a declaration consists of is said once, by its header and its body (`Artifact.header`,
`Artifact.body`); the writer lays any of them out in the same way.
-/

namespace CodableSynthesis

/-- A text under construction: the lines so far, how many blocks are open, and how many blanks a
block indents by. -/
structure Writer where
  text : String
  depth : Nat
  indentWidth : Nat
  deriving DecidableEq, Repr

namespace Writer

/-- The indentation width if none is asked for. -/
def defaultIndentWidth : Nat := 4

/-- A writer without text. -/
def new (indentWidth : Nat) : Writer :=
  ⟨"", 0, indentWidth⟩

/-- A writer without text and with the same settings. Each generated declaration is rendered by one
of its own, so that none depends on those before it. -/
def fork (w : Writer) : Writer :=
  new w.indentWidth

/-- Some blanks. -/
def blanks (n : Nat) : String :=
  String.ofList (List.replicate n ' ')

/-- Adds a line. A line feed goes in front of every line but the first one of the text. -/
def line (w : Writer) (content : String) : Writer :=
  { w with
    text := w.text ++ (if w.text.isEmpty then "" else "\n") ++ blanks (w.depth * w.indentWidth)
      ++ content }

/-- Adds the line that opens a block, and goes one level deeper. -/
def openBlock (w : Writer) (header : String) : Writer :=
  let w := w.line (header ++ " \x7b")
  { w with depth := w.depth + 1 }

/-- Adds the line that closes a block, one level up. -/
def closeBlock (w : Writer) : Writer :=
  line { w with depth := w.depth - 1 } "\x7d"

/-- Adds a block of lines. -/
def block (w : Writer) (header : String) (lines : List String) : Writer :=
  (lines.foldl line (w.openBlock header)).closeBlock

end Writer

/-- A modifier in front of what it modifies. The empty modifier stands for none. -/
def modified (modifier declaration : String) : String :=
  if modifier.isEmpty then declaration else modifier ++ " " ++ declaration

/-- The line of a decoding statement. -/
def DecodeStatement.line (s : DecodeStatement) : String :=
  s.target ++ " = try container." ++ s.strategy.method ++ "(" ++ s.type.render ++ ".self, forKey: ."
    ++ s.key ++ ")"

/-- The line of an encoding statement. -/
def EncodeStatement.line (s : EncodeStatement) : String :=
  "try container.encode(" ++ s.value ++ ", forKey: ." ++ s.key ++ ")"

namespace Artifact

/-- What stands in front of the opening brace of a declaration. -/
def header : Artifact → String
  | .keyEnum _ => "enum " ++ keyEnumName ++ ": String, CodingKey"
  | .decodeInit i => modified i.modifier "required init(from decoder: Decoder) throws"
  | .encodeMethod m => modified m.modifier "func encode(to encoder: Encoder) throws"
  | .conformance c => "extension " ++ c.typeName ++ ": " ++ c.capability

/-- The lines between the braces of a declaration. -/
def body : Artifact → List String
  | .keyEnum e => e.cases.map ("case " ++ ·)
  | .decodeInit i =>
    ("let container = try decoder.container(keyedBy: " ++ keyEnumName ++ ".self)")
      :: i.statements.map (·.line)
  | .encodeMethod m =>
    ("var container = encoder.container(keyedBy: " ++ keyEnumName ++ ".self)")
      :: m.statements.map (·.line)
  | .conformance _ => []

end Artifact

namespace Writer

/-- Adds a declaration. -/
def emit (w : Writer) (a : Artifact) : Writer :=
  w.block a.header a.body

/-- The text of a declaration on its own, under the settings of the writer. It begins at the margin;
the source it goes into indents it (`Edit.memberText`). -/
def render (w : Writer) (a : Artifact) : String :=
  (w.fork.emit a).text

end Writer

end CodableSynthesis
