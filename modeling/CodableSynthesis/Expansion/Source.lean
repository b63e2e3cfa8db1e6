import CodableSynthesis.Declaration.Reading
import CodableSynthesis.Expansion.Basic
import CodableSynthesis.Text.Bytes
import CodableSynthesis.Text.CodePoint

/-!
Rewriting a source text. Main function: `expandSource`, from a source text and an indentation width
to the expanded text, the number of declarations that got members, and the warnings.

The text is changed by *edits*: a stretch of bytes, and the text that takes its place. Three kinds
occur. `Edit.removal` takes an expanded attribute out with the white space behind it;
`Edit.insertion` puts generated members in front of the closing brace of a body, in place of the
white space there; `Edit.extension` puts extensions behind the outermost declaration. What no edit
covers is copied.

`Declaration.edits` walks a declaration and lists its edits in the order of the text: attributes
first, then the edits of nested types, then its own members at the end of the body. So they can be
made in one pass (`Edit.applyAll`). The program collects the edits declaration by declaration and
sorts them by their bounds before it makes them (`expand_source`, `apply_edits`); as the edits of a
source that was read never overlap, both orders are the same.
-/

namespace CodableSynthesis

/-- The replacement of the bytes from `start` up to `stop`. Bounds are byte offsets into the source
before any edit. -/
structure Edit where
  start : Nat
  stop : Nat
  text : List Char
  deriving DecidableEq, Repr

namespace Edit

/-- Makes the given edits, which are in the order of the text, in what remains of it behind byte
`offset`: copy up to the edit, put its text, go on behind it. -/
def applyFrom (offset : Nat) (remaining : List Char) : List Edit → List Char
  | [] => remaining
  | e :: edits =>
    Text.takeBytes (e.start - offset) remaining ++ e.text
      ++ applyFrom e.stop (Text.dropBytes (e.stop - offset) remaining) edits

/-- Makes the given edits, which are in the order of the text (`apply_edits`, once sorted). -/
def applyAll (edits : List Edit) (source : List Char) : List Char :=
  applyFrom 0 source edits

/-- Takes an attribute out, with the white space behind it (`attribute_removal`). Comments behind it
stay, and so does what is in front of it. -/
def removal (source : List Char) (span : Text.Span) : Edit :=
  let space := Text.leadingSpace (Text.dropBytes span.stop source)
  ⟨span.start, span.stop + Text.byteLength space, []⟩

/-- The text of generated members for a body that is indented by `margin`: one blank line between
them, and one in front of them unless the body is empty. Each member is indented line by line, one
level deeper than the margin (`indent_lines`); the text ends with the margin, on which the closing
brace is left standing. -/
def memberText (margin : List Char) (indentWidth : Nat) (bodyIsEmpty : Bool)
    (members : List String) : List Char :=
  let inner := margin ++ List.replicate indentWidth ' '
  (if bodyIsEmpty then ['\n'] else ['\n', '\n'])
    ++ ['\n', '\n'].intercalate (members.map fun m => Text.indentLines inner m.toList)
    ++ ['\n'] ++ margin

/-- Puts generated members at the end of the body of a declaration, in place of the white space
there (`member_insertion`). The margin is that of the line on which the keyword of the declaration
stands (`line_indent`), not that of its closing brace; the body counts as empty if it is white space
only. -/
def insertion (source : List Char) (indentWidth : Nat) (d : Declaration) (members : List String) :
    Edit :=
  let content := Text.trimEnd (Text.slice d.opener.stop d.closer.start source)
  let line := Text.lastLine (Text.takeBytes d.heading.keyword.start source)
  ⟨d.opener.stop + Text.byteLength content, d.closer.start,
   memberText (Text.indentation line) indentWidth content.isEmpty members⟩

/-- Puts extensions behind a declaration, each behind a blank line. There is one such edit for a
declaration at the top of a file, and all extensions within go into it. -/
def extension (d : Declaration) (extensions : List String) : Edit :=
  ⟨d.stop, d.stop, extensions.flatMap fun e => '\n' :: '\n' :: e.toList⟩

end Edit

namespace Declaration

mutual

/-- The edits within a declaration named `name`: its attributes, the types nested in it, and its own
generated members. This is the order of the text. -/
def edits (source : List Char) (w : Writer) (name : String) : Declaration → List Edit
  | ⟨heading, members, opener, closer⟩ =>
    let d : Declaration := ⟨heading, members, opener, closer⟩
    let expansion := d.expand w name
    expansion.attributes.map (Edit.removal source)
      ++ editsIn source w name members
      ++ if expansion.members.isEmpty then []
        else [Edit.insertion source w.indentWidth d expansion.members]

/-- The edits within the members of a type named `name`. -/
def editsIn (source : List Char) (w : Writer) (name : String) : List Member → List Edit
  | [] => []
  | .type d :: members =>
    edits source w (name ++ "." ++ d.heading.name) d ++ editsIn source w name members
  | .variable _ :: members => editsIn source w name members
  | .other .. :: members => editsIn source w name members

end

/-- The expansions of the annotated declarations of a declaration at the top of a file. -/
def expansions (w : Writer) (d : Declaration) : List Expansion :=
  d.annotated.map fun (name, annotated) => annotated.expand w name

/-- The edits of a declaration at the top of a file: those within it, and its extensions. -/
def allEdits (source : List Char) (w : Writer) (d : Declaration) : List Edit :=
  let extensions := (d.expansions w).flatMap (·.extensions)
  d.edits source w d.heading.name
    ++ if extensions.isEmpty then [] else [Edit.extension d extensions]

end Declaration

/-- An expanded source text. -/
structure ExpandedSource where
  source : String
  /-- How many declarations were given members. -/
  expanded : Nat
  diagnostics : List Diagnostic
  deriving DecidableEq, Repr

/-- Expands the attributes of every type declaration of a source text and leaves everything else as
it is (`expand_source`). It fails only where the source cannot be read. -/
def expandSource (source : String) (indentWidth : Nat) : Except SourceError ExpandedSource := do
  let declarations ← readSource source
  let text := source.toList
  let w := Writer.new indentWidth
  let expansions := declarations.flatMap (·.expansions w)
  let edits := declarations.flatMap (·.allEdits text w)
  return {
    source := String.ofList (Edit.applyAll edits text)
    expanded := expansions.countP fun e => !e.members.isEmpty
    diagnostics := expansions.flatMap (·.diagnostics) }

end CodableSynthesis
