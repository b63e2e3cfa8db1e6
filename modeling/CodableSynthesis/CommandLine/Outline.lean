import CodableSynthesis.CommandLine.Request
import CodableSynthesis.Text.Position
import CodableSynthesis.Text.Quoted

/-!
Showing a request: an outline of what it consists of, one part a line, each level further in. This
is all that a run does which is only to show its options (`no_op`).

The names in an outline are those of the records and variants that the program keeps its arguments
in, and an option that is missing is shown as such.
-/

namespace CodableSynthesis

/-- An outline of a value: a tree whose leaves are texts. -/
inductive Outline where
  | atom (text : String)
  /-- A name with parts that have names. -/
  | record (name : String) (parts : List (String × Outline))
  /-- A name with a single part. -/
  | wrapped (name : String) (part : Outline)
  | list (parts : List Outline)

namespace Outline

/-- Parts between brackets, each on lines of its own and with a comma behind it. A part of several
lines is indented as a whole. -/
def bracketed (opening : String) (parts : List String) (closing : String) : String :=
  let margin := List.replicate 4 ' '
  let shown := parts.map fun part =>
    String.ofList (Text.indentLines margin (part.toList ++ [','])) ++ "\n"
  opening ++ "\n" ++ String.join shown ++ closing

mutual

/-- The text of an outline. An empty list takes no lines of its own. -/
def render : Outline → String
  | atom text => text
  | record name parts => bracketed (name ++ " \x7b") (renderFields parts) "\x7d"
  | wrapped name part => bracketed (name ++ "(") [render part] ")"
  | list parts => if parts.isEmpty then "[]" else bracketed "[" (renderAll parts) "]"

/-- The texts of some outlines. -/
def renderAll : List Outline → List String
  | [] => []
  | part :: more => render part :: renderAll more

/-- The texts of some outlines behind their names. -/
def renderFields : List (String × Outline) → List String
  | [] => []
  | (name, part) :: more => (name ++ ": " ++ render part) :: renderFields more

end

/-- The outline of a number. -/
def ofNat (n : Nat) : Outline :=
  atom (toString n)

/-- The outline of a truth value. -/
def ofBool (b : Bool) : Outline :=
  atom (toString b)

/-- The outline of a text. -/
def ofString (s : String) : Outline :=
  atom (Text.quoted s)

/-- The outline of what may be missing. -/
def ofOption {α : Type} (f : α → Outline) : Option α → Outline
  | none => atom "None"
  | some a => wrapped "Some" (f a)

end Outline

/-- The outline of the options for inputs. -/
def InputOptions.outline (o : InputOptions) : Outline :=
  .record "InputSettings" [
    ("input", .list (o.inputs.map .ofString)),
    ("config", .ofOption .ofString o.config?),
    ("indent_width", .ofOption .ofNat o.indentWidth?)]

/-- The outline of a command. -/
def Command.outline : Command → Outline
  | .expand o => .wrapped "Expand" (.record "ExpandOut" [
    ("input_settings", o.input.outline),
    ("out", .ofOption .ofString o.out?),
    ("check", .ofBool o.check),
    ("deny_warnings", .ofBool o.denyWarnings),
    ("no_op", .ofBool o.noOp)])
  | .model o => .wrapped "Model" (.record "ModelOut" [
    ("input_settings", o.input.outline),
    ("out", .ofOption .ofString o.out?),
    ("no_op", .ofBool o.noOp)])

/-- The outline of a request. -/
def Request.outline (r : Request) : Outline :=
  .record "CommandLineInterface" [
    ("verbose", .ofNat r.verbosity),
    ("cmd", r.command.outline)]

end CodableSynthesis
