import CodableSynthesis.Artifact.Writer
import CodableSynthesis.Json.Container
import CodableSynthesis.Path

/-!
The settings of an expansion, where they put its result, and how they are read.

A settings file holds one JSON document: an object, whose members may come in any order, or an array
of the values in the order of `Settings`. What is left out keeps its default, but a member with an
unknown name is refused, and so is one that is there twice. Only the first value of a document is
read; whatever stands behind it is not looked at.

`Settings.ofJson` is `from_json`. It reads a document as the library for JSON does that the program
relies on. The runs do not depend on how it goes about that: they take a reader of settings as a
parameter, see `Run.Library`.
-/

namespace CodableSynthesis

/-- What can be set. -/
structure Settings where
  /-- Blanks for each level of generated code. -/
  indentWidth : Nat := Writer.defaultIndentWidth
  /-- What is put between the stem of an output file's name and its extension. -/
  outputSuffix : String := ""
  deriving DecidableEq, Repr

namespace Settings

/-- Where the expansion of an input goes, by `output_path`: into the directory, under the name of
the input with the suffix behind its stem. An input without a file name, such as `..`, gives a name
that consists of the suffix alone. -/
def outputPath (s : Settings) (directory input : String) : String :=
  let extension :=
    match Path.extension? input.toList with
    | some extension => '.' :: extension
    | none => []
  let name := (Path.stem? input.toList).getD [] ++ s.outputSuffix.toList ++ extension
  String.ofList (Path.join directory.toList name)

/-! ### Reading -/

/-- The settings of an object whose members are being read. -/
structure Draft where
  indentWidth? : Option Nat := none
  outputSuffix? : Option String := none
  deriving DecidableEq, Repr

/-- The name of the indentation width in a document. -/
def indentWidthKey : String := "indent_width"

/-- The name of the output suffix in a document. -/
def outputSuffixKey : String := "output_suffix"

/-- The settings with their defaults where nothing was read. -/
def Draft.settings (d : Draft) : Settings where
  indentWidth := d.indentWidth?.getD ({} : Settings).indentWidth
  outputSuffix := d.outputSuffix?.getD ({} : Settings).outputSuffix

/-- Refuses a key that is unknown or that was read already. -/
def Draft.accept (d : Draft) (key : String) : Except Json.Misfit Unit :=
  if key = indentWidthKey then
    if d.indentWidth?.isSome then .error (.repeatedField key) else .ok ()
  else if key = outputSuffixKey then
    if d.outputSuffix?.isSome then .error (.repeatedField key) else .ok ()
  else .error (.unknownField key [indentWidthKey, outputSuffixKey])

/-- Reads the value of a key that was accepted: what is not the one is the other. -/
def Draft.readMember (d : Draft) (key : String) (cs : List Char) :
    Except Json.Failure (Step Char Draft cs.length) := do
  if key = indentWidthKey then
    return (← Json.readCount cs).map fun n => { d with indentWidth? := some n }
  else
    return (← Json.readString cs).map fun s => { d with outputSuffix? := some s }

/-- Reads settings from the values of an array, behind its bracket. The array may end early, but may
not go on. -/
def readValues (cs : List Char) : Except Json.Failure (Step Char Settings (cs.length + 1)) := do
  match ← Json.nextItem true cs with
  | ⟨false, rest, h⟩ => return ⟨{}, rest, h⟩
  | ⟨true, first, _⟩ =>
    let ⟨width, rest, _⟩ ← (Json.readCount first).mapError (.within (.item 0))
    match ← Json.nextItem false rest with
    | ⟨false, rest, _⟩ => return ⟨{ indentWidth := width }, rest, by omega⟩
    | ⟨true, second, _⟩ =>
      let ⟨suffix, rest, _⟩ ← (Json.readString second).mapError (.within (.item 1))
      let ⟨_, rest, _⟩ ← Json.endItems rest
      return ⟨⟨width, suffix⟩, rest, by omega⟩

/-- Reads settings, whichever of the two forms they have. -/
def read (cs : List Char) : Except Json.Failure (Step Char Settings cs.length) :=
  match Json.behindBlanks cs with
  | ⟨_, [], _⟩ => .error (.ended .value)
  | ⟨_, '[' :: rest, _⟩ => do
    return (← readValues rest).widen (by simp only [List.length_cons] at *; omega)
  | ⟨_, '\x7b' :: rest, _⟩ => do
    let draft ← Json.readMembers Draft.accept Draft.readMember true {} rest
    return (draft.map Draft.settings).widen (by simp only [List.length_cons] at *; omega)
  | ⟨_, c :: rest, _⟩ => .error (Json.refusal .settings (c :: rest))

/-- The settings in a document, as `from_json` reads them. -/
def ofJson (document : String) : Except Json.Error Settings :=
  Json.fromDocument (fun cs => do return (← read cs).value) document

end Settings

end CodableSynthesis
