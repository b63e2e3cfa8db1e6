import CodableSynthesis.Declaration.Reading
import CodableSynthesis.Expansion.Basic
import CodableSynthesis.FieldModel.Report
import CodableSynthesis.Run.Inputs
import CodableSynthesis.Run.Outcome

/-!
Running a report, as the `run` of `ModelOut` does: the field models of all annotated classes of the
inputs, as one JSON document.

The settings are not read, so a settings file that is missing or broken does not matter here. A
declaration that has no field model, because it is no class, is left out of the report; the log
tells of it, and nothing else does.
-/

namespace CodableSynthesis.Run

/-- The field models of the annotated declarations of a source; those that have none are left
out. -/
def fieldModels (source : Source) : Except Failure (List FieldModel) :=
  match CodableSynthesis.readSource source.text with
  | .error e => .error (.unparsable source.path e)
  | .ok declarations =>
    .ok ((declarations.flatMap (·.annotated)).filterMap fun (name, d) =>
      (FieldModel.extract name d).toOption)

/-- The reports on the field models of a source. -/
def reports (source : Source) : Except Failure (List Json.Document) := do
  return (← fieldModels source).map (·.report source.path)

/-- The text of the report on some inputs. -/
def reportText (lib : Library) (t : FileTree) (inputs : List String) : Except Failure String := do
  let read ← sources lib t inputs
  let entries ← read.mapM reports
  return lib.encode (.list entries.flatten)

/-- Reports on the inputs. The document ends without a line feed; only where it is printed one is
put behind it. -/
def model (lib : Library) (t : FileTree) (o : ModelOptions) : Outcome :=
  match reportText lib t o.input.inputs with
  | .error e => .failed t e
  | .ok text =>
    match o.out? with
    | none => ⟨t, text ++ "\n", "", .ok ()⟩
    | some path =>
      let (t, stored) := store t path text
      ⟨t, "", "", stored⟩

end CodableSynthesis.Run
