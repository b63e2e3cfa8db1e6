import CodableSynthesis.FieldModel.Basic
import CodableSynthesis.Json.Document

/-!
The report on a field model, as a JSON document. One function for each kind of record, in the order
in which the documents nest; keys stand in the order in which they are written.
-/

namespace CodableSynthesis

/-- The report on a field. -/
def Field.report (f : Field) : Json.Document :=
  .object [
    ("identifier", .string f.identifier),
    ("declared_type", .string f.declaredType.render),
    ("is_optional", .boolean f.isOptional)]

/-- The report on a binding that is left out. -/
def SkippedMember.report (s : SkippedMember) : Json.Document :=
  .object [
    ("name", .string s.name),
    ("reason", .string s.reason.name),
    ("line", .number s.line),
    ("column", .number s.column)]

/-- The report on a constant that has a value. -/
def InitializedConstant.report (c : InitializedConstant) : Json.Document :=
  .object [
    ("name", .string c.name),
    ("line", .number c.line),
    ("column", .number c.column)]

/-- The report on a field model found at a path. Constants are reported only if there are any. -/
def FieldModel.report (path : String) (m : FieldModel) : Json.Document :=
  let constants :=
    if m.initializedConstants.isEmpty then []
    else [("initialized_constants", .list (m.initializedConstants.map (·.report)))]
  .object ([
    ("path", .string path),
    ("type_name", .string m.typeName),
    ("modifier", .string m.modifier),
    ("fields", .list (m.fields.map (·.report))),
    ("skipped", .list (m.skipped.map (·.report)))] ++ constants)

end CodableSynthesis
