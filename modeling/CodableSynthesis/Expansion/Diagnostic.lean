import CodableSynthesis.FieldModel.Extraction

/-!
The attributes that are expanded, and the warnings of an expansion with their wording.

A warning is data: it names what it is about, and `Warning.message` words it. A diagnostic is a
warning and a place in the source, which is printed behind the path of the file. Warnings never stop
an expansion; what cannot be read at all is an error (`SourceError`).
-/

namespace CodableSynthesis

/-- The attributes that are expanded, as they are registered. -/
inductive Capability where
  | codable
  deriving DecidableEq, Repr

namespace Capability

/-- All of them. -/
def all : List Capability :=
  [.codable]

/-- The name of the attribute, and of the conformance it stands for. -/
def name : Capability → String
  | .codable => "Codable"

/-- The capability with the given name (`lookup`). Attributes of any other name are left in the
source untouched. -/
def named? (name : String) : Option Capability :=
  all.find? (·.name == name)

end Capability

/-- What an expansion warns about. -/
inductive Warning where
  /-- The attribute stands on a declaration that has no field model. -/
  | unsupported (capability : Capability) (error : ExtractionError)
  /-- A binding of a declaration with several bindings is left out. -/
  | notSerialized (name : String) (reason : SkipReason)
  /-- A constant that has a value is assigned again. -/
  | assignedAgain (name : String)
  /-- The class declares by itself what the extension declares. -/
  | repeatedConformance (typeName inherited : String)
  deriving DecidableEq, Repr

/-- The wording of a warning. -/
def Warning.message : Warning → String
  | .unsupported capability error => "@" ++ capability.name ++ ": " ++ error.message
  | .notSerialized name reason => "`" ++ name ++ "` is not serialized: " ++ reason.describe
  | .assignedAgain name =>
    "`" ++ name ++ "` is a `let` with an initial value; init(from:) assigns it again"
  | .repeatedConformance typeName inherited =>
    "`" ++ typeName ++ "` already conforms to `" ++ inherited
      ++ "`; the generated extension repeats it"

/-- A warning and the line and column it is about. -/
structure Diagnostic where
  line : Nat
  column : Nat
  warning : Warning
  deriving DecidableEq, Repr

namespace Diagnostic

/-- A warning about the beginning of a span. -/
def atSpan (span : Text.Span) (warning : Warning) : Diagnostic :=
  ⟨span.line, span.column, warning⟩

/-- The wording of a diagnostic. -/
def message (d : Diagnostic) : String :=
  d.warning.message

end Diagnostic

end CodableSynthesis
