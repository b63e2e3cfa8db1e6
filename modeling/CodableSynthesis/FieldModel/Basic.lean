import CodableSynthesis.TypeExpr.Basic

/-!
The field model of a class: which of its properties are serialized, which are left out and why.

A model keeps everything that the synthesis needs of a class, and nothing of its source but the
places that warnings point to. Fields, omissions and initialized constants are three lists, each in
the order of the declarations. Every reason has two texts: the name that a report shows and the
wording that a warning ends with.
-/

namespace CodableSynthesis

/-- A serialized property. Its identifier is the property's name, its key's name and the key's text
at once. -/
structure Field where
  identifier : String
  /-- The type as declared, question mark included. -/
  declaredType : TypeExpr
  deriving Repr, BEq

namespace Field

/-- Whether the declared type is written with a question mark. Such a field may be missing when it
is decoded. -/
def isOptional (f : Field) : Bool :=
  f.declaredType.wrapped?.isSome

/-- The type that is decoded: the wrapped type of an optional field, else the declared one. A single
question mark is taken off: `Int??` is decoded as `Int?`. -/
def decodedType (f : Field) : TypeExpr :=
  f.declaredType.wrapped?.getD f.declaredType

end Field

/-- Why a binding is left out. -/
inductive SkipReason where
  | typeLevel
  | computed
  /-- Stored, but with observers. -/
  | observed
  | missingType
  /-- Its type is written on a later binding of the same declaration. -/
  | sharedType
  | unsupportedPattern
  /-- It is not the first binding of its declaration. -/
  | extraBinding
  deriving DecidableEq, Repr

namespace SkipReason

/-- The name of a reason in reports. -/
def name : SkipReason → String
  | .typeLevel => "type_level"
  | .computed => "computed"
  | .observed => "observed"
  | .missingType => "missing_type_annotation"
  | .sharedType => "shared_type_annotation"
  | .unsupportedPattern => "unsupported_pattern"
  | .extraBinding => "extra_binding"

/-- The wording of a reason in warnings. -/
def describe : SkipReason → String
  | .typeLevel => "static or class member"
  | .computed => "computed property"
  | .observed => "property with observers"
  | .missingType => "no explicit type annotation"
  | .sharedType =>
    "its type annotation is written on a later binding of the same declaration"
  | .unsupportedPattern => "binding is not a plain identifier"
  | .extraBinding => "only the first binding of a declaration is considered"

/-- Whether the reason is that a declaration has several bindings. These are the omissions that are
warned about: the source reads as if the property were stored like the others. -/
def isLostBinding : SkipReason → Bool
  | .extraBinding | .sharedType => true
  | _ => false

end SkipReason

/-- A binding that is left out, at its place. The name is the text of its pattern. -/
structure SkippedMember where
  name : String
  reason : SkipReason
  line : Nat
  column : Nat
  deriving DecidableEq, Repr

/-- A serialized constant that has a value already, at its place. The generated initializer assigns
it once more, which Swift refuses. -/
structure InitializedConstant where
  name : String
  line : Nat
  column : Nat
  deriving DecidableEq, Repr

/-- What is serialized of a class. -/
structure FieldModel where
  typeName : String
  /-- The first modifier of the class, empty if it has none. -/
  modifier : String
  /-- The fields in the order of their declarations. -/
  fields : List Field
  skipped : List SkippedMember
  initializedConstants : List InitializedConstant
  deriving Repr, BEq

end CodableSynthesis
