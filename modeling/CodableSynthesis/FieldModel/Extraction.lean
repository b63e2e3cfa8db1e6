import CodableSynthesis.Declaration.Basic
import CodableSynthesis.Declaration.Skipping
import CodableSynthesis.FieldModel.Basic

/-!
From a class declaration to its field model (`extract_as`).

Each member is classified on its own (`classify`): a binding by its braces, pattern and type, a
variable declaration by its first binding and its modifiers. What a declaration contributes follows
from its class; the model collects the contributions in the order of the declarations and sorts them
into its three lists. Collecting one list of contributions first keeps the relative order of fields
and omissions in one place.

Only the first binding of a declaration can become a field. The others are omissions for one reason,
whatever they bind, and bindings on the type level are one omission together.
-/

namespace CodableSynthesis

/-- What a member is to the model. The last two are kept apart: a member that is no property leaves
no trace in the model, one that cannot be modeled is reported. -/
inductive MemberClass where
  | field (f : Field)
  | computed
  | observed
  | typeLevel
  | unmodelable (reason : SkipReason)
  | notAProperty
  deriving Repr, BEq

namespace MemberClass

/-- The class of a binding by itself (`classify_binding`). Braces decide first: a property with a
getter is computed even if it is a tuple. -/
def ofBinding (b : Binding) : MemberClass :=
  match b.accessors? with
  | some (.accessors keywords) =>
    if !keywords.isEmpty && keywords.all Skipping.observerWords.contains then .observed
    else .computed
  | some .getter => .computed
  | none =>
    match b.pattern, b.type? with
    | .identifier name, some type => .field ⟨name, type⟩
    | .identifier _, none => .unmodelable .missingType
    | _, _ => .unmodelable .unsupportedPattern

/-- The class of a variable declaration (`classify_variable`): that of its first binding, unless it
is on the type level. In `let a, b: Int` the first binding has no type of its own but shares a later
one's; it is left out under a reason that says so. -/
def ofVariable (v : Variable) : MemberClass :=
  if v.isTypeLevel then .typeLevel
  else
    match ofBinding v.first with
    | .unmodelable .missingType =>
      if v.others.any (·.type?.isSome) then .unmodelable .sharedType
      else .unmodelable .missingType
    | c => c

/-- The class of a member. -/
def ofMember : Member → MemberClass
  | .variable v => ofVariable v
  | .type _ | .other .. => .notAProperty

end MemberClass

/-- What a variable declaration adds to the model. -/
inductive Contribution where
  | field (f : Field)
  | skipped (s : SkippedMember)
  | constant (c : InitializedConstant)
  deriving Repr, BEq

namespace Contribution

/-- A binding left out for a reason. -/
def skip (reason : SkipReason) (b : Binding) : Contribution :=
  .skipped ⟨b.pattern.render, reason, b.span.line, b.span.column⟩

/-- What the first binding of a declaration adds, given its class. A constant with a value is both a
field and a constant to warn about. -/
def ofFirst (v : Variable) : MemberClass → List Contribution
  | .field f =>
    if v.specifier = .let && v.first.hasInitializer then
      [.field f, .constant ⟨f.identifier, v.first.span.line, v.first.span.column⟩]
    else [.field f]
  | .computed => [skip .computed v.first]
  | .observed => [skip .observed v.first]
  | .typeLevel => [skip .typeLevel v.first]
  | .unmodelable reason => [skip reason v.first]
  | .notAProperty => []

/-- What a variable declaration adds: on the type level one entry for all bindings, otherwise one
for each. -/
def ofVariable (v : Variable) : List Contribution :=
  ofFirst v (MemberClass.ofVariable v)
    ++ if v.isTypeLevel then [] else v.others.map (skip .extraBinding)

/-- What a member adds. -/
def ofMember : Member → List Contribution
  | .variable v => ofVariable v
  | .type _ | .other .. => []

/-- The field of a contribution. -/
def field? : Contribution → Option Field
  | .field f => some f
  | _ => none

/-- The omission of a contribution. -/
def skipped? : Contribution → Option SkippedMember
  | .skipped s => some s
  | _ => none

/-- The initialized constant of a contribution. -/
def constant? : Contribution → Option InitializedConstant
  | .constant c => some c
  | _ => none

end Contribution

/-- Why a declaration has no field model. The kind decides alone; a class always has one, be it
without fields. -/
inductive ExtractionError where
  | unsupportedKind (name : String) (kind : DeclarationKind)
  deriving DecidableEq, Repr

/-- The wording of an extraction error. -/
def ExtractionError.message : ExtractionError → String
  | .unsupportedKind name kind =>
    "`" ++ name ++ "` is a " ++ kind.keyword ++ "; only classes are supported"

namespace FieldModel

/-- The field model of a class under the name its conformance is declared for: the dotted name, for
a nested class. -/
def extract (typeName : String) (d : Declaration) : Except ExtractionError FieldModel :=
  if d.heading.kind = .classType then
    let contributions := d.members.flatMap Contribution.ofMember
    .ok {
      typeName
      modifier := d.firstModifier?.getD ""
      fields := contributions.filterMap Contribution.field?
      skipped := contributions.filterMap Contribution.skipped?
      initializedConstants := contributions.filterMap Contribution.constant? }
  else .error (.unsupportedKind typeName d.heading.kind)

end FieldModel

end CodableSynthesis
