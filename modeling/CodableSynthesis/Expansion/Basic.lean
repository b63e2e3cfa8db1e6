import CodableSynthesis.Artifact.Writer
import CodableSynthesis.Expansion.Diagnostic

/-!
Expanding the attributes of one declaration: the texts that go into its body, the extensions that go
behind it, and what there is to warn about (`expand_declaration`).

Every attribute of a known name is expanded on its own, one after the other, and the results are put
together in order. Declaring an attribute twice therefore generates everything twice; nothing here
looks at the expansions before it. A declaration without a field model keeps its attribute's removal
and a warning, and gets nothing else.

Which declarations of a file are expanded is said by `annotated`: those that carry a known
attribute, outer before inner, each with its dotted name.
-/

namespace CodableSynthesis

/-- What the attributes of a declaration expand to. The texts are finished declarations at the
margin; where they go, and how they are indented there, is settled when the source is rewritten. -/
structure Expansion where
  /-- Declarations for the body. -/
  members : List String
  /-- Declarations for the top level. -/
  extensions : List String
  /-- The attributes that were expanded. -/
  attributes : List Text.Span
  diagnostics : List Diagnostic
  deriving Repr

namespace Expansion

/-- The expansion of nothing. -/
def none : Expansion :=
  ⟨[], [], [], []⟩

/-- One expansion behind another, each of the four lists on its own. -/
def append (a b : Expansion) : Expansion :=
  ⟨a.members ++ b.members, a.extensions ++ b.extensions, a.attributes ++ b.attributes,
   a.diagnostics ++ b.diagnostics⟩

instance : Append Expansion := ⟨append⟩

end Expansion

/-- The protocols that a codable class need not be declared to conform to. -/
def codingProtocols : List String :=
  ["Codable", "Decodable", "Encodable"]

/-- The coding protocol that an inherited type names: its last path component. Only a path names
one; a composition that contains one, or a type behind an attribute, does not. -/
def TypeExpr.codingProtocol? : TypeExpr → Option String
  | .named path => (path.getLast?.map (·.name)).filter codingProtocols.contains
  | _ => Option.none

namespace FieldModel

/-- What there is to warn about in a field model: bindings lost from a declaration of several, then
constants that are assigned again. -/
def diagnostics (m : FieldModel) : List Diagnostic :=
  (m.skipped.filter (·.reason.isLostBinding)).map
      (fun s => ⟨s.line, s.column, .notSerialized s.name s.reason⟩)
    ++ m.initializedConstants.map (fun c => ⟨c.line, c.column, .assignedAgain c.name⟩)

end FieldModel

namespace Declaration

/-- The warning about a conformance that the declaration states by itself. It names the first one
stated, in the wording of the source. -/
def repeatedConformance (d : Declaration) (typeName : String) : List Diagnostic :=
  match d.heading.inherited.findSome? (·.codingProtocol?) with
  | some inherited => [.atSpan d.heading.keyword (.repeatedConformance typeName inherited)]
  | none => []

/-- What one attribute on a declaration expands to (`expand_members` and `expand_extensions`
together). The attribute is taken out of the source even where nothing can be generated. -/
def expandAttribute (w : Writer) (capability : Capability) (a : Attribute) (d : Declaration)
    (typeName : String) : Expansion :=
  match FieldModel.extract typeName d with
  | .error e =>
    ⟨[], [], [a.span], [.atSpan d.heading.keyword (.unsupported capability e)]⟩
  | .ok model =>
    ⟨model.members.toList.map w.render, [w.render (.conformance model.conformance)],
     [a.span], model.diagnostics ++ d.repeatedConformance typeName⟩

/-- What the attributes on a declaration expand to. -/
def expand (w : Writer) (d : Declaration) (typeName : String) : Expansion :=
  d.heading.attributes.foldl
    (fun expansion a =>
      match Capability.named? (Attribute.simpleName a.name) with
      | some capability => expansion ++ d.expandAttribute w capability a typeName
      | none => expansion)
    Expansion.none

/-- Whether one of the attributes on a declaration is expanded. -/
def isAnnotated (d : Declaration) : Bool :=
  d.heading.attributes.any fun a => (Capability.named? (Attribute.simpleName a.name)).isSome

mutual

/-- The annotated declarations among a declaration named `name` and the types nested in it, outer
before inner, each with its dotted name (`annotated_within`). -/
def annotatedAs (name : String) : Declaration → List (String × Declaration)
  | ⟨heading, members, opener, closer⟩ =>
    let d : Declaration := ⟨heading, members, opener, closer⟩
    (if d.isAnnotated then [(name, d)] else []) ++ annotatedIn name members

/-- The annotated declarations among the members of a type named `name`. -/
def annotatedIn (name : String) : List Member → List (String × Declaration)
  | [] => []
  | .type d :: members => annotatedAs (name ++ "." ++ d.heading.name) d ++ annotatedIn name members
  | .variable _ :: members => annotatedIn name members
  | .other .. :: members => annotatedIn name members

end

/-- The annotated declarations of a declaration at the top of a file. -/
def annotated (d : Declaration) : List (String × Declaration) :=
  annotatedAs d.heading.name d

end Declaration

end CodableSynthesis
