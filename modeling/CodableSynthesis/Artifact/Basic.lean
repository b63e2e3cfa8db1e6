import CodableSynthesis.FieldModel.Basic

/-!
The declarations that make a class codable, as data (`emit_members`, `emit_conformance`, `emit`).

There are four of them: the enumeration of the keys, the initializer that decodes, the method that
encodes, and the extension that declares the conformance. The first three are put into the body of
the class, the last stands behind the outermost declaration around it. Each field gives one case and
one statement of either kind, in the order of the fields.

Keeping them as data separates two questions. What is generated is a function of the model, and
statements about decoding and encoding speak of it; how it is laid out is a matter of the writer.
-/

namespace CodableSynthesis

/-- How a decoding statement treats a missing value: as an error, or as nothing. -/
inductive DecodeStrategy where
  | decode
  | decodeIfPresent
  deriving DecidableEq, Repr

/-- The method of the container that a strategy calls. -/
def DecodeStrategy.method : DecodeStrategy → String
  | .decode => "decode"
  | .decodeIfPresent => "decodeIfPresent"

/-- Assigns to a property what a key of the container holds. -/
structure DecodeStatement where
  target : String
  strategy : DecodeStrategy
  type : TypeExpr
  key : String
  deriving Repr, BEq

/-- Stores the value of a property under a key of the container. -/
structure EncodeStatement where
  value : String
  key : String
  deriving DecidableEq, Repr

/-- The enumeration of the keys. -/
structure KeyEnum where
  cases : List String
  deriving DecidableEq, Repr

/-- The initializer that decodes. Its modifier is the first one of the class, so that a public class
has a public initializer. -/
structure DecodeInit where
  /-- Written in front of the initializer unless empty. -/
  modifier : String
  statements : List DecodeStatement
  deriving Repr, BEq

/-- The method that encodes. -/
structure EncodeMethod where
  /-- Written in front of the method unless empty. -/
  modifier : String
  statements : List EncodeStatement
  deriving DecidableEq, Repr

/-- An extension that declares a conformance. -/
structure Conformance where
  typeName : String
  capability : String
  deriving DecidableEq, Repr

/-- One generated declaration. -/
inductive Artifact where
  | keyEnum (e : KeyEnum)
  | decodeInit (i : DecodeInit)
  | encodeMethod (m : EncodeMethod)
  | conformance (c : Conformance)
  deriving Repr, BEq

/-- The declarations put into the body of a class. -/
structure MemberArtifacts where
  keyEnum : KeyEnum
  decodeInit : DecodeInit
  encodeMethod : EncodeMethod
  deriving Repr, BEq

/-- The name of the protocol that is synthesized, and of the attribute that asks for it. -/
def codable : String := "Codable"

/-- The name of the enumeration of keys. -/
def keyEnumName : String := "CodingKeys"

namespace Field

/-- The statement that decodes a field. The type in it is the decoded one, without the question mark
that chose the strategy. -/
def decodeStatement (f : Field) : DecodeStatement where
  target := f.identifier
  strategy := if f.isOptional then .decodeIfPresent else .decode
  type := f.decodedType
  key := f.identifier

/-- The statement that encodes a field; an optional field is encoded like any other. -/
def encodeStatement (f : Field) : EncodeStatement where
  value := f.identifier
  key := f.identifier

end Field

namespace MemberArtifacts

/-- The declarations put into a class with the given fields (`emit_members`). -/
def ofFields (fields : List Field) (modifier : String) : MemberArtifacts where
  keyEnum := ⟨fields.map (·.identifier)⟩
  decodeInit := ⟨modifier, fields.map (·.decodeStatement)⟩
  encodeMethod := ⟨modifier, fields.map (·.encodeStatement)⟩

/-- The declarations in the order they are written. -/
def toList (a : MemberArtifacts) : List Artifact :=
  [.keyEnum a.keyEnum, .decodeInit a.decodeInit, .encodeMethod a.encodeMethod]

end MemberArtifacts

/-- The extension that makes a type codable (`emit_conformance`). -/
def Conformance.ofType (typeName : String) : Conformance :=
  ⟨typeName, codable⟩

namespace FieldModel

/-- The declarations put into the class. -/
def members (m : FieldModel) : MemberArtifacts :=
  .ofFields m.fields m.modifier

/-- The extension that declares the conformance. -/
def conformance (m : FieldModel) : Conformance :=
  .ofType m.typeName

/-- All generated declarations in the order they are written (`emit`). -/
def artifacts (m : FieldModel) : List Artifact :=
  m.members.toList ++ [.conformance m.conformance]

end FieldModel

end CodableSynthesis
