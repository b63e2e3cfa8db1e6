import CodableSynthesis.Declaration.Attribute
import CodableSynthesis.TypeExpr.Basic

/-!
The declarations of a Swift source file, as far as the synthesis asks about them.

Type declarations and variable declarations are kept with their names, attributes, modifiers and
places. Every other member, a function, a case, a whole conditional block, is kept as its keyword
and its place, since all that matters of it is where it ends.

A declaration keeps where its keyword and its two braces stand: the attribute before the keyword is
taken out, the members go in front of the closing brace, and extensions go behind it. Dotted names
of nested types are not kept; they are built on the way down (`annotatedAs`, `editsIn`).
-/

namespace CodableSynthesis

/-- The kinds of type declarations. Members are generated for classes only; the other kinds are told
apart for the sake of the message that says so. -/
inductive DeclarationKind where
  | classType
  | struct
  | enum
  | protocol
  | actor
  | extension
  deriving DecidableEq, Repr

namespace DeclarationKind

/-- All kinds. -/
def all : List DeclarationKind :=
  [.classType, .struct, .enum, .protocol, .actor, .extension]

/-- The keyword of a kind. -/
def keyword : DeclarationKind → String
  | .classType => "class"
  | .struct => "struct"
  | .enum => "enum"
  | .protocol => "protocol"
  | .actor => "actor"
  | .extension => "extension"

/-- The kind with the given keyword. -/
def ofKeyword? (keyword : String) : Option DeclarationKind :=
  all.find? (·.keyword == keyword)

end DeclarationKind

/-- What a property binds: a name, nothing, or the parts of a tuple. -/
inductive Pattern where
  | identifier (name : String)
  | wildcard
  | tuple (items : List Pattern)
  deriving Repr, BEq

namespace Pattern

mutual

/-- The text of a pattern, by which a binding that is left out is named. -/
def render : Pattern → String
  | .identifier name => name
  | .wildcard => "_"
  | .tuple items => "(" ++ renderItems items ++ ")"

/-- Patterns with commas between them. -/
def renderItems : List Pattern → String
  | [] => ""
  | [item] => item.render
  | item :: next :: items => item.render ++ ", " ++ renderItems (next :: items)

end

end Pattern

/-- The braces behind a property. The keywords are kept in order, repeated ones included: a property
is observed, not computed, if there is at least one and all of them are observers. -/
inductive AccessorBlock where
  /-- The body of a getter. -/
  | getter
  /-- Accessors and observers, by keyword. -/
  | accessors (keywords : List String)
  deriving DecidableEq, Repr

/-- One of the properties that a variable declaration introduces. Of an initializer only its
presence is kept. -/
structure Binding where
  pattern : Pattern
  type? : Option TypeExpr
  hasInitializer : Bool
  accessors? : Option AccessorBlock
  /-- Where its first token stands. -/
  span : Text.Span
  deriving Repr, BEq

/-- Whether properties are constants or variables. -/
inductive Specifier where
  | let
  | var
  deriving DecidableEq, Repr

/-- A variable declaration; it has at least one binding, which is the only one that can become a
field. -/
structure Variable where
  attributes : List Attribute
  /-- Modifier keywords, without details such as `(set)`. -/
  modifiers : List String
  specifier : Specifier
  first : Binding
  others : List Binding
  /-- Where the keyword stands. -/
  span : Text.Span
  deriving Repr, BEq

namespace Variable

/-- All bindings, in order. -/
def bindings (v : Variable) : List Binding :=
  v.first :: v.others

/-- Whether the properties belong to the type and not to its instances. -/
def isTypeLevel (v : Variable) : Bool :=
  v.modifiers.contains "static" || v.modifiers.contains "class"

end Variable

/-- A type declaration without its members: what stands in front of the opening brace. Generic
parameters and requirements are read over and not kept. -/
structure Heading where
  attributes : List Attribute
  /-- Modifier keywords, without details such as `(set)`. -/
  modifiers : List String
  kind : DeclarationKind
  /-- The declared name; for an extension, the text of the extended type. -/
  name : String
  inherited : List TypeExpr
  /-- Where the keyword stands. -/
  keyword : Text.Span
  deriving Repr, BEq

mutual

/-- A type declaration. -/
structure Declaration where
  heading : Heading
  members : List Member
  /-- The brace that opens the members. -/
  opener : Text.Span
  /-- The brace that closes the members. -/
  closer : Text.Span

/-- A member of a type declaration, or a declaration at the top of a file. -/
inductive Member where
  | variable (v : Variable)
  | type (d : Declaration)
  /-- Anything else: its first word and where that stands. -/
  | other (keyword : String) (span : Text.Span)

end

namespace Declaration

/-- The first modifier, if there is one. It is the only one that generated members repeat, whether
it is an access level or not. -/
def firstModifier? (d : Declaration) : Option String :=
  d.heading.modifiers.head?

/-- The byte offset just behind the closing brace. -/
def stop (d : Declaration) : Nat :=
  d.closer.stop

mutual

/-- The declaration and the types nested in it, outer before inner: the order in which annotated
declarations are visited. -/
def withNested : Declaration → List Declaration
  | ⟨heading, members, opener, closer⟩ =>
    ⟨heading, members, opener, closer⟩ :: nestedIn members

/-- The type declarations among some members, each with those nested in it. -/
def nestedIn : List Member → List Declaration
  | [] => []
  | .type d :: members => withNested d ++ nestedIn members
  | .variable _ :: members => nestedIn members
  | .other .. :: members => nestedIn members

end

end Declaration

end CodableSynthesis
