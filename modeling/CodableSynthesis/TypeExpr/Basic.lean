/-!
Swift types as they are written in declarations, and their one canonical text.

A `TypeExpr` is a type annotation with everything dropped that two spellings of one type may differ
in: white space, comments, and whatever the reader steps over without keeping it (the arguments of
an attribute, the dots of a variadic parameter, a comma behind the last element of a tuple). No name
is resolved and no abbreviation expanded: `[Int]` and `Array<Int>` are different types here.

The same text serves three ends. A decoding statement names the type by it, the report on a field
model shows it, and the name of an extension is the text of the type it extends. Types, path
segments and tuple elements refer to one another, so that everything about them comes in mutual
blocks of five.
-/

namespace CodableSynthesis

mutual

/-- A type as written. The constructors are the ways of writing one; a type in parentheses is a
tuple of one element, as written. -/
inductive TypeExpr where
  /-- A dotted path such as `Swift.Array<Int>`. -/
  | named (path : List PathSegment)
  /-- A wrapped type with a question mark. -/
  | optional (wrapped : TypeExpr)
  /-- A wrapped type with an exclamation mark. -/
  | implicitlyUnwrapped (wrapped : TypeExpr)
  | array (element : TypeExpr)
  | dictionary (key value : TypeExpr)
  /-- Elements in parentheses, none and one included. -/
  | tuple (elements : List TupleElement)
  | function (parameters : List TupleElement) (effects : List String) (result : TypeExpr)
  /-- Types joined by ampersands. -/
  | composition (parts : List TypeExpr)
  /-- A keyword such as `some` or `inout` in front of a type. -/
  | prefixed (keyword : String) (operand : TypeExpr)
  /-- Attributes, by name, in front of a type. -/
  | attributed (attributes : List String) (operand : TypeExpr)

/-- One step of a dotted path: a name and its generic arguments. A segment without arguments is
written without brackets. -/
inductive PathSegment where
  | mk (name : String) (arguments : List TypeExpr)

/-- An element of a tuple type or a parameter of a function type. A label may consist of two names,
kept with one blank between them. -/
inductive TupleElement where
  | mk (label : Option String) (type : TypeExpr)

end

deriving instance Repr, BEq for TypeExpr, PathSegment, TupleElement

namespace PathSegment

/-- The name of the segment, without its arguments. -/
def name : PathSegment → String
  | .mk name _ => name

/-- The generic arguments of the segment. -/
def arguments : PathSegment → List TypeExpr
  | .mk _ arguments => arguments

end PathSegment

namespace TypeExpr

/-- A type that is just a name. -/
def simple (name : String) : TypeExpr :=
  .named [.mk name []]

/-- The wrapped type, if the type is written with a question mark. `Optional<T>` and `T!` wrap
nothing in this sense: a property counts as optional by the question mark alone. -/
def wrapped? : TypeExpr → Option TypeExpr
  | .optional wrapped => some wrapped
  | _ => none

mutual

/-- The canonical text of a type: one blank behind a colon, a comma and a word, one on either side
of an arrow and an ampersand, and no other white space. -/
def render : TypeExpr → String
  | .named path => renderPath path
  | .optional wrapped => wrapped.render ++ "?"
  | .implicitlyUnwrapped wrapped => wrapped.render ++ "!"
  | .array element => "[" ++ element.render ++ "]"
  | .dictionary key value => "[" ++ key.render ++ ": " ++ value.render ++ "]"
  | .tuple elements => "(" ++ renderElements elements ++ ")"
  | .function parameters effects result =>
    "(" ++ renderElements parameters ++ ")" ++ String.join (effects.map (" " ++ ·)) ++ " -> "
      ++ result.render
  | .composition parts => renderJoined " & " parts
  | .prefixed keyword operand => keyword ++ " " ++ operand.render
  | .attributed attributes operand =>
    String.join (attributes.map fun a => "@" ++ a ++ " ") ++ operand.render

/-- The segments of a path, joined by dots. -/
def renderPath : List PathSegment → String
  | [] => ""
  | [segment] => renderSegment segment
  | segment :: next :: path => renderSegment segment ++ "." ++ renderPath (next :: path)

/-- A segment of a path, with its arguments in angle brackets if it has any. -/
def renderSegment : PathSegment → String
  | .mk name [] => name
  | .mk name (argument :: arguments) =>
    name ++ "<" ++ renderJoined ", " (argument :: arguments) ++ ">"

/-- Types with a separator between them. -/
def renderJoined (separator : String) : List TypeExpr → String
  | [] => ""
  | [type] => type.render
  | type :: next :: types => type.render ++ separator ++ renderJoined separator (next :: types)

/-- Tuple elements with commas between them. -/
def renderElements : List TupleElement → String
  | [] => ""
  | [element] => renderElement element
  | element :: next :: elements =>
    renderElement element ++ ", " ++ renderElements (next :: elements)

/-- A tuple element behind its label, if it has one. -/
def renderElement : TupleElement → String
  | .mk none type => type.render
  | .mk (some label) type => label ++ ": " ++ type.render

end

end TypeExpr

end CodableSynthesis
