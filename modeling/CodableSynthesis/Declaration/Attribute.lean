import CodableSynthesis.Token.Group

/-!
Attributes such as `@objc(name)`, in front of a declaration or of a type (`parse_attribute`,
`parse_attributes`).

An attribute is a sign, a dotted name, and arguments if a parenthesis follows without a gap. The
arguments are stepped over as a balanced group. What is kept is the name and where the attribute
begins and ends: a name that is known asks for an expansion, and the places say which text to take
out.
-/

namespace CodableSynthesis

/-- An attribute, its arguments skipped. It is located by two tokens, since it is taken out of the
source from the beginning of the first to the end of the last. -/
structure Attribute where
  /-- The name behind the sign, dots included. -/
  name : String
  /-- Where its first token stands. -/
  first : Text.Span
  /-- Where its last token stands. -/
  last : Text.Span
  deriving DecidableEq, Repr

namespace Attribute

/-- The whole attribute, from its sign to the end of its name or of its arguments. -/
def span (a : Attribute) : Text.Span :=
  .cover a.first a.last

/-- The last component of a dotted name. It alone decides what an attribute stands for:
`@Lib.Codable` is `@Codable`. -/
def simpleName (name : String) : String :=
  String.ofList (name.toList.reverse.takeWhile (· != '.')).reverse

/-- Reads further components of a dotted name that `name` begins; `last` is the place of the token
read last. A dot that no name follows is left alone. -/
def readPath (name : String) (last : Text.Span) :
    (ts : List Token) → Step Token (String × Text.Span) (ts.length + 1)
  | [] => .stay (name, last) []
  | [t] => .stay (name, last) [t]
  | t :: n :: rest =>
    if t.kind = .dot && n.kind = .ident then
      (readPath (name ++ "." ++ n.text) n.span rest).widen (by simp)
    else .stay (name, last) (t :: n :: rest)

/-- Reads one attribute. Dots and names need not touch one another; the parenthesis of the arguments
must. -/
def read (ts : List Token) : Reading Attribute ts.length := do
  let ⟨sign, ts₁, _⟩ ← Token.expect .atSign .atSign ts
  let ⟨first, ts₂, _⟩ ← Token.expect .ident .attributeName ts₁
  let ⟨(name, last), ts₃, _⟩ := readPath first.text first.span ts₂
  let ⟨closer?, rest, _⟩ ← Group.skipArguments ts₃
  return ⟨⟨name, sign.span, (closer?.map (·.span)).getD last⟩, rest, by omega⟩

/-- Reads attributes as long as there are any. -/
def readAll (ts : List Token) : Reading (List Attribute) (ts.length + 1) :=
  match ts with
  | [] => .ok (.stay [] [])
  | t :: rest =>
    if t.kind = .atSign then do
      let ⟨a, rest', h⟩ ← read (t :: rest)
      let s ← readAll rest'
      return (s.map (a :: ·)).widen (Nat.le_succ_of_le h)
    else .ok (.stay [] (t :: rest))
termination_by ts.length
decreasing_by simp only [List.length_cons] at *; omega

end Attribute

end CodableSynthesis
