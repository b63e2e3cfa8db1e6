import CodableSynthesis.Proofs.Respelling.Occurrences

/-!
Classes written most plainly: the attribute on a line of its own, a heading with at most one
modifier, one member a line, and the closing brace. Their texts, and line by line the texts they
expand to.

* `PlainMember`: the four kinds of members, of which only the stored ones are encoded.
* `PlainClass.source`: the text of such a class.
* `PlainClass.expanded`: the text it is to expand to, written down without any of the functions that
  expand it.
* `PlainClass.Sound`: the names and types that such a class may be made of.

The two texts are built from lines, by functions that a reader can check against an expansion by
eye. Neither the model of fields nor the writer is used: `PlainMember.decodeLine?` says what is
decoded from the way a member is written, with a question mark or without.

`PlainClass.Sound` leaves out what is not read as it looks. `Expansions` shows a class for each of
these restrictions.
-/

namespace CodableSynthesis

/-- A text of lines, each ended by a line feed. -/
def Text.ofLines (ls : List String) : String :=
  String.ofList (ls.flatMap fun l => l.toList ++ ['\n'])

/-- The line feeds may as well be told to stand between the lines and behind the last. -/
theorem Text.toList_ofLines (l : String) (ls : List String) :
    (ofLines (l :: ls)).toList = l.toList ++ ls.flatMap (fun l => '\n' :: l.toList) ++ ['\n'] := by
  induction ls generalizing l with
  | nil => simp [ofLines]
  | cons m ls ih =>
    have later := ih m
    simp only [ofLines, String.toList_ofList, List.flatMap_cons] at later ⊢
    simp [later]

/-- The keyword of a specifier, as it is written. -/
def Specifier.word : Specifier → String
  | .let => "let"
  | .var => "var"

/-! ### Members -/

/-- A member of a plain class. The last three kinds are left out of an encoding, each for a reason
of its own. -/
inductive PlainMember where
  /-- A stored property, its type written with a question mark behind it or without. -/
  | stored (specifier : Specifier) (name : String) (type : TypeExpr) (optional : Bool)
  /-- A constant of the class itself, with a type and a value. -/
  | constant (name : String)
  /-- A property with a getter. -/
  | computed (name : String)
  /-- A property with a value and no type. -/
  | inferred (name : String)

namespace PlainMember

/-- The declared name. -/
def name : PlainMember → String
  | stored _ name _ _ | constant name | computed name | inferred name => name

/-- The line of a member, without its indentation. These are the four ways of writing that a plain
class is made of. -/
def line : PlainMember → String
  | stored specifier name type optional =>
    specifier.word ++ " " ++ name ++ ": " ++ type.render ++ (if optional then "?" else "")
  | constant name => "static let " ++ name ++ ": Int = 1"
  | computed name => "var " ++ name ++ ": Int \x7b 0 \x7d"
  | inferred name => "var " ++ name ++ " = 0"

/-- The declared type of a stored property. The question mark is one of the type here, though it is
written and decoded apart from it. -/
def type? : PlainMember → Option TypeExpr
  | stored _ _ type optional => some (if optional then .optional type else type)
  | constant _ | computed _ | inferred _ => none

/-- The line of the key of a stored property. -/
def keyLine? : PlainMember → Option String
  | stored _ name _ _ => some ("case " ++ name)
  | constant _ | computed _ | inferred _ => none

/-- The line that decodes a stored property: as an optional exactly if it is written with a question
mark. -/
def decodeLine? : PlainMember → Option String
  | stored _ name type optional =>
    some (name ++ " = try container." ++ (if optional then "decodeIfPresent" else "decode") ++ "("
      ++ type.render ++ ".self, forKey: ." ++ name ++ ")")
  | constant _ | computed _ | inferred _ => none

/-- The line that encodes a stored property. -/
def encodeLine? : PlainMember → Option String
  | stored _ name _ _ => some ("try container.encode(" ++ name ++ ", forKey: ." ++ name ++ ")")
  | constant _ | computed _ | inferred _ => none

end PlainMember

/-! ### Classes -/

/-- A plain class, apart from how its text is laid out. -/
structure PlainClass where
  /-- The word in front of `class`, if there is one. -/
  modifier : Option String
  name : String
  /-- The members, one a line. -/
  members : List PlainMember

namespace PlainClass

/-- A declaration behind the modifier of the class, if it has one. The class and the two generated
methods share it. -/
def modified (c : PlainClass) (declaration : String) : String :=
  match c.modifier with
  | none => declaration
  | some m => m ++ " " ++ declaration

/-- The line of the heading. -/
def headingLine (c : PlainClass) : String :=
  c.modified ("class " ++ c.name ++ " \x7b")

/-- The lines of the members, indented by four blanks. -/
def memberLines (c : PlainClass) : List String :=
  c.members.map fun m => "    " ++ m.line

/-- The class under its attribute, as it is given to the program. -/
def source (c : PlainClass) : String :=
  Text.ofLines ("@Codable" :: c.headingLine :: (c.memberLines ++ ["\x7d"]))

/-- A line so many levels deep. -/
def atDepth (indentWidth depth : Nat) (line : String) : String :=
  Writer.blanks (depth * indentWidth) ++ line

/-- The lines of a generated declaration in the body of a class: its heading one level deep, its
body two, and the brace that closes it. -/
def declarationLines (indentWidth : Nat) (heading : String) (body : List String) : List String :=
  atDepth indentWidth 1 (heading ++ " \x7b") :: (body.map (atDepth indentWidth 2)
    ++ [atDepth indentWidth 1 "\x7d"])

/-- The lines generated for the body of a class: the enumeration of keys, the initializer and the
method, with blank lines between them. -/
def generatedLines (c : PlainClass) (indentWidth : Nat) : List String :=
  declarationLines indentWidth "enum CodingKeys: String, CodingKey"
      (c.members.filterMap (·.keyLine?))
    ++ "" :: declarationLines indentWidth
      (c.modified "required init(from decoder: Decoder) throws")
      ("let container = try decoder.container(keyedBy: CodingKeys.self)"
        :: c.members.filterMap (·.decodeLine?))
    ++ "" :: declarationLines indentWidth (c.modified "func encode(to encoder: Encoder) throws")
      ("var container = encoder.container(keyedBy: CodingKeys.self)"
        :: c.members.filterMap (·.encodeLine?))

/-- What a class expands to: its lines without the attribute, the generated ones behind those of its
members, and the extension. A blank line stands between the members and what is generated, unless
there are none. -/
def expanded (c : PlainClass) (indentWidth : Nat) : String :=
  Text.ofLines (c.headingLine :: c.memberLines ++ (if c.members.isEmpty then [] else [""])
    ++ c.generatedLines indentWidth
    ++ ["\x7d", "", "extension " ++ c.name ++ ": Codable \x7b", "\x7d"])

end PlainClass

/-! ### Names and types -/

/-- The text is one token, a name. A keyword is one as well: the lexer does not tell them apart. -/
def IsIdentifier (s : String) : Prop :=
  ∃ t, tokenize s = .ok [t] ∧ t.kind = .ident ∧ t.text = s

instance (s : String) : Decidable (IsIdentifier s) :=
  decidable_of_iff
    ((tokenize s).toOption.any fun
      | [t] => t.kind = .ident && t.text = s
      | _ => false) <| by
    rw [IsIdentifier]
    cases tokenize s with
    | error => simp [Except.toOption]
    | ok ts => rcases ts with _ | ⟨t, _ | ⟨u, us⟩⟩ <;> simp [Except.toOption]

/-- The type is written in some source that can be read. So it is one that the reader of types can
come to, which not every `TypeExpr` is. -/
def TypeExpr.IsWritten (t : TypeExpr) : Prop :=
  ∃ source ds, readSource source = .ok ds ∧ t.OccursIn ds

/-- A member with a name of its own. Its type, if it has one, is one that is written in sources, and
its question mark is told apart from it. -/
structure PlainMember.Sound (m : PlainMember) : Prop where
  /-- The name is one token, and not the one that stands for none. -/
  name : IsIdentifier m.name ∧ m.name ≠ "_"
  /-- The type is one that is read. -/
  written : ∀ t ∈ m.type?, t.IsWritten
  /-- A type without a question mark behind it does not end with one of its own. -/
  split : ∀ specifier name type, m = .stored specifier name type false → type.wrapped? = none

/-- A class whose name `class` is no modifier in front of, and none but the last of whose types ends
in a keyword that takes the word behind it for a type. -/
structure PlainClass.Sound (c : PlainClass) : Prop where
  modifier : ∀ m ∈ c.modifier, m ∈ Modifier.keywords
  name : IsIdentifier c.name
  noModifier : c.name ∉ Modifier.keywords ∧ c.name ∉ Modifier.wordsBehindClass
  members : ∀ m ∈ c.members, m.Sound
  apart : ∀ m ∈ c.members.dropLast, ∀ t ∈ m.type?, t.endsInKeyword = false

end CodableSynthesis
