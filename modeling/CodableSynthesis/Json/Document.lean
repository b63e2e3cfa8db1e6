/-!
JSON documents as they are written: objects keep the order of their members. Reports on field models
are such documents (`FieldModel.report`), and they are written down over several lines, two blanks
further in with each level.
-/

namespace CodableSynthesis.Json

/-- A value to be written. Reports contain no fractions and no null, so there is no way to write
them. -/
inductive Document where
  | number (n : Nat)
  | boolean (b : Bool)
  | string (s : String)
  | list (items : List Document)
  | object (members : List (String × Document))

namespace Document

/-- A character as it stands in a string: a quote, a backslash and the control characters are
escaped, everything else stands for itself. -/
def escaped (c : Char) : List Char :=
  match c with
  | '"' => ['\\', '"']
  | '\\' => ['\\', '\\']
  | '\x08' => ['\\', 'b']
  | '\t' => ['\\', 't']
  | '\n' => ['\\', 'n']
  | '\x0c' => ['\\', 'f']
  | '\r' => ['\\', 'r']
  | c =>
    if c.toNat < 0x20 then
      ['\\', 'u', '0', '0', Nat.digitChar (c.toNat / 16), Nat.digitChar (c.toNat % 16)]
    else [c]

/-- A string as it is written. -/
def quote (s : String) : String :=
  String.ofList ('"' :: s.toList.flatMap escaped ++ ['"'])

/-- The beginning of a line at a depth. -/
def newLine (depth : Nat) : String :=
  "\n" ++ String.ofList (List.replicate (2 * depth) ' ')

/-- Items between brackets, each on a line of its own. Empty brackets stay on one line. -/
def bracketed (depth : Nat) (opening : String) (items : List String) (closing : String) : String :=
  if items.isEmpty then opening ++ closing
  else
    opening ++ newLine (depth + 1) ++ ("," ++ newLine (depth + 1)).intercalate items
      ++ newLine depth ++ closing

mutual

/-- The text of a value that stands at a depth, two blanks further in with each. -/
def pretty (depth : Nat) : Document → String
  | number n => toString n
  | boolean b => toString b
  | string s => quote s
  | list items => bracketed depth "[" (prettyItems (depth + 1) items) "]"
  | object members => bracketed depth "\x7b" (prettyMembers (depth + 1) members) "\x7d"

/-- The texts of the items of an array. -/
def prettyItems (depth : Nat) : List Document → List String
  | [] => []
  | item :: more => pretty depth item :: prettyItems depth more

/-- The texts of the members of an object. -/
def prettyMembers (depth : Nat) : List (String × Document) → List String
  | [] => []
  | (key, value) :: more => (quote key ++ ": " ++ pretty depth value) :: prettyMembers depth more

end

end Document

end CodableSynthesis.Json
