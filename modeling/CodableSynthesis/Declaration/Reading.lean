import CodableSynthesis.Declaration.Property
import CodableSynthesis.Token.Lexer

/-!
Reading the declarations of a source file. Main function: `readSource`, from source text to its type
declarations (`parse_source`).

A member is a compiler directive, or attributes, modifiers and a word that says what it is
(`Member.read`, the program's `parse_member`). Type declarations contain members again, so
`Declaration.read` and the member readers are one mutual block; as with types, each returns fewer
tokens than it takes.

At the top of a file the same reader is used, and only type declarations are kept. A reader stops at
its first fault. The fault names a token or the end of the tokens; `readSource` turns it into a
place in the source.
-/

namespace CodableSynthesis

namespace Heading

/-- Reads the types that a declaration inherits from, separated by commas. -/
def readTypes (ts : List Token) : Reading (List TypeExpr) ts.length := do
  match ← TypeExpr.read ts with
  | ⟨type, [], _⟩ => return ⟨[type], [], by omega⟩
  | ⟨type, t :: more, _⟩ =>
    if t.kind = .comma then
      let ⟨types, rest, _⟩ ← readTypes more
      return ⟨type :: types, rest, by simp only [List.length_cons] at *; omega⟩
    else return ⟨[type], t :: more, by omega⟩
termination_by ts.length
decreasing_by all_goals simp only [List.length_cons] at *; omega

/-- Reads an inheritance clause, if there is one. -/
def readInherited (ts : List Token) : Reading (List TypeExpr) (ts.length + 1) :=
  match ts with
  | [] => .ok (.stay [] [])
  | t :: rest =>
    if t.kind = .colon then do return (← readTypes rest).wider.wider
    else .ok (.stay [] (t :: rest))

/-- Skips a generic clause, if there is one, up to the angle bracket that closes it. -/
def skipGenericClause (ts : List Token) : Reading Unit (ts.length + 1) :=
  match ts with
  | [] => .ok (.stay () [])
  | t :: rest =>
    if t.kind = .less then do return (← Group.closeAngle 0 rest).wider.wider
    else .ok (.stay () (t :: rest))

/-- Skips requirements up to the brace that opens the members. Brackets are stepped over as groups,
so that a brace inside of one does not count. -/
def skipToBrace (ts : List Token) : Reading Unit (ts.length + 1) :=
  match ts with
  | [] => .error (.endOfInput (.opening .brace))
  | t :: rest =>
    match t.kind with
    | .opening .brace => .ok (.stay () (t :: rest))
    | .opening b => do
      let ⟨_, rest', _⟩ ← Group.close b [] rest
      return (← skipToBrace rest').widen (by simp only [List.length_cons]; omega)
    | _ => do return (← skipToBrace rest).wider
termination_by ts.length
decreasing_by all_goals simp only [List.length_cons]; omega

/-- Skips a clause of requirements, if there is one. -/
def skipWhereClause (ts : List Token) : Reading Unit (ts.length + 1) :=
  match ts with
  | [] => .ok (.stay () [])
  | t :: rest =>
    if t.isWord "where" then do return (← skipToBrace rest).wider
    else .ok (.stay () (t :: rest))

/-- Reads the name of a declaration: for an extension, the text of the type it extends. -/
def readName (kind : DeclarationKind) (ts : List Token) : Reading String ts.length :=
  if kind = .extension then do return (← TypeExpr.read ts).map (·.render)
  else do return (← Token.expect .ident .typeName ts).map (·.text)

/-- Reads the heading of a type declaration behind its keyword (`parse_type_decl`, up to the opening
brace). -/
def read (attributes : List Attribute) (modifiers : List String) (kind : DeclarationKind)
    (keyword : Token) (ts : List Token) : Reading Heading ts.length := do
  let ⟨name, ts₁, _⟩ ← readName kind ts
  let ⟨_, ts₂, _⟩ ← skipGenericClause ts₁
  let ⟨inherited, ts₃, _⟩ ← readInherited ts₂
  let ⟨_, ts₄, _⟩ ← skipWhereClause ts₃
  return ⟨⟨attributes, modifiers, kind, name, inherited, keyword.span⟩, ts₄, by omega⟩

end Heading

/-- The kind of type declaration that a token introduces. The keywords are ordinary words to the
lexer. -/
def DeclarationKind.ofToken? (t : Token) : Option DeclarationKind :=
  if t.kind = .ident then ofKeyword? t.text else none

/-- The specifier that a token is. -/
def Specifier.ofToken? (t : Token) : Option Specifier :=
  if t.isWord "var" then some .var else if t.isWord "let" then some .let else none

mutual

/-- Reads a type declaration behind its keyword: the heading, and the members between its braces. -/
def Declaration.read (attributes : List Attribute) (modifiers : List String)
    (kind : DeclarationKind) (keyword : Token) (ts : List Token) :
    Reading Declaration ts.length := do
  let ⟨heading, ts₁, _⟩ ← Heading.read attributes modifiers kind keyword ts
  let ⟨opener, ts₂, _⟩ ← Token.expect (.opening .brace) (.opening .brace) ts₁
  let ⟨(members, closer), ts₃, _⟩ ← Member.readAll ts₂
  return ⟨⟨heading, members, opener.span, closer.span⟩, ts₃, by omega⟩
termination_by 2 * ts.length
decreasing_by all_goals omega

/-- Reads one member. Attributes and modifiers directly before a closing brace are a member of their
own, named after the brace; a closing bracket alone is none. -/
def Member.read (ts : List Token) : Reading Member ts.length :=
  match ts with
  | [] => .error (.endOfInput .declaration)
  | t :: rest =>
    if t.kind = .pound then Skipping.directive (t :: rest)
    else do
      let ⟨attributes, ts₁, _⟩ ← Attribute.readAll (t :: rest)
      match Modifier.readAll ts₁ with
      | ⟨_, [], _⟩ => .error (.endOfInput .declaration)
      | ⟨modifiers, word :: ts₂, _⟩ =>
        match DeclarationKind.ofToken? word, Specifier.ofToken? word with
        | some kind, _ =>
          let s ← Declaration.read attributes modifiers kind word ts₂
          return (s.map Member.type).widen (by simp only [List.length_cons] at *; omega)
        | none, some specifier =>
          let s ← Variable.read attributes modifiers specifier word ts₂
          return (s.map Member.variable).widen (by simp only [List.length_cons] at *; omega)
        | none, none =>
          if word.kind = .closing .brace then
            if h : (word :: ts₂).length < (t :: rest).length then
              return ⟨.other word.text word.span, word :: ts₂, h⟩
            else .error (.unexpected .declaration word)
          else
            let s ← Skipping.other word ts₂
            return s.widen (by simp only [List.length_cons] at *; omega)
termination_by 2 * ts.length
decreasing_by all_goals simp only [List.length_cons] at *; omega

/-- Reads members up to the brace that closes them, which is the second value. -/
def Member.readAll (ts : List Token) : Reading (List Member × Token) ts.length :=
  match ts with
  | [] => .error (.endOfInput (.closing .brace))
  | t :: rest =>
    match t.kind with
    | .closing .brace => .ok (.past ([], t) rest)
    | .semicolon => do return (← Member.readAll rest).wider
    | _ => do
      let ⟨member, rest₁, _⟩ ← Member.read (t :: rest)
      let ⟨(members, closer), rest₂, _⟩ ← Member.readAll rest₁
      return ⟨(member :: members, closer), rest₂, by omega⟩
termination_by 2 * ts.length + 1
decreasing_by all_goals simp only [List.length_cons] at *; omega

end

/-- Reads the type declarations of a file. Semicolons separate, other declarations are dropped, and
a closing bracket is an error. -/
def Declaration.readFile (ts : List Token) : Except ReadFault (List Declaration) :=
  match ts with
  | [] => .ok []
  | t :: rest =>
    if t.kind = .semicolon then readFile rest
    else do
      match ← Member.read (t :: rest) with
      | ⟨.type d, rest', _⟩ => return d :: (← readFile rest')
      | ⟨_, rest', _⟩ => readFile rest'
termination_by ts.length
decreasing_by all_goals simp only [List.length_cons]; omega

/-- The type declarations at the top of a source text, or the first error: one of the lexer, else
one of the reader. -/
def readSource (source : String) : Except SourceError (List Declaration) := do
  let tokens ← tokenize source
  match Declaration.readFile tokens with
  | .ok declarations => .ok declarations
  | .error fault => .error (fault.toSourceError source.toList)

end CodableSynthesis
