import CodableSynthesis.Token.Reading

/-!
The words that declarations begin with (`parse_modifiers`, `starts_declaration`).

Swift has hardly any reserved words here: a property may be called `open` or `final`. A modifier
keyword is a modifier only where a declaration can go on behind it; otherwise it is an ordinary
name, and reading stops in front of it. The same words end what is skipped: an initializer or the
rest of a function runs up to a line that one of them begins.
-/

namespace CodableSynthesis.Modifier

/-- The modifier keywords. The word `class` is not among them, since it is a modifier in few places
only (`wordsBehindClass`). -/
def keywords : List String :=
  ["public", "private", "fileprivate", "internal", "open", "package", "final", "static",
   "override", "required", "convenience", "lazy", "weak", "unowned", "mutating", "nonmutating",
   "dynamic", "indirect", "optional", "nonisolated", "distributed", "prefix", "postfix", "infix",
   "consuming", "borrowing", "__consuming"]

/-- The words that introduce a declaration. -/
def declarationWords : List String :=
  ["var", "let", "func", "init", "deinit", "subscript", "typealias", "associatedtype", "case",
   "class", "struct", "enum", "protocol", "actor", "extension", "import", "operator",
   "precedencegroup", "macro"]

/-- The words that `class` may stand in front of as a modifier, beside modifier keywords. In front
of anything else it introduces a class. -/
def wordsBehindClass : List String :=
  ["var", "let", "func", "subscript", "typealias"]

/-- Whether a token can begin a declaration, as `starts_declaration` decides it: by the token alone,
whatever follows. -/
def startsDeclaration (t : Token) : Bool :=
  match t.kind with
  | .atSign | .pound => true
  | _ => t.isWordIn declarationWords || t.isWordIn keywords

/-- Whether a token is a modifier in front of `next`. A keyword is one in front of a name, an
attribute or a parenthesis. An attribute behind it is not read as one, though: reading never goes
back from modifiers to attributes. -/
def isModifier (t next : Token) : Bool :=
  if t.isWord "class" then next.isWordIn wordsBehindClass || next.isWordIn keywords
  else
    t.isWordIn keywords &&
      (match next.kind with
        | .ident | .atSign | .opening .parenthesis => true
        | _ => false)

/-- Skips a detail such as `(set)` behind a modifier (`skip_modifier_detail`): one name in
parentheses. Anything longer is left alone. -/
def skipDetail (ts : List Token) : Step Token Unit (ts.length + 1) :=
  match ts with
  | a :: b :: c :: rest =>
    if a.kind = .opening .parenthesis && b.kind = .ident && c.kind = .closing .parenthesis then
      ⟨(), rest, by simp only [List.length_cons]; omega⟩
    else .stay () (a :: b :: c :: rest)
  | ts => .stay () ts

/-- Reads modifiers as long as there are any. -/
def readAll (ts : List Token) : Step Token (List String) (ts.length + 1) :=
  match ts with
  | t :: next :: rest =>
    if isModifier t next then
      let ⟨_, rest₁, _⟩ := skipDetail (next :: rest)
      let ⟨modifiers, rest₂, _⟩ := readAll rest₁
      ⟨t.text :: modifiers, rest₂, by simp only [List.length_cons] at *; omega⟩
    else .stay [] (t :: next :: rest)
  | ts => .stay [] ts
termination_by ts.length
decreasing_by all_goals omega

end CodableSynthesis.Modifier
