import CodableSynthesis.Declaration.Skipping
import CodableSynthesis.TypeExpr.Reading

/-!
Reading variable declarations (`parse_variable`): for each binding a pattern, a type, whether there
is an initializer, and the braces behind it.

None of the parts but the pattern has to be there, and each is told by its first token alone: a
colon, an equals sign, a brace. Where the initializer ends is a matter of its own, left to
`Skipping.expression`. Whether braces behind an initializer belong to it or are observers is settled
there as well, before `AccessorBlock.read?` sees them.
-/

namespace CodableSynthesis

namespace Pattern

mutual

/-- Reads a pattern (`parse_pattern`): a name, of which the underscore is one, or patterns in
parentheses. -/
def read (ts : List Token) : Reading Pattern ts.length :=
  match ts with
  | [] => .error (.endOfInput .pattern)
  | t :: rest =>
    match t.kind with
    | .ident => .ok (.past (if t.text = "_" then .wildcard else .identifier t.text) rest)
    | .opening .parenthesis => do
      let ⟨items, rest', _⟩ ← readItems rest
      return ⟨.tuple items, rest', by simp only [List.length_cons]; omega⟩
    | _ => .error (.unexpected .pattern t)
termination_by 2 * ts.length
decreasing_by all_goals simp only [List.length_cons]; omega

/-- Reads the parts of a tuple pattern up to the parenthesis that closes it. A comma may stand
behind the last one. -/
def readItems (ts : List Token) : Reading (List Pattern) ts.length :=
  match ts with
  | [] => .error (.endOfInput .pattern)
  | t :: rest =>
    if t.kind = .closing .parenthesis then .ok (.past [] rest)
    else do
      match ← read (t :: rest) with
      | ⟨_, [], _⟩ => .error (.endOfInput .commaOrParenthesis)
      | ⟨item, s :: more, _⟩ =>
        if s.kind = .comma then
          let ⟨items, rest', _⟩ ← readItems more
          return ⟨item :: items, rest', by simp only [List.length_cons] at *; omega⟩
        else if s.kind = .closing .parenthesis then
          return ⟨[item], more, by simp only [List.length_cons] at *; omega⟩
        else .error (.unexpected .commaOrParenthesis s)
termination_by 2 * ts.length + 1
decreasing_by all_goals simp only [List.length_cons] at *; omega

end

end Pattern

namespace AccessorBlock

/-- The keywords of accessors and observers. -/
def accessorWords : List String :=
  ["get", "set", "willSet", "didSet", "_read", "_modify", "read", "modify", "init",
   "unsafeAddress", "unsafeMutableAddress"]

/-- What follows the attributes and modifiers of an accessor. An attribute counts as two tokens, so
that one with arguments or a dotted name is not stepped over as a whole. -/
def behindModifiers : List Token → List Token
  | t :: rest =>
    if t.kind = .atSign then
      match rest with
      | [] => []
      | _ :: rest => behindModifiers rest
    else if t.isWordIn Modifier.keywords then behindModifiers rest
    else t :: rest
  | [] => []

/-- Whether the tokens behind an opening brace begin accessors and not the body of a getter. -/
def startsAccessor (ts : List Token) : Bool :=
  match behindModifiers ts with
  | t :: _ => t.isWordIn accessorWords
  | [] => false

/-- The accessor keywords up to the end of a block that are not inside a further bracket, `depth`
brackets being open within it. Every occurrence counts, also where the word is the name of an
argument. -/
def keywordsAt (depth : Nat) : List Token → List String
  | [] => []
  | t :: ts =>
    match t.kind with
    | .opening _ => keywordsAt (depth + 1) ts
    | .closing _ =>
      match depth with
      | 0 => []
      | outer + 1 => keywordsAt outer ts
    | _ =>
      if depth == 0 && t.isWordIn accessorWords then t.text :: keywordsAt depth ts
      else keywordsAt depth ts

/-- Reads the block in braces behind a property, if there is one (`parse_accessor_block`). The block
is stepped over as a balanced group, and its keywords are collected from the same tokens. -/
def read? (ts : List Token) : Reading (Option AccessorBlock) (ts.length + 1) :=
  match ts with
  | [] => .ok (.stay none [])
  | t :: rest =>
    if t.kind = .opening .brace then do
      let s ← Group.close .brace [] rest
      let block := if startsAccessor rest then .accessors (keywordsAt 0 rest) else .getter
      return (s.map fun _ => some block).wider.wider
    else .ok (.stay none (t :: rest))

end AccessorBlock

namespace Binding

/-- Reads a type behind a colon, if there is one. -/
def readType? (ts : List Token) : Reading (Option TypeExpr) (ts.length + 1) :=
  match ts with
  | [] => .ok (.stay none [])
  | t :: rest =>
    if t.kind = .colon then do
      let s ← TypeExpr.read rest
      return (s.map some).wider.wider
    else .ok (.stay none (t :: rest))

/-- Skips an initializer behind an equals sign; the value tells whether there is one. An empty
initializer is one, too. -/
def skipInitializer (ts : List Token) : Reading Bool (ts.length + 1) :=
  match ts with
  | [] => .ok (.stay false [])
  | t :: rest =>
    if t.kind = .equals then do
      let s ← Skipping.expression false rest
      return (s.map fun _ => true).wider
    else .ok (.stay false (t :: rest))

/-- Reads one binding. It is placed at its first token, where a warning about it points. -/
def read (ts : List Token) : Reading Binding ts.length :=
  match ts with
  | [] => .error (.endOfInput .pattern)
  | t :: rest => do
    let ⟨pattern, ts₁, _⟩ ← Pattern.read (t :: rest)
    let ⟨type?, ts₂, _⟩ ← readType? ts₁
    let ⟨hasInitializer, ts₃, _⟩ ← skipInitializer ts₂
    let ⟨accessors?, ts₄, _⟩ ← AccessorBlock.read? ts₃
    return ⟨⟨pattern, type?, hasInitializer, accessors?, t.span⟩, ts₄, by omega⟩

/-- Reads further bindings, each behind a comma. -/
def readMore (ts : List Token) : Reading (List Binding) (ts.length + 1) :=
  match ts with
  | [] => .ok (.stay [] [])
  | t :: rest =>
    if t.kind = .comma then do
      let ⟨binding, rest₁, _⟩ ← read rest
      let ⟨bindings, rest₂, _⟩ ← readMore rest₁
      return ⟨binding :: bindings, rest₂, by simp only [List.length_cons]; omega⟩
    else .ok (.stay [] (t :: rest))
termination_by ts.length
decreasing_by all_goals simp only [List.length_cons]; omega

end Binding

namespace Variable

/-- Reads a variable declaration behind its keyword. -/
def read (attributes : List Attribute) (modifiers : List String) (specifier : Specifier)
    (keyword : Token) (ts : List Token) : Reading Variable ts.length := do
  let ⟨first, rest₁, _⟩ ← Binding.read ts
  let ⟨others, rest₂, _⟩ ← Binding.readMore rest₁
  return ⟨⟨attributes, modifiers, specifier, first, others, keyword.span⟩, rest₂, by omega⟩

end Variable

end CodableSynthesis
