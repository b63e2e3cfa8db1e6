import CodableSynthesis.Declaration.Basic
import CodableSynthesis.Declaration.Modifier
import CodableSynthesis.Token.Group

/-!
Skipping what the synthesis does not look into: initializers (`skip_expression`), functions and the
like (`skip_declaration`), and compiler directives (`skip_compiler_directive`).

None of them may swallow the member behind it. There is no grammar of expressions or statements
here; instead each ends at a token that can hardly be inside: where a bracket of its surroundings
closes, or where a line begins with a word that introduces a declaration. Brackets are stepped over
as balanced groups, so that nothing inside a closure or a function body can end it.

Generic arguments are the one guess in this. An angle bracket that touches the name before it is
taken for the opening one if a closing one follows among tokens that occur in types; the commas in
between then do not end the initializer.
-/

namespace CodableSynthesis.Skipping

/-- The keywords of property observers. -/
def observerWords : List String :=
  ["willSet", "didSet"]

/-- Whether the tokens behind an opening brace begin a block of observers: the first word behind any
attributes is an observer's (`at_observer_block`). An attribute counts as two tokens, and modifiers
are not stepped over. -/
def startsObserver : List Token → Bool
  | t :: rest =>
    if t.kind = .atSign then
      match rest with
      | [] => false
      | _ :: rest => startsObserver rest
    else t.isWordIn observerWords
  | [] => false

/-- Skips the expression of an initializer; `started` tells whether some of it was read. It ends
before a comma, a semicolon or a closing bracket, before a block of observers, and before a line
that begins a declaration. An angle bracket without a gap before it opens generic arguments, if it
closes like some. -/
def expression (started : Bool) (ts : List Token) : Reading Unit (ts.length + 1) :=
  match ts with
  | [] => .ok (.stay () [])
  | t :: rest =>
    -- The first token is part of the expression whatever it is: a line may break behind the equals
    -- sign.
    if started && t.newlineBefore && Modifier.startsDeclaration t then .ok (.stay () (t :: rest))
    else
      match t.kind with
      | .comma | .semicolon | .closing _ => .ok (.stay () (t :: rest))
      | .opening b =>
        if b = .brace && started && startsObserver rest then .ok (.stay () (t :: rest))
        else do
          let ⟨_, rest', _⟩ ← Group.close b [] rest
          return (← expression true rest').widen (by simp only [List.length_cons]; omega)
      | .less =>
        match if t.touches then Group.afterArguments? 0 rest else none with
        | some ⟨_, rest', _⟩ => do
          return (← expression true rest').widen (by simp only [List.length_cons]; omega)
        | none => do return (← expression true rest).wider
      | _ => do return (← expression true rest).wider
termination_by ts.length
decreasing_by all_goals simp only [List.length_cons]; omega

/-- Skips the rest of a declaration; `afterBlock` tells whether a group in braces came last. It ends
behind a semicolon, before a closing brace, and before a word that begins a declaration, on a new
line or behind such a group. -/
def declarationRest (afterBlock : Bool) (ts : List Token) : Reading Unit (ts.length + 1) :=
  match ts with
  | [] => .ok (.stay () [])
  | t :: rest =>
    if (t.newlineBefore || afterBlock) && Modifier.startsDeclaration t then
      .ok (.stay () (t :: rest))
    else
      match t.kind with
      | .closing .brace => .ok (.stay () (t :: rest))
      | .closing _ => .error (.unexpected .declaration t)
      | .semicolon => .ok (.wider (.past () rest))
      | .opening b => do
        let ⟨_, rest', _⟩ ← Group.close b [] rest
        let s ← declarationRest (b == .brace) rest'
        return s.widen (by simp only [List.length_cons]; omega)
      | _ => do return (← declarationRest false rest).wider
termination_by ts.length
decreasing_by all_goals simp only [List.length_cons]; omega

/-- Reads a declaration that is kept as its first word alone (`skip_declaration`). Its first token
never ends it, so that the reader moves even at a word that begins a declaration. -/
def other (first : Token) (ts : List Token) : Reading Member (ts.length + 1) := do
  let member := Member.other first.text first.span
  match first.kind with
  | .closing _ => .error (.unexpected .declaration first)
  | .semicolon => .ok (.stay member ts)
  | .opening b =>
    let ⟨_, rest, _⟩ ← Group.close b [] ts
    let ⟨_, rest', _⟩ ← declarationRest (b == .brace) rest
    return ⟨member, rest', by omega⟩
  | _ =>
    let ⟨_, rest, _⟩ ← declarationRest false ts
    return ⟨member, rest, by omega⟩

/-- Skips up to the directive that ends a conditional block (`skip_compiler_directive`), `depth`
further blocks being open. What stands between is not balanced: a branch may open a brace that
another closes. -/
def conditional (depth : Nat) : (ts : List Token) → Reading Unit ts.length
  | [] => .error (.endOfInput .endif)
  | [_] => .error (.endOfInput .endif)
  | t :: word :: rest =>
    if t.kind = .pound then
      if word.isWord "if" then do
        return (← conditional (depth + 1) (word :: rest)).wider
      else if word.isWord "endif" then
        match depth with
        | 0 => .ok (.wider (.past () rest))
        | outer + 1 => do return (← conditional outer (word :: rest)).wider
      else do return (← conditional depth (word :: rest)).wider
    else do return (← conditional depth (word :: rest)).wider

/-- Reads a compiler directive: a whole conditional block, or a word and the arguments that touch
it. It is kept as one member named after its word. -/
def directive (ts : List Token) : Reading Member ts.length := do
  let ⟨pound, rest₁, _⟩ ← Token.expect .pound .declaration ts
  let ⟨name, rest₂, _⟩ ← Token.expect .ident .directiveName rest₁
  let member := Member.other ("#" ++ name.text) pound.span
  if name.text = "if" then
    let ⟨_, rest₃, _⟩ ← conditional 0 rest₂
    return ⟨member, rest₃, by omega⟩
  else
    let ⟨_, rest₃, _⟩ ← Group.skipArguments rest₂
    return ⟨member, rest₃, by omega⟩

end CodableSynthesis.Skipping
