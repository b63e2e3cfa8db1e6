import CodableSynthesis.Declaration.Attribute
import CodableSynthesis.TypeExpr.Basic

/-!
Reading types from tokens, from `parse_type` down to its parts.

A type is a composition of operands joined by ampersands (`read`). An operand is a primary type
behind which question and exclamation marks stand without a gap (`readOperand`, `readMarks`). A
primary type is a path, a type in square brackets, a tuple or function type in parentheses, or an
operand behind a keyword or attributes (`readPrimary`).

Every reader takes the tokens that are left and returns, with its value, fewer of them; the mutual
recursion goes down along that. A reader may call another one at the very same tokens, from `read`
to `readOperand` to `readPrimary` to `readSegment`, and the measure `8 * ts.length + k` orders them
by `k` in that case.

Whether a mark, a bracket or an effect's parenthesis belongs to what stands before it is a matter of
touching: `Token.touches` says that no gap is in front of a token. `Int ?` is the type `Int` before
a question mark, and so on.
-/

namespace CodableSynthesis.TypeExpr

/-- The keywords that may stand in front of a type. -/
def operandKeywords : List String :=
  ["some", "any", "inout", "borrowing", "consuming", "isolated", "sending", "__owned", "__shared"]

/-- Whether a keyword is followed by a type. Where it is not, the keyword is a type name itself, as
in `var some: some`. -/
def startsOperand : List Token → Bool
  | [] => false
  | t :: _ =>
    match t.kind with
    | .ident | .opening .parenthesis | .opening .square | .atSign => true
    | _ => false

/-- The words that may stand between the parameters of a function type and its arrow. -/
def effectWords : List String :=
  ["async", "throws", "rethrows"]

/-- Reads the label of a tuple element, one or two names in front of a colon (`parse_tuple_label`).
Without a colon behind them the names belong to the type, and nothing is read. -/
def readLabel : (ts : List Token) → Step Token (Option String) (ts.length + 1)
  | a :: b :: c :: rest =>
    if a.kind = .ident && b.kind = .colon then
      .wider (.wider (.past (some a.text) (c :: rest)))
    else if a.kind = .ident && b.kind = .ident && c.kind = .colon then
      .wider (.wider (.wider (.past (some (a.text ++ " " ++ b.text)) rest)))
    else .stay none (a :: b :: c :: rest)
  | [a, b] =>
    if a.kind = .ident && b.kind = .colon then .wider (.wider (.past (some a.text) []))
    else .stay none [a, b]
  | [a] => .stay none [a]
  | [] => .stay none []

/-- Skips the dots of a variadic parameter, which follow its type without a gap. They are kept
nowhere. -/
def skipDots : (ts : List Token) → Step Token Unit (ts.length + 1)
  | [] => .stay () []
  | t :: rest =>
    if t.kind = .dot && t.touches then (skipDots rest).wider
    else .stay () (t :: rest)

mutual

/-- Reads a type (`parse_type`): an operand, or several joined by ampersands. -/
def read (ts : List Token) : Reading TypeExpr ts.length := do
  match ← readOperand ts with
  | ⟨first, [], _⟩ => return ⟨first, [], by omega⟩
  | ⟨first, t :: more, _⟩ =>
    if t.kind = .ampersand then
      let ⟨others, rest', _⟩ ← readParts more
      return ⟨.composition (first :: others), rest', by simp only [List.length_cons] at *; omega⟩
    else return ⟨first, t :: more, by omega⟩
termination_by 8 * ts.length + 5
decreasing_by all_goals (try simp only [List.length_cons] at *); all_goals omega

/-- Reads the operands of a composition behind its first ampersand. -/
def readParts (ts : List Token) : Reading (List TypeExpr) ts.length := do
  match ← readOperand ts with
  | ⟨part, [], _⟩ => return ⟨[part], [], by omega⟩
  | ⟨part, t :: more, _⟩ =>
    if t.kind = .ampersand then
      let ⟨others, rest', _⟩ ← readParts more
      return ⟨part :: others, rest', by simp only [List.length_cons] at *; omega⟩
    else return ⟨[part], t :: more, by omega⟩
termination_by 8 * ts.length + 5
decreasing_by all_goals (try simp only [List.length_cons] at *); all_goals omega

/-- Reads an operand (`parse_type_postfix`): a primary type and the marks behind it. -/
def readOperand (ts : List Token) : Reading TypeExpr ts.length := do
  let ⟨primary, rest, _⟩ ← readPrimary ts
  return (← readMarks primary rest).widen (by omega)
termination_by 8 * ts.length + 4
decreasing_by all_goals omega

/-- Reads what may follow the type `type`: marks that touch it, and, if it is a path, further
segments. A dot need not touch; a dot that no name follows is left alone. -/
def readMarks (type : TypeExpr) (ts : List Token) : Reading TypeExpr (ts.length + 1) :=
  match ts with
  | [] => .ok (.stay type [])
  | t :: rest =>
    match t.kind, t.touches with
    | .question, true => do return (← readMarks (.optional type) rest).wider
    | .bang, true => do return (← readMarks (.implicitlyUnwrapped type) rest).wider
    | .dot, _ =>
      match type, rest with
      | .named path, n :: more =>
        if n.kind = .ident then do
          let ⟨segment, rest', _⟩ ← readSegment (n :: more)
          return (← readMarks (.named (path ++ [segment])) rest').widen
            (by simp only [List.length_cons] at *; omega)
        else .ok (.stay (.named path) (t :: n :: more))
      | type, rest => .ok (.stay type (t :: rest))
    | _, _ => .ok (.stay type (t :: rest))
termination_by 8 * ts.length + 1
decreasing_by all_goals simp only [List.length_cons] at *; omega

/-- Reads a primary type (`parse_type_primary`), told apart by its first token. -/
def readPrimary (ts : List Token) : Reading TypeExpr ts.length :=
  match ts with
  | [] => .error (.endOfInput .type)
  | t :: rest =>
    match t.kind with
    | .atSign => do
      let ⟨a, rest₁, _⟩ ← Attribute.read (t :: rest)
      let ⟨attributes, rest₂, _⟩ ← Attribute.readAll rest₁
      let ⟨operand, rest₃, _⟩ ← readOperand rest₂
      return ⟨.attributed ((a :: attributes).map (·.name)) operand, rest₃,
        by omega⟩
    | .ident =>
      if operandKeywords.contains t.text && startsOperand rest then do
        let ⟨operand, rest', _⟩ ← readOperand rest
        return ⟨.prefixed t.text operand, rest', by simp only [List.length_cons]; omega⟩
      else do
        let ⟨segment, rest', _⟩ ← readSegment (t :: rest)
        return ⟨.named [segment], rest', by omega⟩
    | .opening .square => do
      match ← read rest with
      | ⟨_, [], _⟩ => .error (.endOfInput (.closing .square))
      | ⟨element, s :: rest₂, _⟩ =>
        if s.kind = .colon then
          let ⟨value, rest₃, _⟩ ← read rest₂
          let ⟨_, rest₄, _⟩ ← Token.expect (.closing .square) (.closing .square) rest₃
          return ⟨.dictionary element value, rest₄,
            by simp only [List.length_cons] at *; omega⟩
        else
          let ⟨_, rest₃, _⟩ ← Token.expect (.closing .square) (.closing .square) (s :: rest₂)
          return ⟨.array element, rest₃, by simp only [List.length_cons]; omega⟩
    | .opening .parenthesis => do return (← readParenthesized rest).wider
    | _ => .error (.unexpected .type t)
termination_by 8 * ts.length + 3
decreasing_by all_goals simp only [List.length_cons] at *; omega

/-- Reads a segment of a path (`parse_path_segment`). An angle bracket that does not touch the name
is left alone. -/
def readSegment (ts : List Token) : Reading PathSegment ts.length := do
  match ← Token.expect .ident .typeName ts with
  | ⟨name, [], _⟩ => return ⟨.mk name.text [], [], by omega⟩
  | ⟨name, t :: more, _⟩ =>
    if t.kind = .less && t.touches then
      let ⟨arguments, rest', _⟩ ← readArguments more
      return ⟨.mk name.text arguments, rest', by simp only [List.length_cons] at *; omega⟩
    else return ⟨.mk name.text [], t :: more, by omega⟩
termination_by 8 * ts.length + 2
decreasing_by all_goals simp only [List.length_cons] at *; omega

/-- Reads generic arguments up to the angle bracket that closes them. There is at least one, and no
comma may stand behind the last. -/
def readArguments (ts : List Token) : Reading (List TypeExpr) ts.length := do
  match ← read ts with
  | ⟨_, [], _⟩ => .error (.endOfInput .closingAngle)
  | ⟨argument, t :: more, _⟩ =>
    if t.kind = .comma then
      let ⟨others, rest', _⟩ ← readArguments more
      return ⟨argument :: others, rest', by simp only [List.length_cons] at *; omega⟩
    else
      let ⟨_, rest', _⟩ ← Token.expect .greater .closingAngle (t :: more)
      return ⟨[argument], rest', by omega⟩
termination_by 8 * ts.length + 6
decreasing_by all_goals (try simp only [List.length_cons] at *); all_goals omega

/-- Reads a tuple or function type behind its opening parenthesis (`parse_tuple_or_function`). Only
an arrow tells which of the two it is; effects without an arrow are an error. -/
def readParenthesized (ts : List Token) : Reading TypeExpr ts.length := do
  let ⟨elements, rest₁, _⟩ ← readElements ts
  match ← readEffects rest₁ with
  | ⟨effects, [], _⟩ =>
    if effects.isEmpty then return ⟨.tuple elements, [], by omega⟩
    else .error (.endOfInput .arrow)
  | ⟨effects, t :: more, _⟩ =>
    if t.kind = .arrow then
      let ⟨result, rest₃, _⟩ ← read more
      return ⟨.function elements effects result, rest₃,
        by simp only [List.length_cons] at *; omega⟩
    else if effects.isEmpty then return ⟨.tuple elements, t :: more, by omega⟩
    else .error (.unexpected .arrow t)
termination_by 8 * ts.length + 7
decreasing_by all_goals (try simp only [List.length_cons] at *); all_goals omega

/-- Reads the elements of a tuple up to the parenthesis that closes it. A comma may stand behind the
last one and is not kept. -/
def readElements (ts : List Token) : Reading (List TupleElement) ts.length :=
  match ts with
  | [] => .error (.endOfInput .type)
  | t :: rest =>
    if t.kind = .closing .parenthesis then .ok (.past [] rest)
    else do
      let ⟨label, rest₁, _⟩ := readLabel (t :: rest)
      let ⟨type, rest₂, _⟩ ← read rest₁
      match skipDots rest₂ with
      | ⟨_, [], _⟩ => .error (.endOfInput .commaOrParenthesis)
      | ⟨_, s :: more, _⟩ =>
        if s.kind = .comma then
          let ⟨elements, rest₃, _⟩ ← readElements more
          return ⟨.mk label type :: elements, rest₃,
            by simp only [List.length_cons] at *; omega⟩
        else if s.kind = .closing .parenthesis then
          return ⟨[.mk label type], more, by simp only [List.length_cons] at *; omega⟩
        else .error (.unexpected .commaOrParenthesis s)
termination_by 8 * ts.length + 6
decreasing_by all_goals simp only [List.length_cons] at *; omega

/-- Reads the effects of a function type. A type in parentheses that touches an effect belongs to
it, as in `throws(E)`, and is kept as text. -/
def readEffects (ts : List Token) : Reading (List String) (ts.length + 1) :=
  match ts with
  | [] => .ok (.stay [] [])
  | t :: rest =>
    if t.isWordIn effectWords then
      match rest with
      | [] => .ok (.wider (.past [t.text] []))
      | s :: more =>
        if s.kind = .opening .parenthesis && s.touches then do
          let ⟨error, rest₁, _⟩ ← read more
          let ⟨_, rest₂, _⟩ ← Token.expect (.closing .parenthesis) (.closing .parenthesis) rest₁
          let ⟨effects, rest₃, _⟩ ← readEffects rest₂
          return ⟨(t.text ++ "(" ++ error.render ++ ")") :: effects, rest₃,
            by simp only [List.length_cons]; omega⟩
        else do
          let ⟨effects, rest₁, _⟩ ← readEffects (s :: more)
          return ⟨t.text :: effects, rest₁, by simp only [List.length_cons] at *; omega⟩
    else .ok (.stay [] (t :: rest))
termination_by 8 * ts.length + 1
decreasing_by all_goals simp only [List.length_cons]; omega

end

end CodableSynthesis.TypeExpr
