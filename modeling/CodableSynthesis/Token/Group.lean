import CodableSynthesis.Token.Reading

/-!
Skipping bracketed groups. `Group.close` reads to the end of a group in which all three kinds of
brackets nest; the two readers of angle brackets tell a generic clause of a declaration, which must
close, from generic arguments in an expression, which may turn out to be a comparison.

Brackets are matched by a stack of what is open, passed along as the innermost one and those around
it. Angle brackets are no brackets in this sense: they are counted, and each reader of them has its
own rule for what may stand between.
-/

namespace CodableSynthesis.Group

/-- Reads to the bracket that closes `inner`, which was opened inside `outer`, innermost first:
`skip_balanced` behind its opening bracket. The value is the token that closes the outermost. A
closing bracket of another kind than the innermost open one is a fault at that bracket. -/
def close (inner : Bracket) (outer : List Bracket) : (ts : List Token) → Reading Token ts.length
  | [] => .error (.endOfInput (.closing inner))
  | t :: ts =>
    match t.kind with
    | .opening b => do return (← close b (inner :: outer) ts).wider
    | .closing b =>
      if b = inner then
        match outer with
        | [] => .ok (.past t ts)
        | next :: outer => do return (← close next outer ts).wider
      else .error (.unexpected (.closing b) t)
    | _ => do return (← close inner outer ts).wider

/-- Skips arguments in parentheses, if they follow without a gap; the value is the token that closes
them. Attributes and directives have their arguments skipped so: a parenthesis behind a gap belongs
to what follows. -/
def skipArguments (ts : List Token) : Reading (Option Token) (ts.length + 1) :=
  match ts with
  | [] => .ok (.stay none [])
  | t :: rest =>
    if t.kind = .opening .parenthesis && t.touches then do
      let s ← close .parenthesis [] rest
      return (s.map some).wider.wider
    else .ok (.stay none (t :: rest))

/-- Reads to the angle bracket that closes a generic clause, `depth` further ones being open:
`skip_angle_brackets`. Parentheses and square brackets within it are groups of their own; a brace is
passed over like a name. -/
def closeAngle (depth : Nat) (ts : List Token) : Reading Unit ts.length :=
  match ts with
  | [] => .error (.endOfInput .closingAngle)
  | t :: ts =>
    match t.kind with
    | .less => do return (← closeAngle (depth + 1) ts).wider
    | .greater =>
      match depth with
      | 0 => .ok (.past () ts)
      | outer + 1 => do return (← closeAngle outer ts).wider
    | .opening .parenthesis => do
      let ⟨_, rest, _⟩ ← close .parenthesis [] ts
      return (← closeAngle depth rest).widen (by simp; omega)
    | .opening .square => do
      let ⟨_, rest, _⟩ ← close .square [] ts
      return (← closeAngle depth rest).widen (by simp; omega)
    | _ => do return (← closeAngle depth ts).wider
termination_by ts.length
decreasing_by all_goals simp; try omega

/-- Whether a token may stand between the angle brackets of generic arguments, these apart. -/
def isArgumentToken (t : Token) : Bool :=
  match t.kind with
  | .ident | .comma | .dot | .colon | .question | .bang | .ampersand | .arrow => true
  | .opening b | .closing b => b != .brace
  | _ => false

/-- What follows the angle bracket that closes generic arguments, `depth` further ones being open;
nothing if a token comes first that no type is made of: `try_skip_generic_arguments`. Brackets are
not matched on the way, and line breaks are not looked at, so a comparison may be taken for generic
arguments that end lines further on. -/
def afterArguments? (depth : Nat) : (ts : List Token) → Option (Step Token Unit ts.length)
  | [] => none
  | t :: ts =>
    match t.kind with
    | .less => (afterArguments? (depth + 1) ts).map (·.wider)
    | .greater =>
      match depth with
      | 0 => some (.past () ts)
      | outer + 1 => (afterArguments? outer ts).map (·.wider)
    | _ => if isArgumentToken t then (afterArguments? depth ts).map (·.wider) else none

end CodableSynthesis.Group
