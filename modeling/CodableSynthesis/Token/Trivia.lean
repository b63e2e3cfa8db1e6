import CodableSynthesis.Step
import CodableSynthesis.Text.CodePoint
import CodableSynthesis.Token.Basic

/-!
What lies between tokens: white space, comments up to the end of a line, and block comments, which
nest. The readers work on the characters still to come and give back the ones they leave, so that a
fault is told by the text that remains at it, whatever came before.

`Trivia.skip` keeps the text it passes over. It is needed to count positions, and it lets the
lexemes of a source be put together again to the source.
-/

namespace CodableSynthesis

/-- Why the characters of a text cannot be cut into tokens. -/
inductive LexicalFault.Cause where
  | unterminatedString
  | unterminatedComment
  /-- A name in backticks that its line does not close. -/
  | unterminatedName
  deriving DecidableEq, Repr

/-- A fault and the text from the character it is reported at: the quote, slash or backtick that is
never matched. Where that is in the source is counted later (`LexicalFault.toSourceError`). -/
structure LexicalFault where
  cause : LexicalFault.Cause
  remaining : List Char
  deriving DecidableEq, Repr

/-- What lies before a token. -/
structure Gap where
  text : List Char
  /-- Whether a line break is crossed: a line feed anywhere, also within a block comment, or a line
  separator outside comments. -/
  crossed : Bool
  deriving DecidableEq, Repr

namespace Gap

/-- No gap. -/
def none : Gap :=
  ⟨[], false⟩

/-- A gap with more in front of it. A line break that was crossed in either part was crossed. -/
def behind (front : List Char) (crossed : Bool) (g : Gap) : Gap :=
  ⟨front ++ g.text, crossed || g.crossed⟩

end Gap

namespace Trivia

/-- The rest of the block comment whose opening was just read, `depth` further comments being open
around it, and what follows; nothing if it does not end. This is the inner loop of `skip_trivia`,
which counts how deep it is in comments. -/
def closeComment (depth : Nat) : List Char → Option (List Char × List Char)
  | '/' :: '*' :: cs =>
    (closeComment (depth + 1) cs).map fun (body, rest) => ('/' :: '*' :: body, rest)
  | '*' :: '/' :: cs =>
    match depth with
    | 0 => some (['*', '/'], cs)
    | outer + 1 => (closeComment outer cs).map fun (body, rest) => ('*' :: '/' :: body, rest)
  | c :: cs => (closeComment depth cs).map fun (body, rest) => (c :: body, rest)
  | [] => .none

/-- A block comment and what follows it make up the text. -/
theorem append_of_closeComment {depth : Nat} {cs body rest : List Char}
    (h : closeComment depth cs = some (body, rest)) : body ++ rest = cs := by
  fun_induction closeComment depth cs generalizing body with
  | case1 depth cs ih | case3 cs outer ih | case4 depth c cs _ _ ih =>
    obtain ⟨⟨inner, after⟩, hi, he⟩ := Option.map_eq_some_iff.1 h
    simp only [Prod.mk.injEq] at he
    obtain ⟨rfl, rfl⟩ := he
    simp [ih hi]
  | case2 cs => grind
  | case5 => simp at h

/-- A block comment leaves no more than it was given. -/
theorem length_closeComment {depth : Nat} {cs body rest : List Char}
    (h : closeComment depth cs = some (body, rest)) : rest.length ≤ cs.length := by
  rw [← append_of_closeComment h]
  simp

/-- Whether a character does not end its line. A comment to the end of its line leaves the line
feed, which is white space and counts as a line break of its own. -/
def withinLine (c : Char) : Bool :=
  c != '\n'

/-- Skips what lies before the next token: `skip_trivia`. A slash that begins no comment is left; it
is a token. The line break that a comment to the end of its line runs up to is found in the next
round, in a block comment it is looked for in the text of the comment. -/
def skip (cs : List Char) : Except LexicalFault (Step Char Gap (cs.length + 1)) :=
  match cs with
  | [] => .ok (.stay .none [])
  | '/' :: '/' :: rest => do
    have := (List.dropWhile_sublist (l := rest) withinLine).length_le
    let gap ← skip (rest.dropWhile withinLine)
    return (gap.map (.behind ('/' :: '/' :: rest.takeWhile withinLine) false)).widen
      (by simp only [List.length_cons]; omega)
  | '/' :: '*' :: rest =>
    match h : closeComment 0 rest with
    | .none => .error ⟨.unterminatedComment, '/' :: '*' :: rest⟩
    | some (body, after) => do
      have := length_closeComment h
      let gap ← skip after
      return (gap.map (.behind ('/' :: '*' :: body) (body.contains '\n'))).widen
        (by simp only [List.length_cons]; omega)
  | c :: rest =>
    if Text.isWhiteSpace c then do
      let gap ← skip rest
      return (gap.map (.behind [c] (c == '\n' || Text.isLineSeparator c))).wider
    else .ok (.stay .none (c :: rest))
termination_by cs.length
decreasing_by all_goals simp only [List.length_cons]; omega

end Trivia

end CodableSynthesis
