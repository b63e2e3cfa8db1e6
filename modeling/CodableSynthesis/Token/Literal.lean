import CodableSynthesis.Token.Trivia

/-!
Numbers and string literals. A string literal may be raw (`#"…"#`), may span lines (three quotes),
and may hold interpolations, which hold literals again; both are read by one pair of mutually
recursive readers.

The reader of interpolations knows parentheses and quotes and nothing else: comments, raw literals
and names in backticks are characters to it, so what is code within an interpolation is not read as
it is read outside of one.
-/

namespace CodableSynthesis.Literal

/-- The number a text begins with, and what follows it: letters, digits and underscores belong to
the number, and a point that a digit follows (`scan_number`). A sign in an exponent does not; `1e-3`
is three tokens. -/
def number : List Char → List Char × List Char
  | [] => ([], [])
  | '.' :: d :: rest =>
    if d.isDigit then
      let (digits, rest) := number (d :: rest)
      ('.' :: digits, rest)
    else ([], '.' :: d :: rest)
  | c :: rest =>
    if c.isAlphanum || c == '_' then
      let (digits, rest) := number rest
      (c :: digits, rest)
    else ([], c :: rest)

/-- A number and what follows it make up the text. -/
theorem number_append (cs : List Char) : (number cs).1 ++ (number cs).2 = cs := by
  fun_induction number cs <;> grind

/-- A number that begins with a digit is not empty. -/
theorem length_number {d : Char} (h : d.isDigit = true) (cs : List Char) :
    (number (d :: cs)).2.length ≤ cs.length := by
  have hd : d ≠ '.' := by rintro rfl; simp at h
  have ha : d.isAlphanum = true := by simp [Char.isAlphanum, h]
  rw [number.eq_3 d cs (by rintro d' rest rfl; exact absurd rfl hd)]
  have := congrArg List.length (number_append cs)
  simp at this
  simp [ha]
  omega

/-- The text behind `front`, if a text begins with it. -/
def after? : List Char → List Char → Option (List Char)
  | [], cs => some cs
  | _ :: _, [] => none
  | f :: front, c :: cs => if f = c then after? front cs else none

/-- A text begins with `front` exactly if it is `front` and what lies behind it. -/
theorem after?_eq_some_iff {front cs rest : List Char} :
    after? front cs = some rest ↔ cs = front ++ rest := by
  induction front generalizing cs with
  | nil => simp [after?]
  | cons f front ih =>
    cases cs with
    | nil => simp [after?]
    | cons c cs =>
      by_cases h : f = c
      · simp [after?, h, ih]
      · simp [after?, h, Ne.symm h]

/-- How a string literal is delimited: by one quote or three, and by some number signs. -/
structure Delimiter where
  multiline : Bool
  pounds : Nat
  deriving DecidableEq, Repr

namespace Delimiter

/-- What ends the literal. -/
def closing (d : Delimiter) : List Char :=
  (if d.multiline then ['"', '"', '"'] else ['"']) ++ List.replicate d.pounds '#'

/-- What begins an escape in the literal. -/
def escape (d : Delimiter) : List Char :=
  '\\' :: List.replicate d.pounds '#'

theorem length_after_closing {d : Delimiter} {cs rest : List Char}
    (h : after? d.closing cs = some rest) : rest.length < cs.length := by
  rw [after?_eq_some_iff.1 h]
  cases hm : d.multiline <;> grind [closing]

theorem length_after_escape {d : Delimiter} {cs rest : List Char}
    (h : after? d.escape cs = some rest) : rest.length < cs.length := by
  rw [after?_eq_some_iff.1 h]
  grind [escape]

end Delimiter

mutual

/-- Reads the string literal whose first quote was just read, behind `pounds` number signs: the
beginning of `scan_string`, which tells three quotes from one. The value is what it read. Two quotes
behind the first make a literal of three quotes, so an empty literal is told by what follows it only
where that is no quote. -/
def string (pounds : Nat) (cs : List Char) :
    Except LexicalFault (Step Char (List Char) (cs.length + 1)) :=
  match h : after? ['"', '"'] cs with
  | some rest => do
    have := after?_eq_some_iff.1 h
    let body ← stringBody ⟨true, pounds⟩ ('"' :: cs) rest
    return (body.map (['"', '"'] ++ ·)).widen (by simp [this])
  | none => stringBody ⟨false, pounds⟩ ('"' :: cs) cs
termination_by 2 * cs.length + 1

/-- Reads up to the end of the string literal that begins with `whole`: the loop of `scan_string`.
Only a literal with one quote ends in a fault at a line feed. The fault is reported at the beginning
of the literal, so `whole` is carried along. -/
def stringBody (d : Delimiter) (whole cs : List Char) :
    Except LexicalFault (Step Char (List Char) (cs.length + 1)) :=
  match hc : after? d.closing cs with
  | some rest =>
    .ok ⟨d.closing, rest, by have := Delimiter.length_after_closing hc; omega⟩
  | none =>
    if !d.multiline && cs.head? == some '\n' then .error ⟨.unterminatedString, whole⟩
    else
      -- an escape takes one character with it, whatever that is, so a quote behind it ends nothing
      match he : after? d.escape cs with
      | some ('(' :: rest) => do
        have := Delimiter.length_after_escape he
        let ⟨inner, rest', h⟩ ← interpolation 0 whole rest
        let more ← stringBody d whole rest'
        return (more.map (d.escape ++ '(' :: inner ++ ·)).widen (by simp at *; omega)
      | some (c :: rest) => do
        have := Delimiter.length_after_escape he
        let more ← stringBody d whole rest
        return (more.map (d.escape ++ c :: ·)).widen (by simp at *; omega)
      | some [] => .error ⟨.unterminatedString, whole⟩
      | none =>
        match cs with
        | c :: rest => do
          let more ← stringBody d whole rest
          return (more.map (c :: ·)).wider
        | [] => .error ⟨.unterminatedString, whole⟩
termination_by 2 * cs.length
decreasing_by all_goals simp at *; try omega

/-- Reads up to the parenthesis that ends the interpolation just opened in the literal `whole`,
`depth` further parentheses being open within it: `skip_interpolation`. Every quote begins a plain
literal, whatever number signs stand in front of it, and that literal may span lines or hold
interpolations of its own. -/
def interpolation (depth : Nat) (whole cs : List Char) :
    Except LexicalFault (Step Char (List Char) cs.length) :=
  match cs with
  | [] => .error ⟨.unterminatedString, whole⟩
  | '(' :: rest => do
    let more ← interpolation (depth + 1) whole rest
    return (more.map ('(' :: ·)).wider
  | ')' :: rest =>
    match depth with
    | 0 => .ok ⟨[')'], rest, by simp⟩
    | outer + 1 => do
      let more ← interpolation outer whole rest
      return (more.map (')' :: ·)).wider
  | '"' :: rest => do
    let ⟨inner, rest', h⟩ ← string 0 rest
    let more ← interpolation depth whole rest'
    return (more.map ('"' :: inner ++ ·)).widen (by simp; omega)
  | c :: rest => do
    let more ← interpolation depth whole rest
    return (more.map (c :: ·)).wider
termination_by 2 * cs.length
decreasing_by all_goals simp at *; try omega

end

end CodableSynthesis.Literal
