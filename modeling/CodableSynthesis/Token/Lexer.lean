import CodableSynthesis.SourceError
import CodableSynthesis.Text.Alphabetic
import CodableSynthesis.Text.Bytes
import CodableSynthesis.Token.Literal

/-!
Cutting a source text into tokens, in two steps. `lexemes` cuts the characters and knows nothing of
positions: each lexeme holds the text skipped before it and its own. `place` walks along the lexemes
and gives each its span. So the texts of the lexemes, with what lies between them, make up the
source, and a position is a matter of counting characters.

The program does both at once. Its scanner has a cursor, the number of the line and the offset the
line begins at, moves the cursor by bytes and, past a literal or a name, by jumps, and counts the
characters of the line up to a token when it needs the column. The second pass here has no cursor
that could be wrong; that its counts are those of the text is stated by `tokenize_located`.
-/

namespace CodableSynthesis

/-- A token as it stands in the text: what was skipped before it, and its own characters. -/
structure Lexeme where
  gap : Gap
  kind : TokenKind
  text : List Char
  deriving DecidableEq, Repr

namespace Lexeme

/-- The tokens that are one character long whatever follows. -/
def punctuation? : Char → Option TokenKind
  | '\x7b' => some (.opening .brace)
  | '\x7d' => some (.closing .brace)
  | '(' => some (.opening .parenthesis)
  | ')' => some (.closing .parenthesis)
  | '[' => some (.opening .square)
  | ']' => some (.closing .square)
  | '<' => some .less
  | '>' => some .greater
  | ':' => some .colon
  | ',' => some .comma
  | ';' => some .semicolon
  | '.' => some .dot
  | '?' => some .question
  | '!' => some .bang
  | '=' => some .equals
  | '&' => some .ampersand
  | '@' => some .atSign
  | _ => none

/-- Whether a name may begin with a character. -/
def startsName (c : Char) : Bool :=
  c == '_' || c == '$' || Text.isAlphabetic c

/-- Whether a name may go on with a character. -/
def continuesName (c : Char) : Bool :=
  c == '_' || c == '$' || Text.isAlphabetic c || Text.isNumeric c

/-- The rest of the name in backticks whose first backtick was just read, and what follows; nothing
if the line or the text ends before the second. The backticks belong to the name. -/
def ticked : List Char → Option (List Char × List Char)
  | [] => none
  | c :: rest =>
    if c = '`' then some (['`'], rest)
    else if c = '\n' then none
    else (ticked rest).map fun (name, rest) => (c :: name, rest)

/-- A name in backticks and what follows it make up the text. -/
theorem append_of_ticked {cs name rest : List Char} (h : ticked cs = some (name, rest)) :
    name ++ rest = cs := by
  fun_induction ticked cs generalizing name with
  | case1 | case3 => simp at h
  | case2 => grind
  | case4 c cs _ _ ih =>
    obtain ⟨⟨inner, after⟩, hi, he⟩ := Option.map_eq_some_iff.1 h
    simp only [Prod.mk.injEq] at he
    obtain ⟨rfl, rfl⟩ := he
    simp [ih hi]

/-- A name in backticks leaves no more than it was given. -/
theorem length_ticked {cs name rest : List Char} (h : ticked cs = some (name, rest)) :
    rest.length ≤ cs.length := by
  rw [← append_of_ticked h]
  simp

/-- What is found behind the characters that were dropped is an end of the text, and not all of
it. -/
theorem length_of_dropWhile {p : Char → Bool} {c : Char} {cs rest : List Char}
    (h : cs.dropWhile p = c :: rest) : rest.length < cs.length := by
  have := (List.dropWhile_sublist (l := cs) p).length_le
  rw [h] at this
  exact this

/-- Reads the token that `c :: cs` begins with, `c` being no white space and beginning no comment:
`scan_token`. The value is what the token is and its characters. Number signs begin a raw literal if
a quote follows the last of them; else the first is a token of its own. A character that begins
nothing else is an operator. -/
def scan (c : Char) (cs : List Char) :
    Except LexicalFault (Step Char (TokenKind × List Char) (cs.length + 1)) :=
  match punctuation? c with
  | some kind => .ok (.stay (kind, [c]) cs)
  | none =>
    if c = '-' && cs.head? == some '>' then
      .ok ⟨(.arrow, ['-', '>']), cs.tail, Nat.lt_succ_of_le (List.tail_sublist cs).length_le⟩
    else if c = '"' then do
      return (← Literal.string 0 cs).map fun body => (.stringLiteral, c :: body)
    else if c = '#' then
      let pounds := cs.takeWhile (· == '#')
      match h : cs.dropWhile (· == '#') with
      | '"' :: rest => do
        let s ← Literal.string (pounds.length + 1) rest
        return (s.map fun body => (.stringLiteral, c :: pounds ++ '"' :: body)).widen
          (Nat.le_succ_of_le (length_of_dropWhile h))
      | _ => .ok (.stay (.pound, [c]) cs)
    else if c = '`' then
      match h : ticked cs with
      | some (name, rest) =>
        .ok ⟨(.ident, c :: name), rest, Nat.lt_succ_of_le (length_ticked h)⟩
      | none => .error ⟨.unterminatedName, c :: cs⟩
    else if hd : c.isDigit then
      .ok ⟨(.number, (Literal.number (c :: cs)).1), (Literal.number (c :: cs)).2,
        Nat.lt_succ_of_le (Literal.length_number hd cs)⟩
    else if startsName c then
      .ok ⟨(.ident, c :: cs.takeWhile continuesName), cs.dropWhile continuesName,
        Nat.lt_succ_of_le (List.dropWhile_sublist _).length_le⟩
    else .ok (.stay (.operator, [c]) cs)

end Lexeme

/-- Cuts a text into lexemes: the loop of `tokenize`, without its counters. What is skipped behind
the last token belongs to none. -/
def lexemes (cs : List Char) : Except LexicalFault (List Lexeme) := do
  let ⟨gap, rest, h⟩ ← Trivia.skip cs
  match rest, h with
  | [], _ => return []
  | c :: tail, _ =>
    let ⟨(kind, text), after, _⟩ ← Lexeme.scan c tail
    let later ← lexemes after
    return ⟨gap, kind, text⟩ :: later
termination_by cs.length
decreasing_by simp at *; omega

namespace Token

/-- Gives each of some lexemes its place, the first gap beginning at `p`. This is a pass of its own:
the program takes the place of a token from the counters of its scanner while it cuts it (`line`,
`line_start` and `column_of`), and here the place is counted from the texts that were passed
over. -/
def place (p : Text.Position) : List Lexeme → List Token
  | [] => []
  | l :: ls =>
    let first := p.advance l.gap.text
    let last := first.advance l.text
    ⟨l.kind, String.ofList l.text, .between first last, l.gap.crossed, l.gap.text.isEmpty⟩
      :: place last ls

end Token

/-- A lexical fault at the position its remaining text has in the source. The program takes the line
and column when it finds the fault (`error_here`); here they are those behind the text that was
consumed. -/
def LexicalFault.toSourceError (source : List Char) (f : LexicalFault) : SourceError :=
  let p := Text.Position.start.advance (consumed source f.remaining)
  ⟨p.line, p.column,
    match f.cause with
    | .unterminatedString => .unterminatedString
    | .unterminatedComment => .unterminatedComment
    | .unterminatedName => .unexpected .closingBacktick .endOfLine⟩

/-- The tokens of a source text, or why and where it cannot be cut. -/
def tokenize (source : String) : Except SourceError (List Token) :=
  match lexemes source.toList with
  | .ok ls => .ok (Token.place .start ls)
  | .error f => .error (f.toSourceError source.toList)

end CodableSynthesis
