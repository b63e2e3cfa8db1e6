import CodableSynthesis.Proofs.Relocation.Layouts
import CodableSynthesis.Proofs.Respelling.Laid

/-!
Texts laid out in lines. The first line begins the text; each further one stands behind a line feed
and some blanks.

* `Line`: a line of laid out tokens and its indentation.
* `Line.Sound`: the text of a line is cut into its tokens in front of the end of a line.
* `tokenize_lines`: the tokens of a text in lines.
* `readSource_of_lines`: such a text is read as its laid out tokens are, but for places.

This is how sources that are made from data, such as a class with given properties, are read without
running the lexer on them: their tokens are known by construction, and whether they are a file is a
question about the grammar.
-/

namespace CodableSynthesis

open Lexeme (Spelling Stops)
open Trivia (Whole)

/-- A line of laid out tokens behind some blanks. -/
structure Line where
  /-- The blanks in front of its first token. -/
  indent : Nat
  /-- The tokens, laid out on one line. -/
  tokens : List Token

/-- The same tokens at the beginning of a line. -/
def fresh : List Token → List Token
  | [] => []
  | t :: ts => { t with newlineBefore := true, touches := false } :: ts

@[simp] theorem fresh_laid {b : Bool} {kind : TokenKind} {text : String} {ts : List Token} :
    fresh (.laid b kind text :: ts) = .begun kind text :: ts := rfl

namespace Line

/-- The text of a line. -/
def text (l : Line) : List Char :=
  List.replicate l.indent ' ' ++ laidText (lead true l.tokens)

/-- The tokens of a line. -/
def words (l : Line) : List Token :=
  fresh l.tokens

/-- The tokens of a line as the lexer finds them behind a line feed. -/
def lexemes (l : Line) : List Lexeme :=
  match l.tokens with
  | [] => []
  | t :: ts => ⟨⟨'\n' :: List.replicate l.indent ' ', true⟩, t.kind, t.chars⟩ :: ts.map Token.lexeme

/-- The text of lines, each behind a line feed. -/
def join (ls : List Line) : List Char :=
  ls.flatMap fun l => '\n' :: l.text

end Line

/-- The end of a line, or of the text. -/
def AtLineEnd (cs : List Char) : Prop :=
  ∀ c ∈ cs.head?, c = '\n'

/-- The text of a line is cut into its tokens. -/
structure Line.Sound (l : Line) : Prop where
  /-- There is a token on the line. -/
  nonempty : l.tokens ≠ []
  /-- There is no line break in it. -/
  flat : ∀ t ∈ l.tokens, t.newlineBefore = false
  /-- Its tokens come in front of the end of a line. -/
  cut : ∀ {ls : List Lexeme} {cs : List Char}, AtLineEnd cs → Cut ls cs →
    Cut ((lead true l.tokens).map Token.lexeme ++ ls) (laidText (lead true l.tokens) ++ cs)

/-- A lexeme that becomes the given token, wherever it stands. -/
structure Lexeme.Becomes (l : Lexeme) (t : Token) : Prop where
  kind : l.kind = t.kind
  text : l.text = t.chars
  crossed : l.gap.crossed = t.newlineBefore
  touches : l.gap.text.isEmpty = t.touches

/-- A laid out token is what the lexer finds of its text. -/
theorem Token.lexeme_becomes {t : Token} (flat : t.newlineBefore = false) : t.lexeme.Becomes t where
  kind := rfl
  text := rfl
  crossed := by
    rw [flat, lexeme]
    cases t.touches <;> rfl
  touches := by
    rw [lexeme]
    cases t.touches <;> rfl

theorem lexemes_become {us : List Token} (flat : ∀ u ∈ us, u.newlineBefore = false) :
    List.Forall₂ Lexeme.Becomes (us.map Token.lexeme) us :=
  List.forall₂_map_left_iff.mpr (List.forall₂_same.mpr fun t mem => Token.lexeme_becomes (flat t mem))

/-- Lexemes that become some tokens are these tokens once they are placed, but for their places. -/
theorem sameTokens_place {ls : List Lexeme} {us : List Token}
    (h : List.Forall₂ Lexeme.Becomes ls us)
    (p : Text.Position) : SameTokens .blind us (Token.place p ls) := by
  induction h generalizing p with
  | nil => exact .nil
  | cons becomes _ ih =>
    refine .cons ⟨⟨becomes.kind.symm, ?_, rfl⟩, becomes.crossed.symm, becomes.touches.symm⟩ (ih _)
    rw [becomes.text, Token.chars, String.ofList_toList]

theorem Cut.regap {gap gap' : Gap} {kind : TokenKind} {text cs : List Char} {ls : List Lexeme}
    (h : Cut (⟨gap, kind, text⟩ :: ls) (gap.text ++ cs)) (whole : Whole gap'.text gap'.crossed) :
    Cut (⟨gap', kind, text⟩ :: ls) (gap'.text ++ cs) := by
  generalize made : gap.text ++ cs = all at h
  cases h with
  | lexeme _ spelled stops later =>
    rw [List.append_cancel_left made]
    exact .lexeme whole spelled stops later

theorem Trivia.Whole.indented (n : Nat) : Whole ('\n' :: List.replicate n ' ') true := by
  have blanks : Whole (List.replicate n ' ') false := by
    induction n with
    | zero => exact .nil
    | succ n ih => exact .space (by decide) ih
  exact .space (by decide) blanks

theorem AtLineEnd.lineFeed {cs : List Char} : AtLineEnd ('\n' :: cs) := by
  rintro _ ⟨⟩
  rfl

theorem AtLineEnd.nil : AtLineEnd [] := by
  rintro _ ⟨⟩

theorem AtLineEnd.endsName {cs : List Char} (h : AtLineEnd cs) : EndsName cs := by
  intro c head
  rw [h c head]
  decide

namespace Line

variable {l : Line} {ls : List Line} {tail : List Char}

/-- A line is sound if its tokens are cut in front of more than the end of a line. -/
theorem sound_of_cuts (nonempty : l.tokens ≠ []) (cuts : Cuts (lead true l.tokens)) : l.Sound where
  nonempty := nonempty
  flat := by
    obtain ⟨indent, tokens⟩ := l
    cases tokens with
    | nil => exact absurd rfl nonempty
    | cons t ts =>
      obtain ⟨first, others⟩ := List.forall_mem_cons.mp cuts.flat
      exact List.forall_mem_cons.mpr ⟨first, others⟩
  cut ends cut := cuts.cut ends.endsName cut

/-- A line in front of the end of another one. -/
theorem Sound.cut_lexemes (h : l.Sound) {ls : List Lexeme} {cs : List Char} (ends : AtLineEnd cs)
    (cut : Cut ls cs) : Cut (l.lexemes ++ ls) ('\n' :: l.text ++ cs) := by
  obtain ⟨indent, tokens⟩ := l
  cases tokens with
  | nil => exact absurd rfl h.nonempty
  | cons t ts =>
    have here := h.cut ends cut
    rw [lead_cons] at here
    have moved := @Cut.regap .none ⟨'\n' :: List.replicate indent ' ', true⟩ _ _ _ _ here
      (Trivia.Whole.indented indent)
    simpa [lexemes, text, lead_cons, Token.chars] using moved

theorem Sound.becomes (h : l.Sound) : List.Forall₂ Lexeme.Becomes l.lexemes l.words := by
  obtain ⟨indent, tokens⟩ := l
  cases tokens with
  | nil => exact absurd rfl h.nonempty
  | cons t ts =>
    obtain ⟨-, flat⟩ := List.forall_mem_cons.mp h.flat
    exact .cons ⟨rfl, rfl, rfl, rfl⟩ (lexemes_become flat)

theorem atLineEnd_join (ends : AtLineEnd tail) : AtLineEnd (join ls ++ tail) := by
  cases ls with
  | nil => exact ends
  | cons l ls => exact .lineFeed

theorem cut_join (sound : ∀ l ∈ ls, l.Sound) (ends : AtLineEnd tail) (trailing : Trailing tail) :
    Cut (ls.flatMap lexemes) (join ls ++ tail) := by
  induction ls with
  | nil => exact .done trailing
  | cons l ls ih =>
    obtain ⟨here, later⟩ := List.forall_mem_cons.mp sound
    have cut := here.cut_lexemes (atLineEnd_join ends) (ih later)
    simpa [join] using cut

theorem becomes_lines (sound : ∀ l ∈ ls, l.Sound) :
    List.Forall₂ Lexeme.Becomes (ls.flatMap lexemes) (ls.flatMap words) := by
  induction ls with
  | nil => exact .nil
  | cons l ls ih =>
    obtain ⟨here, later⟩ := List.forall_mem_cons.mp sound
    rw [List.flatMap_cons, List.flatMap_cons]
    exact List.rel_append here.becomes (ih later)

end Line

section

variable {first : List Token} {ls : List Line} {tail : List Char}

/-- The text of a first line and further lines is cut into their tokens. -/
theorem tokenize_lines (cuts : Cuts first) (sound : ∀ l ∈ ls, l.Sound) (ends : AtLineEnd tail)
    (trailing : Trailing tail) {source : String}
    (text : source.toList = laidText first ++ Line.join ls ++ tail) :
    tokenize source =
      .ok (Token.place .start (first.map Token.lexeme ++ ls.flatMap Line.lexemes)) := by
  have cut := cuts.cut (Line.atLineEnd_join ends).endsName (Line.cut_join sound ends trailing)
  rw [tokenize, text, List.append_assoc, Cut.lexemes_iff.mpr cut]

/-- The tokens of a text in lines are those laid out, but for places. -/
theorem sameTokens_lines (cuts : Cuts first) (sound : ∀ l ∈ ls, l.Sound) (p : Text.Position) :
    SameTokens .blind (first ++ ls.flatMap Line.words)
      (Token.place p (first.map Token.lexeme ++ ls.flatMap Line.lexemes)) :=
  sameTokens_place (List.rel_append (lexemes_become cuts.flat) (Line.becomes_lines sound)) p

/-- If the tokens of the lines are a file, the text is read as that file, but for places. -/
theorem readSource_of_lines (cuts : Cuts first) (sound : ∀ l ∈ ls, l.Sound) (ends : AtLineEnd tail)
    (trailing : Trailing tail) {source : String}
    (text : source.toList = laidText first ++ Line.join ls ++ tail) {ms : List Member}
    (file : FileSpelled (first ++ ls.flatMap Line.words) ms) :
    ∃ ds, readSource source = .ok ds ∧
      List.Forall₂ (Declaration.Same .blind) (ms.filterMap Member.type?) ds := by
  have outcome := Declaration.readFile_same (sameTokens_lines cuts sound .start).behind
  rw [file.readFile] at outcome
  rw [readSource, tokenize_lines cuts sound ends trailing text]
  simp only [bind, Except.bind]
  generalize Declaration.readFile (Token.place _ _) = read at outcome ⊢
  cases outcome with
  | ok same => exact ⟨_, rfl, same⟩

end

end CodableSynthesis
