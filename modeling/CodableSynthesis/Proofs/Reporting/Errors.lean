import CodableSynthesis.Proofs.Grammar.Failures
import CodableSynthesis.Proofs.Layout.Locations
import CodableSynthesis.Proofs.Layout.Order
import CodableSynthesis.Proofs.Lexing.Faults

/-!
Where the error points for which a source is rejected. An error about a token stands at the token,
one about a literal, a comment or a name that does not end at its first character, and one about the
end of the source behind all tokens: the end is that of the last line, without what ends the line.

* `Text.InLine`: a place on a line of a source, or just behind the line.
* `Text.Shows.standsOn`: the line on which a character stands.
* `Text.Shows.lt_endOfText`: it stands in front of the end of the source.
* `SourceError.PointsAt`: what stands at the place that an error names.
* `SourceError.PointsInto`: what an error says of the place that it names.
* `readSource_pointsInto`: so it is for every source that is rejected.

A line feed ends a line, and a carriage return directly in front of it belongs to the end. Positions
count line feeds only. The two agree at every place where a token begins, because no token begins
with either of these characters; the place of an error at the end of the input is computed from the
lines.

There are two stages at which a source may be rejected, and each reports in its own terms: the lexer
by a rest of the text that it could not cut, the parser by a token or by the lack of one.
`LexicalFault.FoundIn.pointsInto` and `ReadFault.pointsInto` are the two halves.
-/

namespace CodableSynthesis

/-! ### Lines

How the place of a character is found among the lines of a source. -/

namespace Text

/-- On the line of the source there is a character in the column, or the line ends in front of it.
Lines and columns are counted from one. -/
structure InLine (source : List Char) (line column : Nat) : Prop where
  /-- Both numbers begin with one. -/
  positive : 1 ≤ line ∧ 1 ≤ column
  /-- There is such a line, and it reaches to the column. -/
  within : ∃ l, (lines source)[line - 1]? = some l ∧ column ≤ l.length + 1

/-- The text `cs` stands in the source at a line and a column: in front of it are all lines before,
and on its line as many characters as the column tells. -/
def Shows (source cs : List Char) (line column : Nat) : Prop :=
  ∃ front back, source = front ++ cs ++ back ∧ line = 1 + front.count '\n' ∧
    column = 1 + (lastLine front).length

variable {source cs front back acc : List Char} {c : Char} {line column : Nat}

/-- The lines of a text are the whole lines in front of a place, as many as there are line feeds,
and those from the one on that the place is on. The induction is on what is in front. -/
theorem lines_split (front back : List Char) :
    ∃ whole, whole.length = front.count '\n' ∧
      lines (front ++ back) = whole ++ linesFrom (lastLine front).reverse back := by
  induction front using List.reverseRecOn generalizing back with
  | nil => exact ⟨[], rfl, rfl⟩
  | append_singleton front c ih =>
    obtain ⟨whole, length, split⟩ := ih (c :: back)
    rw [List.append_assoc, List.singleton_append, split, lastLine_concat, List.count_append,
      List.count_singleton, linesFrom]
    by_cases feed : c = '\n'
    · -- The line is whole, and the next one begins.
      exact ⟨whole ++ [closedLine (lastLine front).reverse], by simp [length, feed], by simp [feed]⟩
    · exact ⟨whole, by simp [length, feed], by simp [feed]⟩

/-- Only one carriage return is taken from a line that ends. -/
theorem length_closedLine (noReturn : c ≠ '\r') (later : List Char) :
    acc.length < (closedLine (later ++ c :: acc)).length := by
  unfold closedLine
  split
  · next read line =>
    cases later with
    | nil => exact absurd (List.cons.inj line).1 noReturn
    | cons d later =>
      obtain ⟨-, rfl⟩ := List.cons.inj line
      simp only [List.append_eq, List.length_reverse, List.length_append, List.length_cons]
      omega
  · simp only [List.length_reverse, List.length_append, List.length_cons]
    omega

/-- The line that goes on behind a character is longer than what is in front of the character. -/
theorem linesFrom_longer (noReturn : c ≠ '\r') (later acc back : List Char) :
    ∃ l more, linesFrom (later ++ c :: acc) back = l :: more ∧ acc.length < l.length := by
  induction back generalizing later with
  | nil =>
    refine ⟨(later ++ c :: acc).reverse, [], by simp [linesFrom], ?_⟩
    simp only [List.length_reverse, List.length_append, List.length_cons]
    omega
  | cons d back ih =>
    rw [linesFrom]
    by_cases feed : d = '\n'
    · rw [if_pos feed]
      exact ⟨_, _, rfl, length_closedLine noReturn later⟩
    · rw [if_neg feed]
      exact ih (d :: later)

namespace Shows

variable (stands : Shows source (c :: cs) line column) (noFeed : c ≠ '\n') (noReturn : c ≠ '\r')

include stands noFeed noReturn

/-- A character that ends no line stands on one of the lines. -/
theorem standsOn : ∃ whole l more, lines source = whole ++ l :: more ∧
    line = whole.length + 1 ∧ 1 ≤ column ∧ column ≤ l.length := by
  obtain ⟨front, back, rfl, rfl, rfl⟩ := stands
  obtain ⟨whole, length, split⟩ := lines_split front (c :: cs ++ back)
  obtain ⟨l, more, first, longer⟩ :=
    linesFrom_longer noReturn [] (lastLine front).reverse (cs ++ back)
  rw [List.length_reverse] at longer
  refine ⟨whole, l, more, ?_, by omega, by omega, by omega⟩
  rw [List.append_assoc, split, List.cons_append, linesFrom, if_neg noFeed]
  exact congrArg _ first

theorem inLine : InLine source line column := by
  obtain ⟨whole, l, more, split, rfl, first, last⟩ := stands.standsOn noFeed noReturn
  refine ⟨⟨by omega, first⟩, l, ?_, by omega⟩
  rw [split, Nat.add_sub_cancel, List.getElem?_append_right (Nat.le_refl _), Nat.sub_self]
  rfl

/-- The end of a source is behind each of its characters that ends no line. -/
theorem lt_endOfText : toLex (line, column) < toLex (endOfText source) := by
  obtain ⟨whole, l, more, split, rfl, -, last⟩ := stands.standsOn noFeed noReturn
  rw [Prod.Lex.toLex_lt_toLex, endOfText, split]
  cases more with
  | nil =>
    rw [List.getLast?_concat]
    refine .inr ⟨by simp, ?_⟩
    exact Nat.lt_succ_of_le last
  | cons m more =>
    obtain ⟨final, found⟩ : ∃ final, (whole ++ l :: m :: more).getLast? = some final := by
      rw [← Option.isSome_iff_exists, List.getLast?_isSome]
      simp
    rw [found]
    refine .inl ?_
    simp only [List.length_append, List.length_cons]
    omega

end Shows

/-- The end of a source with lines is just behind the last of them. -/
theorem endOfText_inLine (some_ : lines source ≠ []) :
    InLine source (endOfText source).1 (endOfText source).2 := by
  have last := List.getLast?_eq_some_getLast some_
  have length := List.length_pos_iff.mpr some_
  rw [endOfText, last]
  refine ⟨⟨length, Nat.le_add_left _ _⟩, _, ?_, Nat.le_refl _⟩
  rw [← List.getLast?_eq_getElem?, last]

end Text

/-! ### Errors -/

open Text (Shows InLine)

/-- A token stands where its span tells, and begins with a character that ends no line. -/
theorem Token.shows {source : String} {ts : List Token} (cut : tokenize source = .ok ts) {t : Token}
    (mem : t ∈ ts) :
    Shows source.toList t.chars t.span.line t.span.column ∧
      ∃ c cs, t.chars = c :: cs ∧ c ≠ '\n' ∧ c ≠ '\r' := by
  obtain ⟨c, cs, chars, noSpace, -⟩ := ((placed_of_tokenize cut).spelled t mem).head
  obtain ⟨earlier, later, rfl⟩ := List.append_of_mem mem
  obtain ⟨seen, gap, back, made, -, located⟩ := (placed_of_tokenize cut).located .start
  refine ⟨⟨seen ++ gap, back, made, located.line, located.column⟩, c, cs, chars, ?_, ?_⟩
  · rintro rfl
    exact Bool.false_ne_true (noSpace.symm.trans Trivia.isWhiteSpace_lineFeed)
  · rintro rfl
    exact absurd noSpace (by decide)

namespace SourceError

/-- What an error says of the place that it names: where what was not expected stands, or what is
never matched, or that all of the source is in front of it. The cases are those of the faults, and
each is tied to the tokens or to the characters of the source. -/
inductive PointsAt (source : String) (e : SourceError) : Prop
  /-- A token was not expected: the message ends with its text. -/
  | token {ts : List Token} {t : Token} {expected : Expectation} :
      tokenize source = .ok ts → t ∈ ts → (e.line, e.column) = (t.span.line, t.span.column) →
      Shows source.toList t.chars e.line e.column →
      e.fault = .unexpected expected (.token t.text) →
      (∃ front, e.message = front ++ Text.ticked t.text) → PointsAt source e
  /-- The tokens ended too early. -/
  | endOfInput {ts : List Token} {expected : Expectation} :
      tokenize source = .ok ts → e.fault = .endOfInput expected →
      (∀ t ∈ ts, t.span.place < toLex (e.line, e.column)) → PointsAt source e
  /-- A literal does not end. -/
  | string :
      e.fault = .unterminatedString → Shows source.toList ['"'] e.line e.column → PointsAt source e
  /-- A comment does not end. -/
  | comment :
      e.fault = .unterminatedComment → Shows source.toList ['/', '*'] e.line e.column →
      PointsAt source e
  /-- A name in backticks does not end on its line. -/
  | name :
      e.fault = .unexpected .closingBacktick .endOfLine →
      Shows source.toList ['`'] e.line e.column → PointsAt source e

/-- The error names a place of the source, and stands there for what it says. -/
structure PointsInto (source : String) (e : SourceError) : Prop where
  /-- The place is one of the source. -/
  inLine : InLine source.toList e.line e.column
  /-- There stands what the error is about. -/
  pointsAt : e.PointsAt source

end SourceError

/-- A fault in cutting a text is reported where what is never matched stands. -/
theorem LexicalFault.FoundIn.shows {cs : List Char} {f : LexicalFault} (h : f.FoundIn cs) :
    Shows cs f.cause.mark (f.toSourceError cs).line (f.toSourceError cs).column := by
  obtain ⟨front, made⟩ := h.remains
  obtain ⟨back, marked⟩ := h.marked
  refine ⟨front, back, ?_, ?_, ?_⟩
  · rw [List.append_assoc, marked, made]
  · rw [toSourceError, ← made, consumed_append]
    exact Text.Position.line_advance _ _
  · rw [toSourceError, ← made, consumed_append]
    exact Text.Position.column_advance_start _

/-- Such a fault points into the source. -/
theorem LexicalFault.FoundIn.pointsInto {source : String} {f : LexicalFault}
    (h : f.FoundIn source.toList) : (f.toSourceError source.toList).PointsInto source := by
  have stands := h.shows
  obtain ⟨cause, remaining⟩ := f
  cases cause with
  | unterminatedString =>
    exact ⟨Shows.inLine stands (by decide) (by decide), .string rfl stands⟩
  | unterminatedComment =>
    exact ⟨Shows.inLine stands (by decide) (by decide), .comment rfl stands⟩
  | unterminatedName =>
    exact ⟨Shows.inLine stands (by decide) (by decide), .name rfl stands⟩

/-- A fault in reading the tokens of a source is reported at one of them, or behind them all. That
it is one of them is what every reader was shown to do. -/
theorem ReadFault.pointsInto {source : String} {ts : List Token} {fault : ReadFault}
    (cut : tokenize source = .ok ts) (read : Declaration.readFile ts = .error fault) :
    (fault.toSourceError source.toList).PointsInto source := by
  cases fault with
  | unexpected expected t =>
    have mem := Declaration.readFile_found read
    obtain ⟨stands, c, cs, chars, noFeed, noReturn⟩ := t.shows cut mem
    refine ⟨?_, .token cut mem rfl stands rfl ⟨_, String.append_assoc.symm⟩⟩
    rw [chars] at stands
    exact stands.inLine noFeed noReturn
  | endOfInput expected =>
    have before : ∀ t ∈ ts, t.span.place < toLex (Text.endOfText source.toList) := by
      intro t mem
      obtain ⟨stands, c, cs, chars, noFeed, noReturn⟩ := t.shows cut mem
      rw [chars] at stands
      exact stands.lt_endOfText noFeed noReturn
    refine ⟨Text.endOfText_inLine ?_, .endOfInput cut rfl before⟩
    -- No tokens can be read as a file, so there is one, and with it a line.
    cases ts with
    | nil =>
      rw [Declaration.readFile] at read
      cases read
    | cons t ts =>
      obtain ⟨stands, c, cs, chars, noFeed, noReturn⟩ := t.shows cut (.head _)
      rw [chars] at stands
      obtain ⟨whole, l, more, split, -⟩ := stands.standsOn noFeed noReturn
      simp [split]

/-- Whatever source is rejected, the error points into it. -/
theorem readSource_pointsInto {source : String} {e : SourceError}
    (rejected : readSource source = .error e) : e.PointsInto source := by
  rw [readSource] at rejected
  cases cut : tokenize source with
  | error fault =>
    rw [cut] at rejected
    cases rejected
    rw [tokenize] at cut
    split at cut
    · cases cut
    · next f faulty =>
      cases cut
      exact (lexemes_fault faulty).pointsInto
  | ok ts =>
    rw [cut] at rejected
    cases read : Declaration.readFile ts with
    | ok declarations =>
      simp only [bind, Except.bind, read] at rejected
      cases rejected
    | error fault =>
      simp only [bind, Except.bind, read] at rejected
      cases rejected
      exact fault.pointsInto cut read

/-- A class that does not end, with a comment behind its brace and a carriage return before the line
feed. -/
def openClass : String :=
  "class A \x7b // é\r\n"

/-- The end of a source is not the end of its last token: the comment behind that is on the line,
and the carriage return is not. -/
theorem readSource_pointsInto_comment :
    ∃ e, readSource openClass = .error e ∧ e = ⟨1, 15, .endOfInput (.closing .brace)⟩ ∧
      e.PointsInto openClass := by
  have computed : (readSource openClass).map (fun _ => ()) =
      .error ⟨1, 15, .endOfInput (.closing .brace)⟩ := by
    decide +kernel
  have rejected := error_of_map computed
  exact ⟨_, rejected, rfl, readSource_pointsInto rejected⟩

end CodableSynthesis
