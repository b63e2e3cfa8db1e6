import CodableSynthesis.Proofs.Reads
import CodableSynthesis.Token.Trivia
import Mathlib.Data.List.TakeWhile

/-!
What may lie between two tokens: white space, line comments and block comments, in any order.

A gap is *whole* if it ends by itself, so that whatever follows is read as it would be without the
gap. Every gap in front of a token is whole; only at the end of a text may a line comment be left
open, because nothing ends it there. That is the whole difference between the text behind the last
token and the others, and it is why joining two texts takes a line feed.

* `Trivia.reads_skip_iff`: in front of a token, exactly a whole gap is skipped; at a text's end, a
  line comment may be left open.
* `Trivia.Whole.reads_skip`: a whole gap is skipped in front of any text, and skipping goes on
  behind it.
* `Trivia.closeComment_append`, `Trivia.closeComment_body`: where a block comment ends depends on
  the comment alone, however deep the comments in it go.

Gaps are followed from their beginning to their end. That two gaps in a row are one (`Whole.append`)
is what lets texts be put together piece by piece.
-/

namespace CodableSynthesis.Trivia

/-- `Whole gap crossed`: the gap is white space and comments, the last of them ended, and `crossed`
tells whether a line break is crossed. A line comment leaves its line feed to the gap behind it,
which crosses it. -/
inductive Whole : List Char → Bool → Prop
  | nil : Whole [] false
  /-- A white-space character. The line and the paragraph separator count as line breaks, too. -/
  | space {c : Char} {gap : List Char} {crossed : Bool} :
      Text.isWhiteSpace c = true → Whole gap crossed →
      Whole (c :: gap) ((c == '\n' || Text.isLineSeparator c) || crossed)
  /-- A line comment, up to its line feed. -/
  | line {comment gap : List Char} {crossed : Bool} :
      (∀ c ∈ comment, withinLine c = true) → Whole ('\n' :: gap) crossed →
      Whole ('/' :: '/' :: (comment ++ '\n' :: gap)) crossed
  /-- A block comment with those in it, which crosses a line break if it contains a line feed. -/
  | block {comment gap : List Char} {crossed : Bool} :
      closeComment 0 comment = some (comment, []) → Whole gap crossed →
      Whole ('/' :: '*' :: (comment ++ gap)) (comment.contains '\n' || crossed)

/-- The text begins with white space or a comment. -/
def StartsGap : List Char → Prop
  | [] => False
  | c :: rest =>
    Text.isWhiteSpace c = true ∨ c = '/' ∧ (rest.head? = some '/' ∨ rest.head? = some '*')

/-- A line comment that the text ends in, if there is one. -/
inductive OpenComment : List Char → Prop
  | none : OpenComment []
  | line {comment : List Char} :
      (∀ c ∈ comment, withinLine c = true) → OpenComment ('/' :: '/' :: comment)

/-- What is skipped in front of `rest`: a whole gap, and at the end of the text perhaps an open
comment. -/
def Skipped (gap : Gap) (rest : List Char) : Prop :=
  ∃ front tail, gap.text = front ++ tail ∧ Whole front gap.crossed ∧ OpenComment tail ∧
    (tail = [] ∨ rest = [])

theorem isWhiteSpace_slash : Text.isWhiteSpace '/' = false := by decide

theorem isWhiteSpace_lineFeed : Text.isWhiteSpace '\n' = true := by decide

theorem withinLine_lineFeed : withinLine '\n' = false := rfl

/-! ### Block comments -/

/-- What a block comment is does not depend on what follows it. -/
theorem closeComment_append {depth : Nat} {cs body rest : List Char} (more : List Char)
    (h : closeComment depth cs = some (body, rest)) :
    closeComment depth (cs ++ more) = some (body, rest ++ more) := by
  fun_induction closeComment depth cs generalizing body with
  | case1 depth cs ih =>
    obtain ⟨⟨inner, after⟩, hi, he⟩ := Option.map_eq_some_iff.mp h
    cases he
    simp [closeComment, ih hi]
  | case2 cs =>
    cases h
    simp [closeComment]
  | case3 cs outer ih =>
    obtain ⟨⟨inner, after⟩, hi, he⟩ := Option.map_eq_some_iff.mp h
    cases he
    simp [closeComment, ih hi]
  | case4 depth c cs noOpening noClosing ih =>
    obtain ⟨⟨inner, after⟩, hi, he⟩ := Option.map_eq_some_iff.mp h
    cases he
    cases cs with
    | nil => simp [closeComment] at hi
    | cons d cs =>
      change closeComment depth (c :: (d :: cs ++ more)) = _
      rw [closeComment.eq_4, ih hi]
      · rfl
      · rintro rest rfl same
        cases same
        exact noOpening cs rfl rfl
      · rintro rest rfl same
        cases same
        exact noClosing cs rfl rfl
  | case5 => cases h

/-- What was read of a text is a block comment on its own. -/
theorem closeComment_body {depth : Nat} {cs body rest : List Char}
    (h : closeComment depth cs = some (body, rest)) :
    closeComment depth body = some (body, []) := by
  fun_induction closeComment depth cs generalizing body with
  | case1 depth cs ih | case3 cs outer ih =>
    obtain ⟨⟨inner, after⟩, hi, he⟩ := Option.map_eq_some_iff.mp h
    cases he
    simp [closeComment, ih hi]
  | case2 cs =>
    cases h
    simp [closeComment]
  | case4 depth c cs noOpening noClosing ih =>
    obtain ⟨⟨inner, after⟩, hi, he⟩ := Option.map_eq_some_iff.mp h
    cases he
    have made := append_of_closeComment hi
    rw [closeComment.eq_4, ih hi]
    · rfl
    · rintro more rfl rfl
      exact noOpening _ rfl made.symm
    · rintro more rfl rfl
      exact noClosing _ rfl made.symm
  | case5 => cases h

/-! ### Skipping -/

/-- A line comment is skipped together with what is skipped from its line feed on. -/
theorem reads_skip_line {comment rest : List Char} (within : ∀ c ∈ comment, withinLine c = true)
    {g : Gap} {left : List Char} (h : Reads (skip ('\n' :: rest)) g left) :
    Reads (skip ('/' :: '/' :: (comment ++ '\n' :: rest)))
      (.behind ('/' :: '/' :: comment) false g) left := by
  have behind : (comment ++ '\n' :: rest).dropWhile withinLine = '\n' :: rest := by
    rw [List.dropWhile_append_of_pos within, List.dropWhile_cons_of_neg (by decide)]
  have front : (comment ++ '\n' :: rest).takeWhile withinLine = comment := by
    rw [List.takeWhile_append_of_pos within, List.takeWhile_cons_of_neg (by decide),
      List.append_nil]
  rw [skip]
  have later : Reads (skip ((comment ++ '\n' :: rest).dropWhile withinLine)) g left := by
    rw [behind]
    exact h
  refine later.bind fun _ => ?_
  exact Reads.ok_iff.mpr ⟨by simp [front], rfl⟩

/-- A block comment is skipped together with what is skipped behind it. -/
theorem reads_skip_block {comment rest : List Char}
    (ends : closeComment 0 comment = some (comment, [])) {g : Gap} {left : List Char}
    (h : Reads (skip rest) g left) :
    Reads (skip ('/' :: '*' :: (comment ++ rest)))
      (.behind ('/' :: '*' :: comment) (comment.contains '\n') g) left := by
  have closes := closeComment_append rest ends
  rw [List.nil_append] at closes
  rw [skip.eq_3]
  split
  · next fails => rw [closes] at fails; cases fails
  · next body after closed =>
    rw [closes] at closed
    cases closed
    exact h.bind fun _ => Reads.ok

/-- A white-space character is skipped together with what is skipped behind it. -/
theorem reads_skip_space {c : Char} {rest : List Char} (space : Text.isWhiteSpace c = true)
    {g : Gap}
    {left : List Char} (h : Reads (skip rest) g left) :
    Reads (skip (c :: rest)) (.behind [c] (c == '\n' || Text.isLineSeparator c) g) left := by
  have noSlash : c ≠ '/' := by
    rintro rfl
    rw [isWhiteSpace_slash] at space
    cases space
  rw [skip.eq_4 _ _ (fun _ same _ => noSlash same) (fun _ same _ => noSlash same), if_pos space]
  exact h.bind fun _ => Reads.ok

/-- Skipping stops where no gap begins. -/
theorem reads_skip_stop {rest : List Char} (ends : ¬ StartsGap rest) :
    Reads (skip rest) .none rest := by
  cases rest with
  | nil => rw [skip]; exact Reads.ok
  | cons c cs =>
    simp only [StartsGap, not_or, not_and] at ends
    rw [skip.eq_4 _ _ (by rintro _ rfl rfl; exact (ends.2 rfl).1 rfl)
      (by rintro _ rfl rfl; exact (ends.2 rfl).2 rfl), if_neg ends.1]
    exact Reads.ok

/-- A gap that is whole is skipped, and skipping goes on behind it. -/
theorem Whole.reads_skip {gap : List Char} {crossed : Bool} (h : Whole gap crossed)
    {rest left : List Char} {g : Gap} (more : Reads (skip rest) g left) :
    Reads (skip (gap ++ rest)) (.behind gap crossed g) left := by
  induction h with
  | nil => simpa [Gap.behind] using more
  | space isSpace _ ih => simpa [Gap.behind, Bool.or_assoc] using reads_skip_space isSpace ih
  | line within _ ih =>
    rw [List.cons_append, List.cons_append, List.append_assoc]
    simpa [Gap.behind] using reads_skip_line within ih
  | block closes _ ih =>
    rw [List.cons_append, List.cons_append, List.append_assoc]
    simpa [Gap.behind, Bool.or_assoc] using reads_skip_block closes ih

/-- A line comment may reach to the end of the text. -/
theorem reads_skip_open {tail : List Char} (h : OpenComment tail) :
    Reads (skip tail) ⟨tail, false⟩ [] := by
  cases h with
  | none => rw [skip]; exact Reads.ok
  | @line comment within =>
    have behind : comment.dropWhile withinLine = [] := List.dropWhile_eq_nil_iff.mpr within
    have front : comment.takeWhile withinLine = comment := List.takeWhile_eq_self_iff.mpr within
    rw [skip]
    have later : Reads (skip (comment.dropWhile withinLine)) .none [] := by
      rw [behind, skip]
      exact Reads.ok
    refine later.bind fun _ => ?_
    exact Reads.ok_iff.mpr ⟨by simp [front, Gap.behind, Gap.none], rfl⟩

/-! ### What is skipped -/

/-- Two gaps in a row are one, and a line break in either is crossed. -/
theorem Whole.append {g g' : List Char} {crossed crossed' : Bool} (h : Whole g crossed)
    (h' : Whole g' crossed') : Whole (g ++ g') (crossed || crossed') := by
  induction h with
  | nil => exact h'
  | space isSpace _ ih =>
    rw [Bool.or_assoc]
    exact .space isSpace ih
  | line within _ ih =>
    rw [List.cons_append, List.cons_append, List.append_assoc]
    exact .line within ih
  | block closes _ ih =>
    rw [List.cons_append, List.cons_append, List.append_assoc, Bool.or_assoc]
    exact .block closes ih

/-- A line ends with the text or before a line feed. -/
theorem lineEnd (cs : List Char) :
    cs.dropWhile withinLine = [] ∨ ∃ rest, cs.dropWhile withinLine = '\n' :: rest := by
  induction cs with
  | nil => exact .inl rfl
  | cons c cs ih =>
    by_cases within : withinLine c = true
    · rwa [List.dropWhile_cons_of_pos within]
    · obtain rfl : c = '\n' := by simpa [withinLine] using within
      exact .inr ⟨cs, List.dropWhile_cons_of_neg within⟩

/-- What is skipped is a gap, and no gap begins where skipping stops. -/
theorem skipped_of_reads {cs rest : List Char} {gap : Gap} (h : Reads (skip cs) gap rest) :
    cs = gap.text ++ rest ∧ ¬ StartsGap rest ∧ Skipped gap rest := by
  induction cs using skip.induct generalizing gap rest with
  | case1 =>
    rw [skip] at h
    obtain ⟨rfl, rfl⟩ := Reads.ok_iff.mp h
    exact ⟨rfl, id, [], [], rfl, .nil, .none, .inl rfl⟩
  | case2 after _ ih =>
    rw [skip] at h
    obtain ⟨g, mid, shorter, more, h⟩ := h.of_bind
    obtain ⟨rfl, rfl⟩ := Reads.ok_iff.mp h
    obtain ⟨made, ends, front, tail, text, whole, openTail, last⟩ := ih ⟨shorter, more⟩
    have within : ∀ c ∈ after.takeWhile withinLine, withinLine c = true :=
      fun _ mem => List.mem_takeWhile_imp mem
    have split : after.takeWhile withinLine ++ (g.text ++ mid) = after := by
      rw [← made, List.takeWhile_append_dropWhile]
    refine ⟨by simpa [Gap.behind] using split.symm, ends, ?_⟩
    -- A line comment goes up to the end of the text, or up to a line feed, which the gap behind it
    -- begins with.
    rcases lineEnd after with none | ⟨more, behind⟩
    · rw [none] at made
      obtain ⟨text', rfl⟩ := List.append_eq_nil_iff.mp made.symm
      rw [text'] at text
      obtain ⟨rfl, rfl⟩ := List.append_eq_nil_iff.mp text.symm
      refine ⟨[], '/' :: '/' :: after.takeWhile withinLine, by simp [Gap.behind, text'], whole,
        .line within, .inr rfl⟩
    · rw [behind, text] at made
      cases front with
      | nil =>
        cases openTail with
        | none =>
          obtain rfl : '\n' :: more = mid := made
          exact absurd (.inl isWhiteSpace_lineFeed) ends
        | line => cases made
      | cons c front =>
        cases made
        exact ⟨'/' :: '/' :: (after.takeWhile withinLine ++ '\n' :: front), tail,
          by simp [Gap.behind, text], .line within whole, openTail, last⟩
  | case3 after unclosed =>
    rw [skip.eq_3] at h
    split at h
    · exact absurd h Reads.not_error
    · next closes => rw [unclosed] at closes; cases closes
  | case4 after body behind closes _ ih =>
    rw [skip.eq_3] at h
    split at h
    · next unclosed => rw [closes] at unclosed; cases unclosed
    · next body' behind' closes' =>
      rw [closes] at closes'
      cases closes'
      obtain ⟨g, mid, shorter, more, h⟩ := h.of_bind
      obtain ⟨rfl, rfl⟩ := Reads.ok_iff.mp h
      obtain ⟨made, ends, front, tail, text, whole, openTail, last⟩ := ih ⟨shorter, more⟩
      refine ⟨?_, ends, '/' :: '*' :: (body ++ front), tail, ?_, ?_, openTail, last⟩
      · simp [Gap.behind, ← append_of_closeComment closes, made]
      · simp [Gap.behind, text]
      · exact .block (closeComment_body closes) whole
  | case5 c after noLine noBlock isSpace ih =>
    rw [skip.eq_4 _ _ noLine noBlock, if_pos isSpace] at h
    obtain ⟨g, mid, shorter, more, h⟩ := h.of_bind
    obtain ⟨rfl, rfl⟩ := Reads.ok_iff.mp h
    obtain ⟨made, ends, front, tail, text, whole, openTail, last⟩ := ih ⟨shorter, more⟩
    refine ⟨?_, ends, c :: front, tail, ?_, .space isSpace whole, openTail, last⟩
    · simp [Gap.behind, made]
    · simp [Gap.behind, text]
  | case6 c after noLine noBlock noSpace =>
    rw [skip.eq_4 _ _ noLine noBlock, if_neg noSpace] at h
    obtain ⟨rfl, rfl⟩ := Reads.ok_iff.mp h
    refine ⟨rfl, ?_, [], [], rfl, .nil, .none, .inl rfl⟩
    rintro (isSpace | ⟨rfl, second | second⟩)
    · exact noSpace isSpace
    · cases after with
      | nil => cases second
      | cons d after => cases second; exact noLine after rfl rfl
    · cases after with
      | nil => cases second
      | cons d after => cases second; exact noBlock after rfl rfl

/-- Exactly what may be skipped is skipped. -/
theorem reads_skip_iff {cs rest : List Char} {gap : Gap} :
    Reads (skip cs) gap rest ↔ cs = gap.text ++ rest ∧ ¬ StartsGap rest ∧ Skipped gap rest := by
  refine ⟨skipped_of_reads, ?_⟩
  rintro ⟨rfl, ends, front, tail, text, whole, openTail, last⟩
  obtain ⟨gapText, crossed⟩ := gap
  dsimp only at text whole ⊢
  subst text
  rw [List.append_assoc]
  have behind : Reads (skip (tail ++ rest)) ⟨tail, false⟩ rest := by
    rcases last with rfl | rfl
    · exact reads_skip_stop ends
    · rw [List.append_nil]
      exact reads_skip_open openTail
  simpa [Gap.behind] using whole.reads_skip behind

end CodableSynthesis.Trivia
