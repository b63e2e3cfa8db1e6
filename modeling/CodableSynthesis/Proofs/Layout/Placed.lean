import CodableSynthesis.Proofs.Lexing.Cut

/-!
Where tokens stand. `Placed p ts cs` says that the text `cs`, which begins at the position `p`, is
made of the tokens `ts`, with a gap in front of each and what is left behind the last.

* `placed_of_tokenize`: the tokens of a source text are placed in it.
* `Placed.split`: the tokens left are placed in the text left.
* `Rest`: a text is what a source has from a position on.

A reader goes from a list of tokens to an end of that list. `Placed.split` makes the text follow: to
every such step belongs a step from a text to an end of that text, with the position advanced over
what was passed. So the grammars, which know nothing of places, can be walked through with places in
hand, and what a tree records as spans becomes statements about stretches of the source.

Positions are never computed twice. The marks of a token, that a line begins in front of it and that
it touches the token before, are read off the gap, and its span is from the position behind the gap
to the one behind its text.
-/

namespace CodableSynthesis

open Text (Position Span byteLength)
open Trivia (Whole)
open Lexeme (Spelling Stops)

/-- The characters of a token. -/
def Token.chars (t : Token) : List Char :=
  t.text.toList

/-- The text of a token is one that its kind may have, and `rest` does not go on with it. -/
structure Token.Sound (t : Token) (rest : List Char) : Prop where
  /-- The text is one of that kind. -/
  spelled : Spelling t.kind t.chars
  /-- What follows does not go on with it. -/
  stops : Stops t.chars rest t.kind

/-- The tokens stand in a text that begins at a position. -/
inductive Placed : Position → List Token → List Char → Prop
  /-- Behind the last token. -/
  | done {p : Position} {tail : List Char} : Trailing tail → Placed p [] tail
  /-- A gap and a token, whose marks and span are those of its place. -/
  | token {p : Position} {gap : List Char} {t : Token} {ts : List Token} {rest : List Char} :
      Whole gap t.newlineBefore → t.touches = gap.isEmpty → t.Sound rest →
      t.span = .between (p.advance gap) (p.advance (gap ++ t.chars)) →
      Placed (p.advance (gap ++ t.chars)) ts rest → Placed p (t :: ts) (gap ++ (t.chars ++ rest))

theorem Placed.of_lexeme {p : Position} {gap : Gap} {kind : TokenKind} {text rest : List Char}
    {ts : List Token} (whole : Whole gap.text gap.crossed) (spelled : Spelling kind text)
    (stops : Stops text rest kind) (later : Placed (p.advance (gap.text ++ text)) ts rest) :
    Placed p (⟨kind, String.ofList text, .between (p.advance gap.text)
      (p.advance (gap.text ++ text)), gap.crossed, gap.text.isEmpty⟩ :: ts)
      (gap.text ++ (text ++ rest)) := by
  obtain ⟨word, rfl⟩ : ∃ word : String, text = word.toList :=
    ⟨String.ofList text, String.toList_ofList.symm⟩
  rw [String.ofList_toList]
  exact .token whole rfl ⟨spelled, stops⟩ rfl later

theorem placed_place {ls : List Lexeme} {cs : List Char} (h : Cut ls cs) (p : Position) :
    Placed p (Token.place p ls) cs := by
  induction h generalizing p with
  | done trailing => exact .done trailing
  | lexeme whole spelled stops _ ih =>
    rw [Token.place, ← Position.advance_append]
    exact .of_lexeme whole spelled stops (ih _)

/-- The tokens of a source text stand in it. -/
theorem placed_of_tokenize {source : String} {ts : List Token} (h : tokenize source = .ok ts) :
    Placed .start ts source.toList := by
  rw [tokenize] at h
  split at h
  · next ls cut =>
    cases h
    exact placed_place (Cut.lexemes_iff.mp cut) _
  · cases h

theorem Placed.spelled {p : Position} {ts : List Token} {cs : List Char} (h : Placed p ts cs) :
    ∀ t ∈ ts, Spelling t.kind t.chars := by
  induction h with
  | done => nofun
  | token _ _ sound _ _ ih => exact List.forall_mem_cons.mpr ⟨sound.spelled, ih⟩

/-- What is left of the tokens stands in what is left of the text. -/
theorem Placed.split {front rest : List Token} {p : Position} {cs : List Char}
    (h : Placed p (front ++ rest) cs) :
    ∃ seen left, cs = seen ++ left ∧ Placed (p.advance seen) rest left := by
  induction front generalizing p cs with
  | nil => exact ⟨[], cs, rfl, h⟩
  | cons t front ih =>
    cases h with
    | @token _ gap _ _ rest _ _ _ _ later =>
      obtain ⟨seen, left, rfl, placed⟩ := ih later
      exact ⟨gap ++ t.chars ++ seen, left, by simp, by simpa using placed⟩

/-- The text up to the end of a token. -/
theorem Placed.split_last {front rest : List Token} {last : Token} {p : Position} {cs : List Char}
    (h : Placed p (front ++ last :: rest) cs) :
    ∃ seen left, cs = seen ++ left ∧ Placed (p.advance seen) rest left ∧
      Lexeme.EndsPlain seen ∧ last.span.stop = (p.advance seen).offset := by
  obtain ⟨seen, left, rfl, placed⟩ := h.split
  cases placed with
  | @token _ gap _ _ left _ _ sound span later =>
    refine ⟨seen ++ (gap ++ last.chars), left, by simp, by simpa using later, ?_, ?_⟩
    · exact (sound.spelled.endsPlain.append gap).append seen
    · rw [span, Position.advance_append p seen]
      rfl

namespace Text.Position

theorem offset_advance (p : Position) (cs : List Char) :
    (p.advance cs).offset = p.offset + byteLength cs := by
  induction cs generalizing p with
  | nil => rfl
  | cons c cs ih =>
    rw [advance_cons, ih, byteLength_cons, next]
    split <;> simp [Nat.add_assoc]

/-- Lines count line feeds. -/
theorem line_advance (p : Position) (cs : List Char) :
    (p.advance cs).line = p.line + cs.count '\n' := by
  induction cs generalizing p with
  | nil => rfl
  | cons c cs ih =>
    rw [advance_cons, ih, next, List.count_cons]
    split
    · next feed =>
      rw [if_pos (beq_iff_eq.mpr feed), Nat.add_assoc, Nat.add_comm 1]
    · next other =>
      rw [if_neg (by simpa using other)]
      rfl

end Text.Position

/-- The text `cs` is what the source has from the position `p` on. -/
def Rest (source : List Char) (p : Position) (cs : List Char) : Prop :=
  ∃ before, source = before ++ cs ∧ p = Position.start.advance before

namespace Rest

variable {source cs front : List Char} {p : Position}

theorem start : Rest source .start source :=
  ⟨[], rfl, rfl⟩

theorem advance (h : Rest source p (front ++ cs)) : Rest source (p.advance front) cs := by
  obtain ⟨before, rfl, rfl⟩ := h
  exact ⟨before ++ front, by simp, by simp⟩

theorem offset_start (before : List Char) :
    (Position.start.advance before).offset = byteLength before := by
  rw [Position.offset_advance]
  exact Nat.zero_add _

theorem dropBytes (h : Rest source p cs) : Text.dropBytes p.offset source = cs := by
  obtain ⟨before, rfl, rfl⟩ := h
  rw [offset_start, Text.dropBytes_byteLength_append]

theorem offset_le (h : Rest source p cs) : p.offset ≤ byteLength source := by
  obtain ⟨before, rfl, rfl⟩ := h
  rw [offset_start, Text.byteLength_append]
  exact Nat.le_add_right _ _

end Rest

end CodableSynthesis
