import CodableSynthesis.Proofs.Lexing.Pieces

/-!
Cutting a text into lexemes, as a relation: a gap that is whole, a token, and so on to the end.

* `Cut.lexemes_iff`: the lexer gives exactly the lexemes of the relation.
* `lexemes_of_skip`, `lexemes_of_scan`: one round of the lexer's loop.

With this the lexer is described without recursion on what is left: a text is cut if it can be
written as gaps and spellings such that nothing goes on with what is before it. Statements about the
tokens of a text are inductions on `Cut`.
-/

namespace CodableSynthesis

open Trivia (Whole Skipped StartsGap)
open Lexeme (Spelling Stops)

/-- What may stand behind the last token of a text: a gap, the last comment of which may be left
open. -/
def Trailing (tail : List Char) : Prop :=
  ∃ crossed, Skipped ⟨tail, crossed⟩ []

theorem trailing_nil : Trailing [] :=
  ⟨false, [], [], rfl, .nil, .none, .inl rfl⟩

/-- `Cut ls cs`: the text `cs` is made of the lexemes `ls` and what stands behind them. -/
inductive Cut : List Lexeme → List Char → Prop
  /-- No more tokens. -/
  | done {tail : List Char} : Trailing tail → Cut [] tail
  /-- A gap, and a token that what is left does not go on with. -/
  | lexeme {gap : Gap} {kind : TokenKind} {text rest : List Char} {ls : List Lexeme} :
      Whole gap.text gap.crossed → Spelling kind text → Stops text rest kind → Cut ls rest →
      Cut (⟨gap, kind, text⟩ :: ls) (gap.text ++ (text ++ rest))

/-- Where skipping reaches the end, there are no more lexemes. -/
theorem lexemes_of_skip {cs : List Char} {gap : Gap} (h : Reads (Trivia.skip cs) gap []) :
    lexemes cs = .ok [] := by
  obtain ⟨shorter, skipped⟩ := h
  rw [lexemes, skipped]
  rfl

/-- Where a token is scanned behind a gap, the two are the next lexeme. -/
theorem lexemes_of_scan {cs tail text after : List Char} {gap : Gap} {c : Char} {kind : TokenKind}
    (skipped : Reads (Trivia.skip cs) gap (c :: tail))
    (scanned : Reads (Lexeme.scan c tail) (kind, text) after) :
    lexemes cs = (lexemes after).map (⟨gap, kind, text⟩ :: ·) := by
  obtain ⟨shorter, skipped⟩ := skipped
  obtain ⟨shorter', scanned⟩ := scanned
  rw [lexemes, skipped]
  simp only [bind, Except.bind, scanned]
  cases lexemes after <;> rfl

namespace Cut

/-- What the lexer gives is a cut of the text. -/
theorem of_lexemes {cs : List Char} {ls : List Lexeme} (h : lexemes cs = .ok ls) : Cut ls cs := by
  induction hn : cs.length using Nat.strongRecOn generalizing cs ls with
  | ind n ih =>
    subst hn
    cases skipped : Trivia.skip cs with
    | error fault =>
      rw [lexemes, skipped] at h
      cases h
    | ok s =>
      obtain ⟨gap, rest, shorter⟩ := s
      have skipped : Reads (Trivia.skip cs) gap rest := ⟨shorter, skipped⟩
      obtain ⟨rfl, noGap, split⟩ := Trivia.skipped_of_reads skipped
      cases rest with
      | nil =>
        rw [lexemes_of_skip skipped] at h
        cases h
        rw [List.append_nil]
        exact .done ⟨gap.crossed, split⟩
      | cons c tail =>
        obtain ⟨front, open_, text, whole, -, ends⟩ := split
        obtain rfl : open_ = [] := ends.resolve_right (by simp)
        rw [List.append_nil] at text
        cases scanned : Lexeme.scan c tail with
        | error fault =>
          obtain ⟨shorter, skipped⟩ := skipped
          rw [lexemes, skipped] at h
          simp only [bind, Except.bind, scanned] at h
          cases h
        | ok s =>
          obtain ⟨⟨kind, word⟩, after, shorter'⟩ := s
          have scanned : Reads (Lexeme.scan c tail) (kind, word) after := ⟨shorter', scanned⟩
          obtain ⟨made, spelled, stops⟩ := Lexeme.splits_of_scan noGap scanned
          rw [lexemes_of_scan skipped scanned] at h
          cases later : lexemes after with
          | error fault => rw [later] at h; cases h
          | ok more =>
            rw [later] at h
            cases h
            rw [made]
            refine .lexeme (by rwa [text]) spelled stops (ih _ ?_ later rfl)
            simp only [List.length_append, List.length_cons]
            omega

/-- Every cut of a text is what the lexer gives, so there is only one. -/
theorem lexemes_eq {cs : List Char} {ls : List Lexeme} (h : Cut ls cs) : lexemes cs = .ok ls := by
  induction h with
  | @done tail trailing =>
    obtain ⟨crossed, split⟩ := trailing
    exact lexemes_of_skip (Trivia.reads_skip_iff.mpr ⟨by simp, id, split⟩)
  | @lexeme gap kind text rest ls whole spelled stops _ ih =>
    have noGap := spelled.not_startsGap stops
    obtain ⟨c, more, rfl, -⟩ := spelled.head
    have skipped :
        Reads (Trivia.skip (gap.text ++ (c :: more ++ rest))) gap (c :: (more ++ rest)) :=
      Trivia.reads_skip_iff.mpr
        ⟨rfl, noGap, gap.text, [], (List.append_nil _).symm, whole, .none, .inl rfl⟩
    rw [lexemes_of_scan skipped (Lexeme.reads_scan spelled stops), ih]
    rfl

/-- The lexer gives exactly the lexemes of the relation. -/
theorem lexemes_iff {cs : List Char} {ls : List Lexeme} : lexemes cs = .ok ls ↔ Cut ls cs :=
  ⟨of_lexemes, lexemes_eq⟩

end Cut

end CodableSynthesis
