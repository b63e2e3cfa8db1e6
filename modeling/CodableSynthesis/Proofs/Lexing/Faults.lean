import CodableSynthesis.Proofs.Lexing.Junctions

/-!
Where lexical faults stand. What remains of a text at a fault is an end of that text and begins with
what is never matched, so a fault is reported at a quote, a backtick or the beginning of a comment
in the text, and at the same place if more stands in front of the text.

* `LexicalFault.FoundIn`: where a fault is reported.
* `lexemes_fault`: the faults of a whole text.
* `lexemes_behind`: a text behind a whole gap is cut as by itself, faults included.
* `Cut.lexemes_joined`: a text that can be cut, and behind a line feed another text, are cut as the
  two are by themselves.

The last one is where joining two sources begins. It is stated with whatever the second text gives,
lexemes or a fault, so the joined text is known to be rejected exactly if the second one is.
-/

namespace CodableSynthesis

/-- What is never matched, by its first characters. -/
def LexicalFault.Cause.mark : Cause → List Char
  | .unterminatedString => ['"']
  | .unterminatedComment => ['/', '*']
  | .unterminatedName => ['`']

/-- The fault is reported in a text, where what is never matched stands. -/
structure LexicalFault.FoundIn (cs : List Char) (f : LexicalFault) : Prop where
  /-- What remains is an end of the text. -/
  remains : f.remaining <:+ cs
  /-- It begins with what is never matched. -/
  marked : f.cause.mark <+: f.remaining

namespace LexicalFault.FoundIn

variable {cs rest : List Char} {f : LexicalFault}

/-- A fault that is found in an end of a text is found in the text. -/
theorem behind (h : FoundIn rest f) (suffix : rest <:+ cs) : FoundIn cs f :=
  ⟨h.remains.trans suffix, h.marked⟩

/-- A fault at the beginning of a text. -/
theorem first {cause : Cause} (marked : cause.mark <+: cs) : FoundIn cs ⟨cause, cs⟩ :=
  ⟨List.suffix_refl _, marked⟩

end LexicalFault.FoundIn

/-! ### String literals -/

namespace Literal

theorem suffix_of_after? {front cs rest : List Char} (h : after? front cs = some rest) :
    rest <:+ cs :=
  ⟨front, (after?_eq_some_iff.mp h).symm⟩

/-- The reader of a phrase fails on a text at the end of `whole`: of the literal, that is, which
begins with a quote. -/
def Phrase.Fails : Phrase → List Char → List Char → LexicalFault → Prop
  | .literal pounds, whole, cs, f => '"' :: cs <:+ whole ∧ string pounds cs = .error f
  | .body d, whole, cs, f => cs <:+ whole ∧ stringBody d whole cs = .error f
  | .interpolation depth, whole, cs, f =>
    cs <:+ whole ∧ Literal.interpolation depth whole cs = .error f

/-- A fault in a literal is reported at the quote of it, or of a literal in it. An unclosed literal
is reported as a whole, from its first quote; that is why the readers of its parts carry its text
along. -/
theorem fault_of_fails {p : Phrase} {whole cs : List Char} {f : LexicalFault}
    (h : p.Fails whole cs f) (quote : ['"'] <+: whole) : f.FoundIn whole := by
  induction hn : 2 * cs.length + p.rank using Nat.strongRecOn generalizing p whole cs with
  | ind n ih =>
    subst hn
    cases p with
    | literal pounds =>
      obtain ⟨inside, h⟩ := h
      have opened : ['"'] <+: '"' :: cs := ⟨cs, rfl⟩
      rw [string.eq_1] at h
      split at h
      · next rest opens =>
        have shorter := congrArg List.length (after?_eq_some_iff.mp opens)
        rcases fails_of_bind h with h | ⟨_, -, ⟨⟩⟩
        refine (ih _ ?_ (p := .body ⟨true, pounds⟩)
          ⟨(suffix_of_after? opens).trans (List.suffix_cons _ _), h⟩ opened rfl).behind inside
        simp only [List.length_append, List.length_cons, Phrase.rank] at shorter ⊢
        omega
      · exact (ih _ (by simp [Phrase.rank]) (p := .body ⟨false, pounds⟩)
          ⟨List.suffix_cons _ _, h⟩ opened rfl).behind inside
    | body d =>
      obtain ⟨inside, h⟩ := h
      rw [stringBody.eq_def] at h
      split at h
      · cases h
      · split at h
        · cases h
          exact .first quote
        · split at h
          · next rest escaped =>
            have shorter := Delimiter.length_after_escape escaped
            have within := ((List.suffix_cons _ _).trans (suffix_of_after? escaped)).trans inside
            rcases fails_of_bind h with h | ⟨⟨inner, mid, shorter'⟩, read, h⟩
            · refine ih _ ?_ (p := .interpolation 0) ⟨within, h⟩ quote rfl
              simp only [List.length_cons, Phrase.rank] at shorter ⊢
              omega
            -- The interpolation was read, so the fault lies in what follows it.
            · obtain ⟨rfl, -⟩ := splits_of_read (p := .interpolation 0) ⟨_, shorter', read⟩
              rcases fails_of_bind h with h | ⟨_, -, ⟨⟩⟩
              refine ih _ ?_ (p := .body d) ⟨(List.suffix_append _ _).trans within, h⟩ quote rfl
              simp only [List.length_cons, List.length_append, Phrase.rank] at shorter ⊢
              omega
          · next c rest _ escaped =>
            have shorter := Delimiter.length_after_escape escaped
            have within := ((List.suffix_cons _ _).trans (suffix_of_after? escaped)).trans inside
            rcases fails_of_bind h with h | ⟨_, -, ⟨⟩⟩
            refine ih _ ?_ (p := .body d) ⟨within, h⟩ quote rfl
            simp only [List.length_cons, Phrase.rank] at shorter ⊢
            omega
          · cases h
            exact .first quote
          · split at h
            · next c rest _ _ =>
              rcases fails_of_bind h with h | ⟨_, -, ⟨⟩⟩
              refine ih _ ?_ (p := .body d) ⟨(List.suffix_cons _ _).trans inside, h⟩ quote rfl
              simp only [List.length_cons, Phrase.rank]
              omega
            · cases h
              exact .first quote
    | interpolation depth =>
      obtain ⟨inside, h⟩ := h
      -- Every reading but that of a nested literal goes on in an interpolation, on a shorter rest.
      have further {depth' : Nat} {rest : List Char} (suffix : rest <:+ cs)
          (shorter : rest.length < cs.length)
          (h : Literal.interpolation depth' whole rest = .error f) : f.FoundIn whole := by
        refine ih _ ?_ (p := .interpolation depth') ⟨suffix.trans inside, h⟩ quote rfl
        simp only [Phrase.rank]
        omega
      rw [interpolation.eq_def] at h
      split at h
      · cases h
        exact .first quote
      · rcases fails_of_bind h with h | ⟨_, -, ⟨⟩⟩
        exact further (List.suffix_cons _ _) (Nat.lt_add_one _) h
      · split at h
        · cases h
        · rcases fails_of_bind h with h | ⟨_, -, ⟨⟩⟩
          exact further (List.suffix_cons _ _) (Nat.lt_add_one _) h
      · next rest =>
        rcases fails_of_bind h with h | ⟨⟨inner, mid, shorter⟩, read, h⟩
        · refine (ih _ ?_ (p := .literal 0) ⟨inside, h⟩ quote rfl)
          simp only [List.length_cons, Phrase.rank]
          omega
        · obtain ⟨rfl, -⟩ := splits_of_read (p := .literal 0) ⟨shorter, read⟩
          rcases fails_of_bind h with h | ⟨_, -, ⟨⟩⟩
          refine further ((List.suffix_append _ _).trans (List.suffix_cons _ _)) ?_ h
          simp only [List.length_cons, List.length_append]
          omega
      · rcases fails_of_bind h with h | ⟨_, -, ⟨⟩⟩
        exact further (List.suffix_cons _ _) (Nat.lt_add_one _) h

theorem string_fault {pounds : Nat} {cs : List Char} {f : LexicalFault}
    (h : string pounds cs = .error f) : f.FoundIn ('"' :: cs) :=
  fault_of_fails (p := .literal pounds) ⟨List.suffix_refl _, h⟩ ⟨cs, rfl⟩

end Literal

/-! ### Whole texts -/

/-- Only a block comment can be wrong about a gap. -/
theorem Trivia.skip_fault {cs : List Char} {f : LexicalFault} (h : skip cs = .error f) :
    f.FoundIn cs := by
  induction cs using skip.induct with
  | case1 =>
    rw [skip] at h
    cases h
  | case2 rest _ ih =>
    rw [skip] at h
    rcases fails_of_bind h with h | ⟨_, -, ⟨⟩⟩
    exact (ih h).behind ((List.dropWhile_suffix _).trans
      ((List.suffix_cons _ _).trans (List.suffix_cons _ _)))
  | case3 rest unclosed =>
    rw [skip.eq_3] at h
    split at h
    · cases h
      exact .first ⟨rest, rfl⟩
    · next closes => rw [unclosed] at closes; cases closes
  | case4 rest body after closes _ ih =>
    rw [skip.eq_3] at h
    split at h
    · next unclosed => rw [closes] at unclosed; cases unclosed
    · next body' after' closes' =>
      rw [closes] at closes'
      cases closes'
      rcases fails_of_bind h with h | ⟨_, -, ⟨⟩⟩
      have made := append_of_closeComment closes
      exact (ih h).behind ((made ▸ List.suffix_append _ _).trans
        ((List.suffix_cons _ _).trans (List.suffix_cons _ _)))
  | case5 c rest noLine noBlock isSpace ih =>
    rw [skip.eq_4 _ _ noLine noBlock, if_pos isSpace] at h
    rcases fails_of_bind h with h | ⟨_, -, ⟨⟩⟩
    exact (ih h).behind (List.suffix_cons _ _)
  | case6 c rest noLine noBlock noSpace =>
    rw [skip.eq_4 _ _ noLine noBlock, if_neg noSpace] at h
    cases h

/-- Only a literal or a name between backticks can be wrong about a token. -/
theorem Lexeme.scan_fault {c : Char} {cs : List Char} {f : LexicalFault}
    (h : scan c cs = .error f) : f.FoundIn (c :: cs) := by
  rw [scan.eq_def] at h
  split at h
  · cases h
  · split at h
    · cases h
    · split at h
      · next quote =>
        rcases fails_of_bind h with h | ⟨_, -, ⟨⟩⟩
        rw [quote]
        exact Literal.string_fault h
      · split at h
        · dsimp only at h
          split at h
          · next rest behind =>
            rcases fails_of_bind h with h | ⟨_, -, ⟨⟩⟩
            have suffix := List.dropWhile_suffix (l := cs) (· == '#')
            rw [behind] at suffix
            exact (Literal.string_fault h).behind (suffix.trans (List.suffix_cons _ _))
          · cases h
        · split at h
          · next tick =>
            split at h
            · cases h
            · cases h
              rw [tick]
              exact .first ⟨cs, rfl⟩
          · split at h
            · cases h
            · split at h
              · cases h
              · cases h

theorem lexemes_of_skip_fault {cs : List Char} {f : LexicalFault} (h : Trivia.skip cs = .error f) :
    lexemes cs = .error f := by
  rw [lexemes, h]
  rfl

theorem lexemes_of_scan_fault {cs tail : List Char} {gap : Gap} {c : Char} {f : LexicalFault}
    (skipped : Reads (Trivia.skip cs) gap (c :: tail)) (h : Lexeme.scan c tail = .error f) :
    lexemes cs = .error f := by
  obtain ⟨shorter, skipped⟩ := skipped
  rw [lexemes, skipped]
  simp only [bind, Except.bind, h]

/-- A text that cannot be cut into lexemes has a fault that is found in it. -/
theorem lexemes_fault {cs : List Char} {f : LexicalFault} (h : lexemes cs = .error f) :
    f.FoundIn cs := by
  induction hn : cs.length using Nat.strongRecOn generalizing cs with
  | ind n ih =>
    subst hn
    cases skipped : Trivia.skip cs with
    | error fault =>
      rw [lexemes_of_skip_fault skipped] at h
      cases h
      exact Trivia.skip_fault skipped
    | ok s =>
      obtain ⟨gap, rest, shorter⟩ := s
      have skipped : Reads (Trivia.skip cs) gap rest := ⟨shorter, skipped⟩
      obtain ⟨rfl, noGap, -⟩ := Trivia.skipped_of_reads skipped
      cases rest with
      | nil =>
        rw [lexemes_of_skip skipped] at h
        cases h
      | cons c tail =>
        cases scanned : Lexeme.scan c tail with
        | error fault =>
          rw [lexemes_of_scan_fault skipped scanned] at h
          cases h
          exact (Lexeme.scan_fault scanned).behind (List.suffix_append _ _)
        | ok s =>
          obtain ⟨⟨kind, text⟩, after, lt⟩ := s
          have scanned : Reads (Lexeme.scan c tail) (kind, text) after := ⟨lt, scanned⟩
          obtain ⟨made, -⟩ := Lexeme.reads_scan_iff.mp ⟨noGap, scanned⟩
          have suffix : after <:+ c :: tail := made ▸ List.suffix_append _ _
          rw [lexemes_of_scan skipped scanned] at h
          cases later : lexemes after with
          | ok ls => rw [later] at h; cases h
          | error fault =>
            rw [later] at h
            cases h
            refine (ih _ ?_ later rfl).behind (suffix.trans (List.suffix_append _ _))
            rw [List.length_append]
            exact Nat.lt_of_lt_of_le (by simpa using lt) (Nat.le_add_left _ _)

/-! ### Two texts

A gap that is whole changes nothing about what follows but the gap of its first lexeme. -/

namespace Trivia

/-- A gap that is whole is skipped, whatever is wrong behind it. -/
theorem Whole.skip_fault {gap rest : List Char} {crossed : Bool} {f : LexicalFault}
    (h : Whole gap crossed) (fault : skip rest = .error f) : skip (gap ++ rest) = .error f := by
  induction h with
  | nil => exact fault
  | @space c gap crossed isSpace _ ih =>
    have noSlash : c ≠ '/' := by
      rintro rfl
      rw [isWhiteSpace_slash] at isSpace
      cases isSpace
    rw [List.cons_append, skip.eq_4 _ _ (fun _ same _ => noSlash same)
      (fun _ same _ => noSlash same), if_pos isSpace, ih]
    rfl
  | @line comment gap crossed within _ ih =>
    rw [List.cons_append, List.cons_append, List.append_assoc, skip]
    have behind : (comment ++ ('\n' :: gap ++ rest)).dropWhile withinLine
        = '\n' :: gap ++ rest := by
      rw [List.dropWhile_append_of_pos within, List.cons_append,
        List.dropWhile_cons_of_neg (by decide)]
    have later : skip ((comment ++ ('\n' :: gap ++ rest)).dropWhile withinLine) = .error f := by
      rw [behind]
      exact ih
    rw [later]
    rfl
  | @block comment gap crossed closes _ ih =>
    have closes := closeComment_append (gap ++ rest) closes
    rw [List.nil_append] at closes
    rw [List.cons_append, List.cons_append, List.append_assoc, skip.eq_3]
    split
    · next fails => rw [closes] at fails; cases fails
    · next body after closed =>
      rw [closes] at closed
      cases closed
      rw [ih]
      rfl

/-- What stands behind the last token is a whole gap once its line ends, and one that breaks the
line. -/
theorem whole_of_trailing {tail : List Char} (h : Trailing tail) : Whole (tail ++ ['\n']) true := by
  obtain ⟨crossed, front, open_, rfl, whole, isOpen, -⟩ := h
  have ended : Whole (open_ ++ ['\n']) true := by
    cases isOpen with
    | none => exact whole_lineFeed
    | line within => exact .line within whole_lineFeed
  rw [List.append_assoc, ← Bool.or_true crossed]
  exact whole.append ended

end Trivia

/-- Lexemes with more in front of the first gap. -/
def Lexeme.behind (front : List Char) (crossed : Bool) : List Lexeme → List Lexeme
  | [] => []
  | l :: ls => { l with gap := l.gap.behind front crossed } :: ls

/-- A text behind a whole gap is cut as by itself, with the gap in front of its first lexeme; what
is wrong with it stays wrong. -/
theorem lexemes_behind {gap : List Char} {crossed : Bool} (h : Trivia.Whole gap crossed)
    (cs : List Char) : lexemes (gap ++ cs) = (lexemes cs).map (Lexeme.behind gap crossed) := by
  cases skipped : Trivia.skip cs with
  | error fault =>
    rw [lexemes_of_skip_fault skipped, lexemes_of_skip_fault (h.skip_fault skipped)]
    rfl
  | ok s =>
    obtain ⟨g, rest, shorter⟩ := s
    have skipped : Reads (Trivia.skip cs) g rest := ⟨shorter, skipped⟩
    have behind := h.reads_skip skipped
    cases rest with
    | nil =>
      rw [lexemes_of_skip skipped, lexemes_of_skip behind]
      rfl
    | cons c tail =>
      cases scanned : Lexeme.scan c tail with
      | error fault =>
        rw [lexemes_of_scan_fault skipped scanned, lexemes_of_scan_fault behind scanned]
        rfl
      | ok s =>
        have scanned : Reads (Lexeme.scan c tail) s.value s.rest := ⟨s.shorter, scanned⟩
        rw [lexemes_of_scan skipped scanned, lexemes_of_scan behind scanned]
        cases lexemes s.rest <;> rfl

/-- The text of a lexeme with its gap. -/
def Lexeme.whole (l : Lexeme) : List Char :=
  l.gap.text ++ l.text

/-- A text that can be cut and, behind a line feed, another text are cut one after another. -/
theorem Cut.lexemes_joined {ls : List Lexeme} {cs : List Char} (h : Cut ls cs) :
    ∃ gap, gap ≠ [] ∧ ls.flatMap Lexeme.whole ++ gap = cs ++ ['\n'] ∧ ∀ more,
      lexemes (cs ++ '\n' :: more) = (lexemes more).map (ls ++ Lexeme.behind gap true ·) := by
  induction h with
  | @done tail trailing =>
    refine ⟨tail ++ ['\n'], by simp, rfl, fun more => ?_⟩
    rw [← List.singleton_append, ← List.append_assoc,
      lexemes_behind (Trivia.whole_of_trailing trailing)]
    rfl
  | @lexeme gap kind text rest ls whole spelled stops _ ih =>
    obtain ⟨last, some_, made, joined⟩ := ih
    refine ⟨last, some_, ?_, fun more => ?_⟩
    · simp only [List.flatMap_cons, Lexeme.whole, List.append_assoc] at made ⊢
      rw [made]
    · -- The line feed ends the last token.
      have like : Like rest (rest ++ '\n' :: more) := by
        have ended : Like [] ('\n' :: more) := .space Trivia.isWhiteSpace_lineFeed
        have ended := ended.append rest
        rwa [List.append_nil] at ended
      have stops := like.stops stops
      have noGap := spelled.not_startsGap stops
      obtain ⟨c, text, rfl, -⟩ := spelled.head
      have skipped : Reads (Trivia.skip (gap.text ++ (c :: text ++ (rest ++ '\n' :: more)))) gap
          (c :: (text ++ (rest ++ '\n' :: more))) :=
        Trivia.reads_skip_iff.mpr
          ⟨rfl, noGap, gap.text, [], (List.append_nil _).symm, whole, .none, .inl rfl⟩
      rw [List.append_assoc, List.append_assoc,
        lexemes_of_scan skipped (Lexeme.reads_scan spelled stops), joined]
      cases lexemes more <;> rfl

end CodableSynthesis
