import CodableSynthesis.Proofs.Printing.Artifacts
import CodableSynthesis.Proofs.Lexing.Junctions
import CodableSynthesis.Proofs.Respelling.Lines

/-!
The tokens of generated texts. A generated text is indented where it is put into a source; the
tokens of its lines are the same wherever that is.

* `Typeset`: the tokens of a text wherever it stands at the beginning of a line.
* `Typeset.memberText`, `Typeset.following`: the tokens of what is put into a body, and of what is
  put behind a declaration.
* `Laying`: the tokens that one line is laid out as.
* `Cut.lines`: lines that are laid out, one behind another.
* `Typeset.of_layings`: a declaration is typeset if each of its lines is laid out.

`Printing` has shown that generated texts lex, whatever they are made of. Here the tokens themselves
are wanted, with the flags that tell where lines begin, since what is generated is to be read again.
A line is laid out as in `Respelling`: its tokens are given, and the text is theirs.
-/

namespace CodableSynthesis

open Text (isWhiteSpace)
open Trivia (Whole)

/-- A gap that ends with a line feed crosses a line. -/
theorem Trivia.Whole.crossed_of_getLast? {gap : List Char} {crossed : Bool} (h : Whole gap crossed)
    (ends : gap.getLast? = some '\n') : crossed = true := by
  induction h with
  | nil => cases ends
  | @space c gap crossed _ _ ih =>
    cases gap with
    | nil =>
      cases ends
      rfl
    | cons d gap =>
      rw [List.getLast?_cons_cons] at ends
      rw [ih ends, Bool.or_true]
  | @line comment gap crossed _ _ ih =>
    refine ih ?_
    rw [← ends, ← List.cons_append, ← List.cons_append, List.getLast?_append]
    cases more : ('\n' :: gap).getLast? with
    | none => simp at more
    | some c => rfl
  | @block comment gap crossed closes _ ih =>
    rw [← List.cons_append, ← List.cons_append, List.getLast?_append] at ends
    cases more : gap.getLast? with
    | none =>
      -- the comment ends with a slash
      obtain ⟨front, made⟩ := closeComment_ends closes
      rw [more, made, ← List.cons_append, ← List.cons_append, List.getLast?_concat] at ends
      cases ends
    | some c =>
      rw [more, Option.some_or] at ends
      rw [ih (more.trans ends), Bool.or_true]

theorem Trivia.Whole.of_white {space : List Char} (white : ∀ c ∈ space, isWhiteSpace c = true) :
    ∃ crossed, Whole space crossed := by
  induction space with
  | nil => exact ⟨_, .nil⟩
  | cons c space ih =>
    obtain ⟨isSpace, others⟩ := List.forall_mem_cons.mp white
    obtain ⟨_, whole⟩ := ih others
    exact ⟨_, .space isSpace whole⟩

theorem Trivia.Whole.lineFeed {space : List Char} (white : ∀ c ∈ space, isWhiteSpace c = true) :
    Whole ('\n' :: space) true := by
  obtain ⟨_, whole⟩ := of_white white
  exact .space isWhiteSpace_lineFeed whole

/-- `Typeset text us`: wherever the text stands at the beginning of a line, however far it is
indented, its tokens are `us`. -/
structure Typeset (text : String) (us : List Token) : Prop where
  /-- Behind any gap with a line break in it, and under any margin. -/
  cut : ∀ {gap margin cs : List Char} {ls : List Lexeme}, Whole gap true → gap ≠ [] →
    (∀ c ∈ margin, isWhiteSpace c = true) → Cut ls cs →
    ∃ front, Cut (front ++ ls) (gap ++ (Text.indentLines margin text.toList ++ cs)) ∧
      List.Forall₂ Lexeme.Becomes front us
  /-- Without a margin, indenting leaves the text as it is. -/
  flush : Text.indentLines [] text.toList = text.toList

namespace Typeset

variable {texts : List String} {uss : List (List Token)} {gap margin cs : List Char}
  {ls : List Lexeme}

/-- Generated texts with blank lines between them. -/
theorem separated (h : List.Forall₂ Typeset texts uss) (some_ : texts ≠ [])
    (white : ∀ c ∈ margin, isWhiteSpace c = true) (whole : Whole gap true) (nonempty : gap ≠ [])
    (later : Cut ls cs) :
    ∃ front, Cut (front ++ ls) (gap ++ (['\n', '\n'].intercalate
        (texts.map fun m => Text.indentLines margin m.toList) ++ cs)) ∧
      List.Forall₂ Lexeme.Becomes front uss.flatten := by
  induction h generalizing gap with
  | nil => exact absurd rfl some_
  | @cons text us texts uss typeset others ih =>
    cases others with
    | nil =>
      obtain ⟨front, cut, becomes⟩ := typeset.cut whole nonempty white later
      exact ⟨front, by simpa [List.intercalate] using cut, by simpa using becomes⟩
    | cons _ _ =>
      obtain ⟨back, behind, becomes'⟩ := @ih ['\n', '\n'] nofun
        (.lineFeed (List.forall_mem_singleton.mpr Trivia.isWhiteSpace_lineFeed)) nofun
      obtain ⟨front, cut, becomes⟩ := typeset.cut whole nonempty white behind
      refine ⟨front ++ back, ?_, List.rel_append becomes becomes'⟩
      simpa [List.intercalate] using cut

/-- Generated texts, each behind a blank line. -/
theorem following (h : List.Forall₂ Typeset texts uss) (later : Cut ls cs) :
    ∃ front, Cut (front ++ ls) (texts.flatMap (fun e => '\n' :: '\n' :: e.toList) ++ cs) ∧
      List.Forall₂ Lexeme.Becomes front uss.flatten := by
  induction h with
  | nil => exact ⟨[], later, .nil⟩
  | @cons text us texts uss typeset others ih =>
    obtain ⟨back, behind, becomes'⟩ := ih
    obtain ⟨front, cut, becomes⟩ := @Typeset.cut _ _ typeset ['\n', '\n'] [] _ _
      (.lineFeed (List.forall_mem_singleton.mpr Trivia.isWhiteSpace_lineFeed)) nofun nofun behind
    rw [typeset.flush] at cut
    refine ⟨front ++ back, ?_, List.rel_append becomes becomes'⟩
    simpa using cut

/-- Generated members in a body, in front of a token. The token begins a line behind them. -/
theorem memberText {kept space : List Char} {crossed bodyIsEmpty : Bool} {indentWidth : Nat}
    {kind : TokenKind} {text : List Char} (h : List.Forall₂ Typeset texts uss) (some_ : texts ≠ [])
    (whole : Whole (kept ++ space) crossed) (spaces : ∀ c ∈ space, isWhiteSpace c = true)
    (white : ∀ c ∈ margin, isWhiteSpace c = true)
    (later : Cut (⟨.none, kind, text⟩ :: ls) (text ++ cs)) :
    ∃ front, Cut (front ++ ⟨⟨'\n' :: margin, true⟩, kind, text⟩ :: ls)
        (kept ++ (Edit.memberText margin indentWidth bodyIsEmpty texts ++ (text ++ cs))) ∧
      List.Forall₂ Lexeme.Becomes front uss.flatten := by
  have inner : ∀ c ∈ margin ++ List.replicate indentWidth ' ', isWhiteSpace c = true := by
    refine List.forall_mem_append.mpr ⟨white, fun c mem => ?_⟩
    obtain rfl := List.eq_of_mem_replicate mem
    decide
  have closed := @Cut.regap .none ⟨'\n' :: margin, true⟩ _ _ _ _ later (.lineFeed white)
  obtain ⟨_, trimmed⟩ := whole.trim rfl spaces
  obtain rfl := trimmed.crossed_of_getLast? List.getLast?_concat
  rw [Edit.memberText]
  cases bodyIsEmpty with
  | true =>
    have := separated h some_ inner trimmed (by simp) closed
    simpa using this
  | false =>
    have wider := trimmed.append Trivia.whole_lineFeed
    have := separated h some_ inner wider (by simp) closed
    simpa using this

end Typeset

/-! ### Lines

From lines to declarations. The last line is the closing brace, which no name can go on with, so
that the text may be followed by anything. -/

/-- A line and the tokens that it is laid out as, behind some blanks. -/
structure Laying (line : List Char) (ts : List Token) : Prop where
  /-- There are tokens. -/
  nonempty : ts ≠ []
  /-- The line is laid out as them, behind some blanks. -/
  chars : ∃ n, line = List.replicate n ' ' ++ laidText (lead true ts)
  /-- They are cut as they are laid out. -/
  cuts : Cuts (lead true ts)

namespace Laying

variable {line : List Char} {ts : List Token} {gap margin cs : List Char} {ls : List Lexeme}

theorem indented (h : Laying line ts) (n : Nat) : Laying (List.replicate n ' ' ++ line) ts where
  nonempty := h.nonempty
  chars := by
    obtain ⟨m, chars⟩ := h.chars
    exact ⟨n + m, by rw [chars, List.replicate_add, List.append_assoc]⟩
  cuts := h.cuts

/-- A line behind a gap and a margin. -/
theorem cut (h : Laying line ts) (whole : Whole gap true) (nonempty : gap ≠ [])
    (white : ∀ c ∈ margin, isWhiteSpace c = true) (ends : AtLineEnd cs) (later : Cut ls cs) :
    ∃ front, Cut (front ++ ls) (gap ++ (margin ++ line ++ cs)) ∧
      List.Forall₂ Lexeme.Becomes front (fresh ts) := by
  obtain ⟨some_, ⟨n, rfl⟩, cuts⟩ := h
  have here := cuts.cut ends.endsName later
  have flat := cuts.flat
  obtain ⟨t, ts, rfl⟩ := List.exists_cons_of_ne_nil some_
  rw [lead_cons] at here flat
  have blanks : ∀ c ∈ margin ++ List.replicate n ' ', isWhiteSpace c = true := by
    refine List.forall_mem_append.mpr ⟨white, fun c mem => ?_⟩
    obtain rfl := List.eq_of_mem_replicate mem
    decide
  obtain ⟨crossed, spaces⟩ := Trivia.Whole.of_white blanks
  have moved := @Cut.regap .none ⟨gap ++ (margin ++ List.replicate n ' '), true || crossed⟩ _ _ _ _
    here (whole.append spaces)
  refine ⟨⟨⟨gap ++ (margin ++ List.replicate n ' '), true⟩, t.kind, t.chars⟩ ::
    ts.map Token.lexeme, ?_, ?_⟩
  · simpa [Token.chars, lead_cons] using moved
  · refine .cons ⟨rfl, rfl, rfl, ?_⟩ (lexemes_become fun u mem => flat u (.tail _ mem))
    simp [nonempty]

end Laying

/-- Lines, one behind another, up to a last one that is a closing brace. -/
theorem Cut.lines {lines : List (List Char)} {tss : List (List Token)} {gap margin cs : List Char}
    {ls : List Lexeme} (h : List.Forall₂ Laying lines tss) (whole : Whole gap true)
    (nonempty : gap ≠ []) (white : ∀ c ∈ margin, isWhiteSpace c = true) (later : Cut ls cs) :
    ∃ front, Cut (front ++ ls)
        (gap ++ (joinLines ((lines ++ [['\x7d']]).map (margin ++ ·)) ++ cs)) ∧
      List.Forall₂ Lexeme.Becomes front
        (tss.flatMap fresh ++ [.begun (.closing .brace) "\x7d"]) := by
  induction h generalizing gap with
  | nil =>
    obtain ⟨crossed, spaces⟩ := Trivia.Whole.of_white white
    have brace : Cut (⟨⟨gap ++ margin, true || crossed⟩, .closing .brace, ['\x7d']⟩ :: ls) _ :=
      .lexeme (whole.append spaces) (.punctuation rfl) trivial later
    refine ⟨[⟨⟨gap ++ margin, true⟩, .closing .brace, ['\x7d']⟩], ?_, ?_⟩
    · simpa [joinLines] using brace
    · refine .cons ⟨rfl, ?_, rfl, ?_⟩ .nil
      · simp [Token.begun, Token.chars]
      · simp [Token.begun, nonempty]
  | @cons line ts lines tss laying others ih =>
    obtain ⟨back, behind, becomes'⟩ := @ih ['\n'] Trivia.whole_lineFeed (List.cons_ne_nil _ _)
    obtain ⟨front, cut, becomes⟩ := laying.cut whole nonempty white (.lineFeed) behind
    refine ⟨front ++ back, ?_, ?_⟩
    · have split : joinLines ((line :: lines ++ [['\x7d']]).map (margin ++ ·)) = margin ++ line ++
          '\n' :: joinLines ((lines ++ [['\x7d']]).map (margin ++ ·)) := by
        have := @joinLines_append [margin ++ line] ((lines ++ [['\x7d']]).map (margin ++ ·))
          (List.cons_ne_nil _ _) (by simp)
        simpa [joinLines] using this
      rw [split]
      simpa using cut
    · rw [List.flatMap_cons, List.append_assoc]
      exact List.rel_append becomes becomes'

/-- A generated declaration whose lines are laid out. -/
theorem Typeset.of_layings {a : Artifact} {w : Writer} {hs : List Token} {tss : List (List Token)}
    (printed : a.IsPrinted) (header : Laying (a.header ++ " \x7b").toList hs)
    (body : List.Forall₂ (fun l ts => Laying l.toList ts) a.body tss) :
    Typeset (w.render a)
      (fresh hs ++ (tss.flatMap fresh ++ [.begun (.closing .brace) "\x7d"])) := by
  have lines := printed.lines w.indentWidth
  have nonempty : a.lines w.indentWidth ≠ [] := List.cons_ne_nil _ _
  have plain : ∀ l ∈ a.lines w.indentWidth, PlainLine l := fun l mem =>
    (lines l mem).1.elim fun _ printed => printed.plainLine (lines l mem).2
  have indented : List.Forall₂ Laying
      (a.body.map fun l => List.replicate w.indentWidth ' ' ++ l.toList) tss :=
    List.forall₂_map_left_iff.mpr (body.imp fun _ _ laying => laying.indented _)
  constructor
  · intro gap margin cs ls whole some_ white later
    obtain ⟨front, cut, becomes⟩ := Cut.lines (.cons header indented) whole some_ white later
    rw [w.render_toList, indentLines_joinLines nonempty plain]
    exact ⟨front, cut, by simpa using becomes⟩
  · rw [w.render_toList, indentLines_joinLines nonempty plain]
    simp

end CodableSynthesis
