import CodableSynthesis.Artifact.Writer
import CodableSynthesis.Proofs.Lexing.Words
import CodableSynthesis.Text.Position
import Mathlib.Data.List.Forall2

/-!
Generated declarations as lines. A writer puts line feeds between its lines, and so they can be
indented one by one.

* `Artifact.lines`: the lines of a declaration, without a writer.
* `Writer.emit_lines`, `Writer.render_toList`: the lines of a declaration, behind others and alone,
  with line feeds between them.
* `indentLines_joinLines`: indenting puts a margin in front of each.
* `Lexes.lines`: lines of names and marks have their tokens under any margin.

`Codegen` keeps a text and a depth and appends line by line. From outside only the lines matter, and
`Artifact.lines` gives them without the state of a writer. All later modules speak of these lines.

Indenting reads a text back as lines, and reading lines drops a carriage return in front of a line
feed. `PlainLine` says what a line must be like for that to give it back: no generated line contains
a line feed or ends with a carriage return.
-/

namespace CodableSynthesis

/-- Lines with line feeds between them. -/
def joinLines (ls : List (List Char)) : List Char :=
  ['\n'].intercalate ls

/-- Each further line stands behind a line feed. -/
theorem joinLines_cons (l : List Char) (ls : List (List Char)) :
    joinLines (l :: ls) = l ++ ls.flatMap ('\n' :: ·) := by
  induction ls generalizing l with
  | nil => simp [joinLines, List.intercalate]
  | cons m ls ih =>
    have := ih m
    simp only [joinLines, List.intercalate, List.intersperse_cons_cons, List.flatten_cons] at this ⊢
    rw [this]
    rfl

theorem joinLines_append {ls ms : List (List Char)} (some_ : ls ≠ []) (behind : ms ≠ []) :
    joinLines (ls ++ ms) = joinLines ls ++ '\n' :: joinLines ms := by
  obtain ⟨l, ls, rfl⟩ := List.exists_cons_of_ne_nil some_
  obtain ⟨m, ms, rfl⟩ := List.exists_cons_of_ne_nil behind
  rw [List.cons_append, joinLines_cons, joinLines_cons, joinLines_cons, List.flatMap_append,
    List.flatMap_cons, List.append_assoc]
  rfl

namespace Artifact

/-- The lines of a declaration on its own: its header with a brace, its body one level deep, and the
closing brace. There is no line feed behind the last. -/
def lines (a : Artifact) (indentWidth : Nat) : List (List Char) :=
  (a.header ++ " \x7b").toList ::
    (a.body.map fun l => List.replicate indentWidth ' ' ++ l.toList) ++ [['\x7d']]

end Artifact

namespace Writer

variable {w : Writer}

theorem line_text (h : w.text.isEmpty = false) (content : String) :
    (w.line content).text.toList =
      w.text.toList
        ++ '\n' :: (List.replicate (w.depth * w.indentWidth) ' ' ++ content.toList) := by
  simp [line, h, blanks]

theorem isEmpty_line (h : w.text.isEmpty = false) (content : String) :
    (w.line content).text.isEmpty = false := by
  simp [line, h] at *

/-- Lines behind a text that has some already. -/
theorem foldl_line (h : w.text.isEmpty = false) (contents : List String) :
    ∃ text, contents.foldl line w = ⟨text, w.depth, w.indentWidth⟩ ∧ text.isEmpty = false ∧
      text.toList = w.text.toList ++ contents.flatMap fun l =>
        '\n' :: (List.replicate (w.depth * w.indentWidth) ' ' ++ l.toList) := by
  induction contents generalizing w with
  | nil => exact ⟨w.text, rfl, h, by simp⟩
  | cons l contents ih =>
    obtain ⟨text, made, some_, chars⟩ := ih (isEmpty_line h l)
    refine ⟨text, made, some_, ?_⟩
    rw [chars, line_text h, List.flatMap_cons]
    simp [line]

/-- A declaration is added as its lines, behind a line feed unless it is the first. -/
theorem emit_lines (closed : w.depth = 0) (a : Artifact) :
    ∃ text, w.emit a = ⟨text, 0, w.indentWidth⟩ ∧
      text.toList = w.text.toList ++ (if w.text.isEmpty then [] else ['\n']) ++
        joinLines (a.lines w.indentWidth) := by
  have opened : w.openBlock a.header =
      ⟨w.text ++ (if w.text.isEmpty then "" else "\n") ++ (a.header ++ " \x7b"), 1,
        w.indentWidth⟩ := by
    simp [openBlock, line, closed, blanks]
  have some_ : (w.openBlock a.header).text.isEmpty = false := by
    rw [opened]
    simp
  obtain ⟨text, made, nonempty, chars⟩ := foldl_line some_ a.body
  rw [opened] at chars
  have ended : w.emit a = line ⟨text, 0, w.indentWidth⟩ "\x7d" := by
    rw [emit, block, made, opened]
    rfl
  have before : (if w.text.isEmpty then "" else "\n").toList =
      if w.text.isEmpty then [] else ['\n'] := by
    split <;> rfl
  refine ⟨(line ⟨text, 0, w.indentWidth⟩ "\x7d").text, ended, ?_⟩
  rw [line_text nonempty, chars, String.toList_append, String.toList_append, before,
    Artifact.lines, List.cons_append, joinLines_cons, List.flatMap_append, List.flatMap_map]
  simp

/-- A declaration is written as its lines. -/
theorem render_toList (w : Writer) (a : Artifact) :
    (w.render a).toList = joinLines (a.lines w.indentWidth) := by
  obtain ⟨text, made, chars⟩ := w.fork.emit_lines rfl a
  rw [render, made, chars]
  rfl

end Writer

/-! ### Lines read back -/

/-- A line that is read back as it was written. -/
structure PlainLine (l : List Char) : Prop where
  /-- An empty line would not be indented. -/
  nonempty : l ≠ []
  /-- It is one line. -/
  noFeed : '\n' ∉ l
  /-- Nothing at its end is taken for a part of the line break. -/
  noReturn : l.getLast? ≠ some '\r'

theorem linesFrom_append {l : List Char} (noFeed : '\n' ∉ l) (before cs : List Char) :
    Text.linesFrom before (l ++ cs) = Text.linesFrom (l.reverse ++ before) cs := by
  induction l generalizing before with
  | nil => rfl
  | cons c l ih =>
    obtain ⟨other, noFeed⟩ := List.ne_and_not_mem_of_not_mem_cons noFeed
    rw [List.cons_append, Text.linesFrom, if_neg fun same => other same.symm, ih noFeed]
    simp

theorem closedLine_reverse {l : List Char} (h : l.getLast? ≠ some '\r') :
    Text.closedLine l.reverse = l := by
  rw [← List.head?_reverse] at h
  rw [Text.closedLine.eq_def]
  split
  · next rest same => rw [same] at h; exact absurd rfl h
  · exact List.reverse_reverse l

/-- The lines of lines with line feeds between them. -/
theorem lines_joinLines {ls : List (List Char)} (some_ : ls ≠ [])
    (plain : ∀ l ∈ ls, PlainLine l) : Text.lines (joinLines ls) = ls := by
  obtain ⟨l, ls, rfl⟩ := List.exists_cons_of_ne_nil some_
  rw [joinLines_cons, Text.lines]
  induction ls generalizing l with
  | nil =>
    have here := plain l (.head _)
    rw [List.flatMap_nil, linesFrom_append here.noFeed, List.append_nil, Text.linesFrom]
    simp [here.nonempty]
  | cons m ls ih =>
    have here := plain l (.head _)
    rw [linesFrom_append here.noFeed, List.append_nil, List.flatMap_cons, List.cons_append,
      Text.linesFrom, if_pos rfl, closedLine_reverse here.noReturn,
      ih m nofun fun n mem => plain n (.tail _ mem)]

/-- Indenting puts the margin in front of every line. -/
theorem indentLines_joinLines {ls : List (List Char)} (some_ : ls ≠ [])
    (plain : ∀ l ∈ ls, PlainLine l) (margin : List Char) :
    Text.indentLines margin (joinLines ls) = joinLines (ls.map (margin ++ ·)) := by
  rw [Text.indentLines, lines_joinLines some_ plain, joinLines]
  congr 1
  refine List.map_congr_left fun l mem => ?_
  have := (plain l mem).nonempty
  simp [this]

/-! ### The tokens of lines

The margin, and the line feed in front of it, belong to the gap of the first token of a line. So the
tokens of the lines are those of each line on its own. -/

/-- Lines that are made of blanks, names and marks have their tokens wherever they stand, whatever
the margin in front of them, unless a name goes on behind the last. -/
theorem Lexes.lines {ls : List (List Char)} {wss : List (List Word)} {margin rest : List Char}
    {more : List Word} (h : List.Forall₂ Prints ls wss) (some_ : ls ≠ [])
    (white : ∀ c ∈ margin, Text.isWhiteSpace c = true)
    (apart : EndsName rest ∨ ∀ l ∈ ls.getLast?, Closed l) (later : Lexes rest more) :
    Lexes (joinLines (ls.map (margin ++ ·)) ++ rest) (wss.flatten ++ more) := by
  induction h with
  | nil => exact absurd rfl some_
  | @cons l ws ls wss printed others ih =>
    rw [List.map_cons, joinLines_cons, List.append_assoc, List.append_assoc, List.flatten_cons,
      List.append_assoc]
    refine .spaces ?_ white
    cases others with
    | nil => exact printed.lexes (apart.imp_right fun closed => closed l rfl) later
    | cons _ _ =>
      rw [List.getLast?_cons_cons] at apart
      have behind := (ih nofun apart).space Trivia.isWhiteSpace_lineFeed
      rw [List.map_cons, joinLines_cons] at behind
      refine printed.lexes (.inl ?_) (by simpa using behind)
      rintro _ ⟨⟩
      decide

end CodableSynthesis
