import Mathlib.Data.List.Perm.Basic
import CodableSynthesis.Expansion.Source
import CodableSynthesis.Proofs.Layout.Bodies

/-!
An expansion edits only what it announces. The edits that are collected for a source text are in
bounds, between characters, and follow one another once they are sorted; the output is the source
with these edits made in it and everything else kept.

What each edit does to the text is stated without the definitions that compute it, in terms of the
stretch it replaces and of the lines it writes:

* `Edit.TakesOut`: an attribute goes, with all white space directly behind it;
* `Edit.FillsBody`: the white space in front of a closing brace becomes the lines of the generated
  members, one step further in than the line that the keyword stands in (`Text.MarginAt`), with an
  empty line between two members (`Text.stackedLines`) and one in front of them if the body holds
  anything, and the margin in front of the brace;
* `Edit.StandsBehind`: behind a closing brace come the extensions, each behind an empty line.

The main result:

* `expandSource_announced`: for every source that can be read and every indentation width the
  expansion succeeds, and its output is `Announced`.

What the members and extensions say is not the subject here; it follows from the models of the
declarations.
-/

namespace CodableSynthesis

open Text (byteLength byteLength_append isWhiteSpace leadingSpace trimEnd)
open Lexeme (EndsPlain)

/-! ### Margins and lines -/

namespace Text

/-- What follows begins a line. -/
def EndsLine (front : List Char) : Prop :=
  front = [] ∨ front.getLast? = some '\n'

/-- The line that the byte `place` stands in begins with the blanks and tabs `margin`, as far as the
line is in front of that byte. -/
def MarginAt (source : List Char) (place : Nat) (margin : List Char) : Prop :=
  ∃ above code back, source = above ++ (margin ++ (code ++ back)) ∧
    place = byteLength (above ++ (margin ++ code)) ∧ EndsLine above ∧ '\n' ∉ margin ++ code ∧
    (∀ c ∈ margin, c = ' ' ∨ c = '\t') ∧ ∀ c ∈ code.head?, c ≠ ' ' ∧ c ≠ '\t'

/-- The lines of a text, those that are not empty behind a margin. A text without lines counts as an
empty line. -/
def marginedLines (margin cs : List Char) : List (List Char) :=
  match lines cs with
  | [] => [[]]
  | ls => ls.map fun line => if line = [] then [] else margin ++ line

/-- The lines of texts behind a margin, with an empty line between two texts. No texts count as an
empty line. -/
def stackedLines (margin : List Char) : List String → List (List Char)
  | [] => [[]]
  | [text] => marginedLines margin text.toList
  | text :: texts => marginedLines margin text.toList ++ [] :: stackedLines margin texts

/-- A text is what ends before its last line, and that line. -/
theorem lastLine_split (front : List Char) :
    ∃ above, front = above ++ lastLine front ∧ EndsLine above := by
  refine ⟨(front.reverse.dropWhile (· != '\n')).reverse, ?_, ?_⟩
  · rw [lastLine, ← List.reverse_append, List.takeWhile_append_dropWhile, List.reverse_reverse]
  · rw [EndsLine, List.reverse_eq_nil_iff, List.getLast?_reverse]
    have ends := List.head?_dropWhile_not (· != '\n') front.reverse
    cases left : front.reverse.dropWhile (· != '\n') with
    | nil => exact .inl rfl
    | cons c more =>
      rw [left] at ends
      exact .inr (by simpa using ends)

theorem not_mem_lastLine (front : List Char) : '\n' ∉ lastLine front := by
  intro mem
  have other := List.mem_takeWhile_imp (List.mem_reverse.mp mem)
  simp at other

/-- The margin of a line is what `indentation` takes of the line up to a place in it. -/
theorem marginAt_indentation (front back : List Char) :
    MarginAt (front ++ back) (byteLength front) (indentation (lastLine front)) := by
  obtain ⟨above, made, ends⟩ := lastLine_split front
  have whole : indentation (lastLine front) ++
      (lastLine front).dropWhile (fun c => c == ' ' || c == '\t') = lastLine front :=
    List.takeWhile_append_dropWhile
  refine ⟨above, (lastLine front).dropWhile fun c => c == ' ' || c == '\t', back, ?_, ?_, ends,
    ?_, ?_, ?_⟩
  · rw [← List.append_assoc (indentation _), whole, ← List.append_assoc, ← made]
  · rw [whole, ← made]
  · rw [whole]
    exact not_mem_lastLine front
  · intro c mem
    simpa using List.mem_takeWhile_imp mem
  · intro c head
    have plain := List.head?_dropWhile_not (fun c => c == ' ' || c == '\t') (lastLine front)
    rw [Option.mem_def.mp head] at plain
    simpa using plain

/-- Lines with a line feed in front of each are these lines with a line feed between two, behind a
line feed. -/
theorem flatMap_lineFeed (line : List Char) (ls : List (List Char)) :
    (line :: ls).flatMap ('\n' :: ·) = '\n' :: ['\n'].intercalate (line :: ls) := by
  induction ls generalizing line with
  | nil => simp [List.intercalate]
  | cons next ls ih =>
    rw [List.flatMap_cons, ih]
    simp [List.intercalate]

theorem flatMap_marginedLines (margin cs : List Char) :
    (marginedLines margin cs).flatMap ('\n' :: ·) = '\n' :: indentLines margin cs := by
  rw [marginedLines, indentLines]
  cases lines cs with
  | nil => rfl
  | cons line ls => simpa using flatMap_lineFeed _ _

theorem flatMap_stackedLines (margin : List Char) (texts : List String) :
    (stackedLines margin texts).flatMap ('\n' :: ·) =
      '\n' :: ['\n', '\n'].intercalate (texts.map fun t => indentLines margin t.toList) := by
  induction texts with
  | nil => rfl
  | cons text texts ih =>
    cases texts with
    | nil => simpa [stackedLines, List.intercalate] using flatMap_marginedLines margin text.toList
    | cons next texts =>
      rw [stackedLines, List.flatMap_append, List.flatMap_cons, ih, flatMap_marginedLines]
      · simp [List.intercalate]
      · exact nofun

end Text

/-! ### What an edit does -/

namespace Edit

/-- The edit deletes an attribute and all white space directly behind it. -/
def TakesOut (source : List Char) (a : Attribute) (e : Edit) : Prop :=
  e.text = [] ∧ ∃ front body space back, e.Replaces source front (body ++ space) back ∧
    a.first.start = byteLength front ∧ a.last.stop = byteLength (front ++ body) ∧
    (∀ c ∈ space, isWhiteSpace c = true) ∧ ∀ c ∈ back.head?, isWhiteSpace c = false

/-- The edit replaces all white space directly in front of the closing brace of a declaration by an
empty line, unless the body holds nothing, the lines of some members, one step further in than the
line of the keyword, and the margin of that line for the brace. -/
def FillsBody (source : List Char) (indentWidth : Nat) (d : Declaration) (members : List String)
    (e : Edit) : Prop :=
  ∃ front space back, e.Replaces source front space ('\x7d' :: back) ∧
    d.closer.start = byteLength (front ++ space) ∧
    (∀ c ∈ space, isWhiteSpace c = true) ∧ EndsPlain front ∧
    ∃ margin, Text.MarginAt source d.heading.keyword.start margin ∧
      e.text = ((if d.opener.stop = byteLength front then [] else [[]]) ++
        (Text.stackedLines (margin ++ List.replicate indentWidth ' ') members ++
          [margin])).flatMap ('\n' :: ·)

/-- The edit inserts some texts directly behind the closing brace of a declaration, each behind an
empty line. -/
def StandsBehind (source : List Char) (d : Declaration) (texts : List String) (e : Edit) : Prop :=
  ∃ front back, e.Replaces source (front ++ ['\x7d']) [] back ∧
    d.closer.start = byteLength front ∧
    e.text = (texts.flatMap fun t => [[], t.toList]).flatMap ('\n' :: ·)

/-- Taking out an attribute that sits in the source. -/
theorem takesOut_removal {source : List Char} {a : Attribute} (h : a.Sits source) :
    (removal source a.span).TakesOut source a := by
  obtain ⟨front, body, back, -, -, start, stop, -, replaces⟩ := h.removal
  refine ⟨rfl, front, body, leadingSpace back, _, replaces, start, stop, ?_, ?_⟩
  · exact fun c mem => List.mem_takeWhile_imp mem
  · intro c head
    have ends := List.head?_dropWhile_not isWhiteSpace back
    rw [Option.mem_def.mp head] at ends
    simpa using ends

theorem memberText_eq (margin : List Char) (indentWidth : Nat) (bodyIsEmpty : Bool)
    (members : List String) :
    memberText margin indentWidth bodyIsEmpty members =
      ((if bodyIsEmpty then [] else [[]]) ++
        (Text.stackedLines (margin ++ List.replicate indentWidth ' ') members ++
          [margin])).flatMap ('\n' :: ·) := by
  rw [memberText, List.flatMap_append, List.flatMap_append, Text.flatMap_stackedLines,
    List.flatMap_singleton]
  cases bodyIsEmpty <;> simp

/-- Filling the body of a declaration that sits in the source. -/
theorem fillsBody_insertion {source : List Char} {d : Declaration} (h : d.Sits source)
    (indentWidth : Nat) (members : List String) :
    (insertion source indentWidth d members).FillsBody source indentWidth d members := by
  obtain ⟨-, ⟨before, after, made, keyword⟩, front, inside, back, body⟩ := h
  have replaces := body.insertion indentWidth members
  refine ⟨_, _, back, replaces, replaces.stop, ?_, ?_, ?_⟩
  · intro c mem
    exact List.mem_takeWhile_imp (List.mem_reverse.mp mem)
  · rcases Text.endsPlain_trimEnd inside with nothing | plain
    · rw [nothing, List.append_nil]
      exact ⟨'\x7b', body.opens, by decide⟩
    · exact plain.append front
  · have line : Text.takeBytes d.heading.keyword.start source = before := by
      rw [keyword, made, Text.takeBytes_byteLength_append]
    -- the body holds nothing exactly if trimming it leaves no byte behind the opening brace
    have empty : (trimEnd inside).isEmpty = true ↔
        d.opener.stop = byteLength (front ++ trimEnd inside) := by
      rw [body.opener, byteLength_append, List.isEmpty_iff]
      constructor
      · intro nothing
        rw [nothing]
        rfl
      · intro same
        exact Text.byteLength_eq_zero (by omega)
    refine ⟨Text.indentation (Text.lastLine before), ?_, ?_⟩
    · rw [made, keyword]
      exact Text.marginAt_indentation before after
    · rw [insertion, line, body.slice, memberText_eq]
      simp only [empty]

/-- Inserting behind a declaration that sits in the source. -/
theorem standsBehind_extension {source : List Char} {d : Declaration} (h : d.Sits source)
    (extensions : List String) :
    (extension d extensions).StandsBehind source d extensions := by
  obtain ⟨-, -, front, inside, back, made, -, -, start, stop⟩ := h
  rw [← List.append_assoc] at stop
  refine ⟨front ++ inside, back, ⟨by simp [made], stop, ?_⟩, start, ?_⟩
  · rw [List.append_nil]
    exact stop
  · rw [extension, List.flatMap_assoc]
    simp

end Edit

/-- What the output of an expansion is: the source with the announced edits made in it. The edits
are given in the order in which they are announced; the output is what they make in the order of the
text, which sorting finds. -/
structure Announced (source : List Char) (w : Writer) (declarations : List Declaration)
    (out : List Char) : Prop where
  /-- Every edit is the replacement of a stretch between two places of the source. -/
  bounds : ∀ e ∈ declarations.flatMap (·.announced source w),
    ∃ front cut back, e.Replaces source front cut back
  /-- Sorted by offsets, the edits follow one another. -/
  order : ((declarations.flatMap (·.announced source w)).mergeSort Edit.le).Pairwise Edit.Before
  /-- Making them in that order, with all else kept, gives the output. -/
  made : Edit.Made 0 ((declarations.flatMap (·.announced source w)).mergeSort Edit.le) source out
  /-- Each attribute that is expanded is deleted, with the white space directly behind it. -/
  deletions : ∀ d ∈ declarations, ∀ n ∈ d.withNested, ∀ a ∈ n.registered,
    (Edit.removal source a.span).TakesOut source a
  /-- The members go where white space stood directly in front of the closing brace. -/
  insertions : ∀ d ∈ declarations, ∀ n ∈ d.withNested, ∀ members,
    (Edit.insertion source w.indentWidth n members).FillsBody source w.indentWidth n members
  /-- The extensions go directly behind the closing brace at the top of the file. -/
  extensions : ∀ d ∈ declarations, ∀ texts,
    (Edit.extension d texts).StandsBehind source d texts
  /-- The declarations that edits are announced for are those annotated, at any depth, outer
  before inner. -/
  annotated : ∀ d ∈ declarations, d.annotated.map (·.2) = d.withNested.filter (·.isAnnotated)
  /-- Without one, nothing changes. -/
  unchanged : (∀ d ∈ declarations, ∀ n ∈ d.withNested, n.isAnnotated = false) → out = source

variable {source : String} {declarations : List Declaration}

/-- What is read of a source text are the declarations that its tokens spell. -/
theorem spelled_of_readSource (parsed : readSource source = .ok declarations) :
    ∃ ts ms, tokenize source = .ok ts ∧ FileSpelled ts ms ∧
      declarations = ms.filterMap Member.type? := by
  rw [readSource] at parsed
  cases tokens : tokenize source with
  | error fault => rw [tokens] at parsed; cases parsed
  | ok ts =>
    rw [tokens] at parsed
    simp only [bind, Except.bind] at parsed
    cases file : Declaration.readFile ts with
    | error fault => rw [file] at parsed; cases parsed
    | ok ds =>
      rw [file] at parsed
      cases parsed
      obtain ⟨ms, spelled, rfl⟩ := FileSpelled.readFile_iff.mp file
      exact ⟨ts, ms, rfl, spelled, rfl⟩

/-- The declarations of a source sit in it, and the edits for them follow one another. -/
theorem readSource_layout (parsed : readSource source = .ok declarations) :
    (∀ d ∈ declarations, ∀ n ∈ d.withNested, n.Sits source.toList) ∧ ∀ w,
      Edit.Within 0 (byteLength source.toList + 1)
        (declarations.flatMap (·.allEdits source.toList w)) := by
  obtain ⟨ts, ms, tokens, spelled, rfl⟩ := spelled_of_readSource parsed
  exact spelled.layout (placed_of_tokenize tokens) .start

/-- An edit for a declaration is one of three. -/
theorem Declaration.mem_announced {text : List Char} {w : Writer} {d : Declaration} {e : Edit}
    (h : e ∈ d.announced text w) :
    (∃ n ∈ d.withNested, ∃ a ∈ n.registered, e = .removal text a.span) ∨
      (∃ n ∈ d.withNested, ∃ members, e = .insertion text w.indentWidth n members) ∨
      ∃ texts, e = .extension d texts := by
  rw [announced] at h
  rcases List.mem_append.mp h with inner | behind
  · obtain ⟨⟨name, n⟩, mem, own⟩ := List.mem_flatMap.mp inner
    dsimp only at own
    rw [announcedFor] at own
    rcases List.mem_append.mp own with taken | filled
    · obtain ⟨a, registered, rfl⟩ := List.mem_map.mp taken
      exact .inl ⟨n, mem_withNested_of_annotated mem, a, registered, rfl⟩
    · split at filled
      · exact .inr (.inl ⟨n, mem_withNested_of_annotated mem, _, List.mem_singleton.mp filled⟩)
      · cases filled
  · split at behind
    · exact .inr (.inr ⟨_, List.mem_singleton.mp behind⟩)
    · cases behind

/-- Whatever is announced, and nothing else, is changed. -/
theorem expandSource_announced (parsed : readSource source = .ok declarations)
    (indentWidth : Nat) :
    ∃ out, expandSource source indentWidth = .ok out ∧
      Announced source.toList (.new indentWidth) declarations out.source.toList := by
  obtain ⟨sits, within⟩ := readSource_layout parsed
  have within := within (.new indentWidth)
  have sitting {n : Declaration} (h : n.Sits source.toList) {a : Attribute}
      (mem : a ∈ n.registered) : a.Sits source.toList :=
    h.attributes a (List.mem_filter.mp mem).1
  have bounds : ∀ e ∈ declarations.flatMap (·.announced source.toList (.new indentWidth)),
      ∃ front cut back, e.Replaces source.toList front cut back := by
    intro e mem
    obtain ⟨d, here, mem⟩ := List.mem_flatMap.mp mem
    rcases Declaration.mem_announced mem with ⟨n, nested, a, registered, rfl⟩ |
      ⟨n, nested, members, rfl⟩ | ⟨texts, rfl⟩
    · obtain ⟨-, front, body, space, back, replaces, -⟩ :=
        Edit.takesOut_removal (sitting (sits d here n nested) registered)
      exact ⟨_, _, _, replaces⟩
    · obtain ⟨front, space, back, replaces, -⟩ :=
        Edit.fillsBody_insertion (sits d here n nested) _ members
      exact ⟨_, _, _, replaces⟩
    · obtain ⟨front, back, replaces, -⟩ :=
        Edit.standsBehind_extension (sits d here d d.mem_withNested_self) texts
      exact ⟨_, _, _, replaces⟩
  have same : (declarations.flatMap (·.announced source.toList (.new indentWidth))).Perm
      (declarations.flatMap (·.allEdits source.toList (.new indentWidth))) :=
    List.Perm.flatMap_left _ fun _ _ => Declaration.perm_allEdits
  have sorted := Edit.sorted_eq same within.ordered within.forward
  refine ⟨_, by rw [expandSource, parsed]; rfl, bounds, ?_, ?_, ?_, ?_, ?_, ?_, ?_⟩
  · rw [sorted]
    exact within.ordered
  · rw [sorted, String.toList_ofList]
    exact Edit.made_applyAll within.ordered fun e mem => bounds e (same.symm.subset mem)
  · exact fun d here n nested a mem =>
      Edit.takesOut_removal (sitting (sits d here n nested) mem)
  · exact fun d here n nested => Edit.fillsBody_insertion (sits d here n nested) _
  · exact fun d here => Edit.standsBehind_extension (sits d here d d.mem_withNested_self)
  · exact fun d _ => d.annotated_snd
  · intro none
    rw [String.toList_ofList]
    have nothing : declarations.flatMap (·.announced source.toList (.new indentWidth)) = [] := by
      refine List.flatMap_eq_nil_iff.mpr fun d here => ?_
      have noEntry : d.annotated = [] := by
        refine List.map_eq_nil_iff.mp (d.annotated_snd.trans ?_)
        exact List.filter_eq_nil_iff.mpr fun n mem => by simp [none d here n mem]
      rw [Declaration.announced, noEntry]
      rfl
    rw [nothing] at same
    rw [same.nil_eq.symm]
    rfl

theorem expandSource_announced_nested :
    ∃ declarations,
      readSource "struct S \x7b @Codable class A \x7b let x: Int \x7d \x7d" = .ok declarations ∧
        ∃ out, expandSource "struct S \x7b @Codable class A \x7b let x: Int \x7d \x7d" 2 = .ok out ∧
          Announced "struct S \x7b @Codable class A \x7b let x: Int \x7d \x7d".toList (.new 2)
            declarations out.source.toList := by
  have isOk :
      (readSource "struct S \x7b @Codable class A \x7b let x: Int \x7d \x7d").isOk = true := by
    decide +kernel
  cases parsed : readSource "struct S \x7b @Codable class A \x7b let x: Int \x7d \x7d" with
  | error fault => rw [parsed] at isOk; cases isOk
  | ok declarations => exact ⟨declarations, rfl, expandSource_announced parsed 2⟩

end CodableSynthesis
