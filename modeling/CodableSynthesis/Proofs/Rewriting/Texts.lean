import CodableSynthesis.Proofs.Edits.Frame
import CodableSynthesis.Proofs.Printing.Members
import CodableSynthesis.Proofs.Rewriting.Changes

/-!
The tokens of what is put into a source text. Generated declarations have the tokens they have on
their own, also where they stand one behind another, with margins and blank lines between them.

* `Generated`: the text of a generated declaration that is made of blanks, names and marks.
* `Generated.memberText`, `Generated.extensionText`: the texts that edits put in.
* `FileSpelled.generated`: the changes for a file put in generated declarations only.

Everything that is put in begins with a line feed, so that nothing in front of it goes on with it.
Nothing is asked of the text behind, except that it can be cut: a generated declaration ends with a
brace.
-/

namespace CodableSynthesis

open Text (isWhiteSpace)

/-- The text of a generated declaration that is made of blanks, names and marks. -/
def Generated (w : Writer) (text : String) : Prop :=
  ∃ a : Artifact, a.IsPrinted ∧ text = w.render a

theorem lexes_nil : Lexes [] [] :=
  .done ⟨_, [], [], rfl, .nil, .none, .inl rfl⟩

theorem words_of_lexes {text : String} {ws : List Word} (h : Lexes text.toList ws) :
    words text = ws := by
  obtain ⟨ts, tokens, rfl⟩ := Lexes.tokenize_iff.mpr h
  rw [words, tokens]

namespace Generated

variable {w : Writer} {text : String} {texts : List String} {rest : List Char} {more : List Word}

/-- A generated declaration has its tokens in front of any text, with or without a margin. -/
theorem lexes (h : Generated w text) (later : Lexes rest more) :
    Lexes (text.toList ++ rest) (words text ++ more) ∧
      ∀ {margin : List Char}, (∀ c ∈ margin, isWhiteSpace c = true) →
        Lexes (Text.indentLines margin text.toList ++ rest) (words text ++ more) := by
  obtain ⟨a, printed, rfl⟩ := h
  obtain ⟨ws, lexes⟩ := printed.lexes w
  have alone := (lexes lexes_nil).1
  simp only [List.append_nil] at alone
  rw [words_of_lexes alone]
  exact lexes later

theorem tokenize (h : Generated w text) :
    ∃ ts, CodableSynthesis.tokenize text = .ok ts ∧ ts.map Token.word = words text := by
  have alone := (h.lexes lexes_nil).1
  simp only [List.append_nil] at alone
  exact Lexes.tokenize_iff.mpr alone

theorem lineFeeds (later : Lexes rest more) : Lexes ('\n' :: '\n' :: rest) more :=
  (later.space Trivia.isWhiteSpace_lineFeed).space Trivia.isWhiteSpace_lineFeed

/-- Generated declarations with blank lines between them. -/
theorem separated {margin : List Char} (h : ∀ text ∈ texts, Generated w text)
    (white : ∀ c ∈ margin, isWhiteSpace c = true) (later : Lexes rest more) :
    Lexes (['\n', '\n'].intercalate (texts.map fun m => Text.indentLines margin m.toList) ++ rest)
      (texts.flatMap words ++ more) := by
  induction texts with
  | nil => exact later
  | cons text texts ih =>
    obtain ⟨here, others⟩ := List.forall_mem_cons.mp h
    have behind := ih others
    rw [List.flatMap_cons, List.append_assoc]
    cases texts with
    | nil => simpa [List.intercalate] using (here.lexes behind).2 white
    | cons next texts =>
      have := (here.lexes (lineFeeds behind)).2 white
      simpa [List.intercalate] using this

/-- The text that members are put into a body as. -/
theorem memberText {margin : List Char} (h : ∀ text ∈ texts, Generated w text)
    (white : ∀ c ∈ margin, isWhiteSpace c = true) (indentWidth : Nat) (bodyIsEmpty : Bool) :
    ∃ put, Edit.memberText margin indentWidth bodyIsEmpty texts = '\n' :: put ∧
      ∀ {rest : List Char} {more : List Word}, Lexes rest more →
        Lexes (put ++ rest) (texts.flatMap words ++ more) := by
  have inner : ∀ c ∈ margin ++ List.replicate indentWidth ' ', isWhiteSpace c = true := by
    refine List.forall_mem_append.mpr ⟨white, fun c mem => ?_⟩
    obtain rfl := List.eq_of_mem_replicate mem
    decide
  have body {rest : List Char} {more : List Word} (later : Lexes rest more) :=
    separated h inner ((later.spaces white).space Trivia.isWhiteSpace_lineFeed)
  rw [Edit.memberText]
  cases bodyIsEmpty with
  | true => exact ⟨_, rfl, fun later => by simpa using body later⟩
  | false =>
    exact ⟨_, rfl, fun later => by simpa using (body later).space Trivia.isWhiteSpace_lineFeed⟩

/-- The text that extensions are put behind a declaration as. -/
theorem extensionText (h : ∀ text ∈ texts, Generated w text) (later : Lexes rest more) :
    Lexes (texts.flatMap (fun e => '\n' :: '\n' :: e.toList) ++ rest)
      (texts.flatMap words ++ more) := by
  induction texts with
  | nil => exact later
  | cons text texts ih =>
    obtain ⟨here, others⟩ := List.forall_mem_cons.mp h
    rw [List.flatMap_cons, List.flatMap_cons, List.append_assoc, List.append_assoc]
    exact lineFeeds (here.lexes (ih others)).1

end Generated

namespace Change

/-- The texts that a change puts in. -/
def texts : Change → List String
  | drop _ => []
  | fill _ members => members
  | follow _ extensions => extensions

end Change

namespace Declaration

variable {w : Writer} {name : String}

theorem generated_ownFill {d : Declaration} (h : d.Printed)
    (named : CodableSynthesis.Printed name) :
    ∀ c ∈ d.ownFill w name, ∀ text ∈ c.texts, Generated w text := by
  rw [ownFill]
  split
  · exact List.forall_mem_singleton.mpr (h.generatedMembers named w)
  · exact List.forall_mem_nil _

mutual

theorem generated_changes {name : String} : ∀ d : Declaration,
    (∀ n ∈ d.withNested, n.Printed) → CodableSynthesis.Printed name →
      ∀ c ∈ d.changes w name, ∀ text ∈ c.texts, Generated w text
  | ⟨heading, members, opener, closer⟩, printed, named => by
    rw [withNested] at printed
    obtain ⟨here, nested⟩ := List.forall_mem_cons.mp printed
    rw [changes]
    refine List.forall_mem_append.mpr ⟨?_, List.forall_mem_append.mpr
      ⟨generated_changesIn members nested named, generated_ownFill here named⟩⟩
    intro c mem
    obtain ⟨a, -, rfl⟩ := List.mem_map.mp mem
    nofun

theorem generated_changesIn {name : String} : ∀ ms : List Member,
    (∀ n ∈ nestedIn ms, n.Printed) → CodableSynthesis.Printed name →
      ∀ c ∈ changesIn w name ms, ∀ text ∈ c.texts, Generated w text
  | [], _, _ => nofun
  | .type d :: ms, printed, named => by
    rw [nestedIn] at printed
    obtain ⟨here, later⟩ := List.forall_mem_append.mp printed
    rw [changesIn]
    have own : d.Printed := here d d.mem_withNested_self
    exact List.forall_mem_append.mpr ⟨generated_changes d here (named.join .dot own.name),
      generated_changesIn ms later named⟩
  | .variable _ :: ms, printed, named | .other .. :: ms, printed, named => by
    rw [changesIn]
    exact generated_changesIn ms printed named

end

/-- The changes for a declaration at the top of a file put in generated declarations. -/
theorem generated_allChanges {d : Declaration} (printed : ∀ n ∈ d.withNested, n.Printed) :
    ∀ c ∈ d.allChanges w, ∀ text ∈ c.texts, Generated w text := by
  have own : d.Printed := printed d d.mem_withNested_self
  rw [allChanges]
  refine List.forall_mem_append.mpr ⟨generated_changes d printed own.name, ?_⟩
  rw [ownFollow]
  split
  · refine List.forall_mem_singleton.mpr fun text mem => ?_
    obtain ⟨⟨name, n⟩, entry, mem⟩ := List.mem_flatMap.mp mem
    obtain ⟨named, printed⟩ := annotated_printed printed _ entry
    exact printed.generatedExtensions named w text mem
  · exact List.forall_mem_nil _

end Declaration

/-- The changes for a file put in generated declarations. -/
theorem FileSpelled.generated {ts : List Token} {ms : List Member} (h : FileSpelled ts ms)
    (spelt : Spelt ts) (w : Writer) :
    ∀ c ∈ (ms.filterMap Member.type?).flatMap (·.allChanges w), ∀ text ∈ c.texts,
      Generated w text := by
  intro c mem
  obtain ⟨d, here, mem⟩ := List.mem_flatMap.mp mem
  exact Declaration.generated_allChanges (h.printed spelt d here) c mem

end CodableSynthesis
