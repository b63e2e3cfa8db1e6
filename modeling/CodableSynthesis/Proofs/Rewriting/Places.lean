import CodableSynthesis.Proofs.Edits.Frame
import CodableSynthesis.Proofs.Lexing.Junctions
import CodableSynthesis.Proofs.Rewriting.Walk

/-!
Where changes are made. Each change is tied to an attribute or to a closing brace, and leaves every
token outside of it as it is; so the changes along some tokens only concern those.

* `Change.Spares`: a change leaves a token as it is.
* `Change.spares_of_outside`, `Walk.beyond`: the changes behind a token do not concern it.
* `Stands`: tokens in a text, with the white space in front of the first left open.
* `Change.Sits`: what an edit that makes a change does to the text.

In `Change.applyAll` every change is applied to every token, which is what makes it easy to state. A
proof along the tokens needs to know that the changes made so far do not matter further on, and that
those to come do not matter yet.

Taking an attribute out also takes white space, which is no longer the gap that `Placed` says is
there. `Stands` is `Placed` without that one gap.
-/

namespace CodableSynthesis

open Text (Position byteLength byteLength_append isWhiteSpace)
open Trivia (Whole)
open Lexeme (EndsPlain)

namespace Change

/-- Where the attribute or the closing brace begins that a change is tied to. -/
def first : Change → Nat
  | drop a => a.first.start
  | fill d _ | follow d _ => d.closer.start

/-- Where it ends. -/
def last : Change → Nat
  | drop a => a.last.stop
  | fill d _ | follow d _ => d.closer.stop

/-- The change leaves a token as it is. -/
structure Spares (c : Change) (t : Token) : Prop where
  /-- It is not dropped. -/
  drops : c.drops t = false
  /-- Nothing is put in front of it. -/
  before : c.before t = []
  /-- Nothing is put behind it. -/
  behind : c.behind t = []

variable {source : List Char} {c : Change} {cs more : List Change} {t : Token} {ts : List Token}

/-- A change spares all tokens outside of what it is tied to. -/
theorem spares_of_outside (h : t.span.start < c.first ∨ c.last < t.span.stop) : c.Spares t := by
  cases c with
  | drop a =>
    refine ⟨?_, rfl, rfl⟩
    simp only [Change.drops, Bool.and_eq_false_iff, decide_eq_false_iff_not, Nat.not_le]
    exact h
  | fill d | follow d =>
    have other : d.closer ≠ t.span := by
      rintro same
      rw [first, last, same] at h
      omega
    exact ⟨rfl, by simp [Change.before, other], by simp [Change.behind, other]⟩

/-- Changes that leave a token as it is do not matter for it. -/
theorem apply_append (h : ∀ c ∈ cs, c.Spares t) : apply (cs ++ more) t = apply more t := by
  have before : cs.flatMap (Change.before t) = [] :=
    List.flatMap_eq_nil_iff.mpr fun c mem => (h c mem).before
  have behind : cs.flatMap (Change.behind t) = [] :=
    List.flatMap_eq_nil_iff.mpr fun c mem => (h c mem).behind
  have kept : cs.any (drops t) = false :=
    List.any_eq_false.mpr fun c mem => by simp [(h c mem).drops]
  simp only [apply, List.flatMap_append, List.any_append, before, behind, kept, List.nil_append,
    Bool.false_or]

/-- Changes that leave some tokens as they are do not matter for them. -/
theorem applyAll_append (h : ∀ t ∈ ts, ∀ c ∈ cs, c.Spares t) :
    applyAll (cs ++ more) ts = applyAll more ts :=
  List.flatMap_congr fun t mem => apply_append (h t mem)

theorem keptName_append (h : ∀ c ∈ cs, c.Spares t) :
    KeptName (cs ++ more) t ↔ KeptName more t := by
  have kept : cs.any (drops t) = false :=
    List.any_eq_false.mpr fun c mem => by simp [(h c mem).drops]
  rw [KeptName, KeptName, List.any_append, kept, Bool.false_or]

end Change

/-! ### Tokens in order -/

variable {source before : List Char} {p : Position} {ready : Bool} {t : Token} {ts : List Token}
  {cs : List Change} {text : List Char}

/-- Tokens stand behind the position that their text begins at, and are not empty. -/
theorem Placed.bounds (h : Placed p ts text) :
    ∀ t ∈ ts, p.offset ≤ t.span.start ∧ t.span.start < t.span.stop := by
  intro t mem
  obtain ⟨front, rest, rfl⟩ := List.mem_iff_append.mp mem
  obtain ⟨seen, left, rfl, placed⟩ := h.split
  have own := @Placed.head_start _ _ _ [] _ _ _ placed rfl
  rw [Position.offset_advance] at own
  exact ⟨Nat.le_trans (Nat.le_add_right _ _) own.1, own.2⟩

theorem Placed.ordered (h : Placed p ts text) :
    ts.Pairwise fun t u => t.span.stop ≤ u.span.start := by
  induction h with
  | done => exact .nil
  | token _ _ _ span later ih =>
    refine List.pairwise_cons.mpr ⟨fun u mem => ?_, ih⟩
    rw [span]
    exact (later.bounds u mem).1

/-- The changes of a walk are tied to places behind the position of its tokens. -/
theorem Walk.beyond (h : Walk ready ts cs) (placed : Placed p ts text) :
    ∀ c ∈ cs, p.offset ≤ c.first := by
  induction h generalizing p text with
  | done => nofun
  | @keep _ _ t ts fills follows cs fill follow _ _ ih =>
    have own := (placed.bounds t (.head _)).1
    obtain ⟨seen, left, rfl, later⟩ := Placed.split (show Placed p ([t] ++ ts) text from placed)
    have later := ih later
    rw [Position.offset_advance] at later
    refine List.forall_mem_append.mpr ⟨?_, List.forall_mem_append.mpr ⟨?_, ?_⟩⟩
    · cases fill with
      | nothing => nofun
      | fill _ same => exact List.forall_mem_singleton.mpr (by rw [Change.first, same]; exact own)
    · cases follow with
      | nothing => nofun
      | follow _ same => exact List.forall_mem_singleton.mpr (by rw [Change.first, same]; exact own)
    · exact fun c mem => Nat.le_trans (Nat.le_add_right _ _) (later c mem)
  | @drop a sign last inner ts cs _ first _ _ _ ih =>
    have own := (placed.bounds sign (.head _)).1
    obtain ⟨seen, left, rfl, later, -⟩ := @Placed.split_last (sign :: inner) _ _ _ _ placed
    have later := ih later
    rw [Position.offset_advance] at later
    refine List.forall_mem_cons.mpr ⟨by rw [Change.first, first]; exact own, ?_⟩
    exact fun c mem => Nat.le_trans (Nat.le_add_right _ _) (later c mem)

/-! ### White space in front of a token

The same facts as for tokens that are placed, for those of which the first gap is open. -/

/-- Like `Placed`, whatever the flags of the first token are. -/
inductive Stands : Position → List Token → List Char → Prop
  /-- What is left is a gap. -/
  | done {p : Position} {tail : List Char} : Trailing tail → Stands p [] tail
  /-- Behind a gap stands the first token, and behind that the others are placed. -/
  | token {p : Position} {gap : List Char} {crossed : Bool} {t : Token} {ts : List Token}
      {rest : List Char} :
      Whole gap crossed → t.Sound rest →
      t.span = .between (p.advance gap) (p.advance (gap ++ t.chars)) →
      Placed (p.advance (gap ++ t.chars)) ts rest → Stands p (t :: ts) (gap ++ (t.chars ++ rest))

theorem Placed.stands {p : Position} {ts : List Token} {text : List Char} (h : Placed p ts text) :
    Stands p ts text := by
  cases h with
  | done trailing => exact .done trailing
  | token whole _ sound span later => exact .token whole sound span later

namespace Trivia

/-- White space may be taken from the front of a gap. -/
theorem Whole.of_spaces {space gap : List Char} {crossed : Bool} (h : Whole (space ++ gap) crossed)
    (white : ∀ c ∈ space, isWhiteSpace c = true) : ∃ crossed', Whole gap crossed' := by
  induction space generalizing crossed with
  | nil => exact ⟨crossed, h⟩
  | cons c space ih =>
    have isSpace := white c (.head _)
    rw [List.cons_append] at h
    generalize space ++ gap = behind at h ih
    cases h with
    | space _ later => exact ih later fun d mem => white d (.tail _ mem)
    | line | block => cases isSpace

end Trivia

namespace Stands

variable {p : Position} {t : Token} {ts : List Token} {space text : List Char}

/-- White space in front of the first token may be left out. -/
theorem strip (h : Stands p (t :: ts) (space ++ text))
    (white : ∀ c ∈ space, isWhiteSpace c = true) : Stands (p.advance space) (t :: ts) text := by
  generalize made : space ++ text = cs at h
  cases h with
  | @token gap _ _ _ rest whole sound span later =>
    rcases List.append_eq_append_iff.mp made with ⟨more, rfl, rfl⟩ | ⟨more, rfl, same⟩
    · obtain ⟨_, whole⟩ := whole.of_spaces white
      exact .token whole sound (by simpa using span) (by simpa using later)
    · -- the first token does not begin with white space
      obtain ⟨c, chars, spelled, plain, -⟩ := sound.spelled.head
      cases more with
      | nil =>
        obtain rfl : t.chars ++ rest = text := same
        exact @token _ [] false t ts rest .nil sound (by simpa using span) (by simpa using later)
      | cons d more =>
        rw [spelled, List.cons_append, List.cons_append, List.cons.injEq] at same
        obtain ⟨rfl, -⟩ := same
        rw [white c (by simp)] at plain
        cases plain

theorem bounds (h : Stands p ts text) :
    ∀ t ∈ ts, p.offset ≤ t.span.start ∧ t.span.start < t.span.stop := by
  cases h with
  | done => nofun
  | @token gap _ t ts rest whole sound span later =>
    obtain ⟨c, chars, spelled, -⟩ := sound.spelled.head
    have proper := Text.byteLength_pos (show t.chars ≠ [] by simp [spelled])
    refine List.forall_mem_cons.mpr ⟨?_, fun u mem => ?_⟩
    · rw [span]
      simp only [Text.Span.between, Position.offset_advance, byteLength_append]
      omega
    · have := later.bounds u mem
      rw [Position.offset_advance] at this
      exact ⟨Nat.le_trans (Nat.le_add_right _ _) this.1, this.2⟩

theorem ordered (h : Stands p ts text) : ts.Pairwise fun t u => t.span.stop ≤ u.span.start := by
  cases h with
  | done => exact .nil
  | token _ _ span later =>
    refine List.pairwise_cons.mpr ⟨fun u mem => ?_, later.ordered⟩
    rw [span]
    exact (later.bounds u mem).1

/-- The tokens from one token to another lie between them. -/
theorem between {first last : Token} {inner : List Token}
    (h : Stands p (first :: (inner ++ last :: ts)) text) :
    ∀ u ∈ first :: (inner ++ [last]), first.span.start ≤ u.span.start ∧
      u.span.stop ≤ last.span.stop := by
  have bounds := h.bounds
  obtain ⟨begins, later⟩ := List.pairwise_cons.mp h.ordered
  obtain ⟨-, -, ends⟩ := List.pairwise_append.mp later
  have proper := bounds first (.head _)
  have properLast := bounds last (by simp)
  have beginsLast := begins last (by simp)
  intro u mem
  simp only [List.mem_cons, List.mem_append, List.not_mem_nil, or_false] at mem
  rcases mem with rfl | inside | rfl
  · omega
  · have := begins u (by simp [inside])
    have := ends u inside last (.head _)
    omega
  · omega

end Stands

/-! ### Edits -/

/-- What the edit that makes a change does to the text: it takes an attribute out, fills a body, or
stands behind a declaration. -/
def Change.Sits (source : List Char) (indentWidth : Nat) : Change → Prop
  | drop a => (Edit.removal source a.span).TakesOut source a
  | fill d members =>
    (Edit.insertion source indentWidth d members).FillsBody source indentWidth d members
  | follow d extensions => (Edit.extension d extensions).StandsBehind source d extensions

/-- White space that is taken out in front of a brace stands behind the token in front of it. -/
theorem front_of_plain {before rest front space back : List Char}
    (same : before ++ rest = front ++ (space ++ back)) (plain : EndsPlain before)
    (white : ∀ c ∈ space, isWhiteSpace c = true)
    (le : byteLength before ≤ byteLength (front ++ space)) :
    byteLength before ≤ byteLength front := by
  rcases Nat.le_total (byteLength before) (byteLength front) with below | above
  · exact below
  · obtain ⟨kept, rfl, made⟩ := Text.front_of_byteLength_le same.symm above
    rcases List.eq_nil_or_concat kept with rfl | ⟨inner, e, rfl⟩
    · simp
    · -- the last character of `before` would be white space
      rw [byteLength_append, byteLength_append] at le
      obtain ⟨more, rfl, -⟩ := Text.front_of_byteLength_le made.symm (by omega)
      obtain ⟨d, last, noSpace⟩ := plain
      rw [List.concat_eq_append, ← List.append_assoc, List.getLast?_concat] at last
      cases last
      rw [white e (by simp)] at noSpace
      cases noSpace

/-- The edit of a change begins no further in front than the change is tied to. -/
theorem Change.Sits.start {c : Change} {indentWidth : Nat} {rest : List Char}
    (h : c.Sits source indentWidth) (made : source = before ++ rest) (plain : EndsPlain before)
    (le : byteLength before ≤ c.first) : byteLength before ≤ (c.edit source indentWidth).start := by
  cases c with
  | drop a =>
    exact le
  | fill d members =>
    obtain ⟨front, space, back, replaces, start, white, -⟩ := h
    rw [edit, replaces.start]
    rw [first, start] at le
    exact front_of_plain (made.symm.trans replaces.made) plain white le
  | follow d extensions =>
    obtain ⟨front, back, replaces, start, -⟩ := h
    rw [edit, replaces.start]
    rw [first, start] at le
    rw [byteLength_append]
    omega

end CodableSynthesis
