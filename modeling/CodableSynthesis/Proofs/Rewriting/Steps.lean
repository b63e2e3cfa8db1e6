import CodableSynthesis.Proofs.Rewriting.Places
import CodableSynthesis.Proofs.Rewriting.Texts

/-!
One step along the tokens of a source text: what the edits around one token make of its text, and
what they make of the text of an attribute.

* `Filled`: what is made of the gap in front of a token.
* `Fills.filled`, `Follows.followed`: what is put in front of a token and behind it.
* `Filled.lexes`, `Follows.lexes`: the tokens of that.
* `Token.EndsMember.stops`: the tokens that attributes may stand behind end where they end.

The first half is about characters: which part of the gap is replaced, and by what. The second is
about tokens: what was put there is cut into the tokens that were announced, and neither the token
in front nor the one behind goes on with it.
-/

namespace CodableSynthesis

open Text (Position byteLength byteLength_append isWhiteSpace)
open Trivia (Whole)
open Lexeme (Spelling Stops EndsPlain startsName continuesName)

/-! ### Tokens that attributes may stand behind

Where an attribute is taken out, the token in front of it meets what stands behind. Of the tokens
that may end a member, only a name without backticks could go on with that. -/

namespace Token

variable {t : Token}

/-- A token that ends a member begins with neither a dot nor a number sign. -/
theorem EndsMember.head (h : t.EndsMember) (spelled : Spelling t.kind t.chars) :
    ∃ c more, t.chars = c :: more ∧ c ≠ '.' ∧ c ≠ '#' := by
  have marked {c : Char} (mark : Lexeme.mark? t.kind = some c) (plain : c ≠ '.' ∧ c ≠ '#') :
      ∃ c more, t.chars = c :: more ∧ c ≠ '.' ∧ c ≠ '#' :=
    ⟨c, [], spelled.eq_mark mark, plain⟩
  rcases h with ident | ⟨b, closing⟩ | question | bang | greater | semicolon | opening
  · rw [ident] at spelled
    generalize t.chars = chars at spelled ⊢
    cases spelled with
    | punctuation is => cases Lexeme.mark?_of_punctuation? is
    | quoted => exact ⟨_, _, rfl, by decide⟩
    | name starts =>
      refine ⟨_, _, rfl, ?_⟩
      constructor <;> (rintro rfl; exact absurd starts (by decide))
  · cases b
    all_goals exact marked (by rw [closing]; rfl) (by decide)
  · exact marked (by rw [question]; rfl) (by decide)
  · exact marked (by rw [bang]; rfl) (by decide)
  · exact marked (by rw [greater]; rfl) (by decide)
  · exact marked (by rw [semicolon]; rfl) (by decide)
  · exact marked (by rw [opening]; rfl) (by decide)

/-- Of these tokens, only a name may be gone on with. -/
theorem EndsMember.stops (h : t.EndsMember) {rest : List Char}
    (ident : t.kind = .ident → t.chars.head? ≠ some '`' → EndsName rest) :
    Stops t.chars rest t.kind := by
  rcases h with name | ⟨b, closing⟩ | question | bang | greater | semicolon | opening
  · rw [name]
    exact ident name
  · rw [closing]; trivial
  · rw [question]; trivial
  · rw [bang]; trivial
  · rw [greater]; trivial
  · rw [semicolon]; trivial
  · rw [opening]; trivial

end Token

/-! ### What is put next to a token -/

section Step

variable {source before gap rest new : List Char} {w : Writer} {p : Position} {t : Token}
  {fills follows cs : List Change}

/-- What is made of the gap in front of a token. -/
inductive Filled (w : Writer) (t : Token) (gap : List Char) : List Change → List Char → Prop
  /-- It is left as it is. -/
  | nothing : Filled w t gap [] gap
  /-- In front of a closing brace, the white space at its end gives way to members. Comments in
  front of that are kept. -/
  | fill {d : Declaration} {members : List String} {kept space margin : List Char}
      {bodyIsEmpty : Bool} :
      t.kind = .closing .brace → d.closer = t.span → gap = kept ++ space →
      (∀ c ∈ space, isWhiteSpace c = true) → (∀ c ∈ margin, isWhiteSpace c = true) →
      Filled w t gap [.fill d members]
        (kept ++ Edit.memberText margin w.indentWidth bodyIsEmpty members)

/-- What an insertion makes of the gap in front of a closing brace: the white space at its end gives
way to the members. -/
theorem Fills.filled (h : Fills t fills) (stands : source = before ++ (gap ++ (t.chars ++ rest)))
    (spelled : Spelling t.kind t.chars) (start : t.span.start = byteLength (before ++ gap))
    (sits : ∀ c ∈ fills, c.Sits source w.indentWidth)
    (here : ∀ c ∈ fills, byteLength before ≤ (c.edit source w.indentWidth).start)
    (later : ∀ c ∈ cs, byteLength (before ++ (gap ++ t.chars)) ≤
      (c.edit source w.indentWidth).start)
    (made : Edit.Made (byteLength before) ((fills ++ cs).map (Change.edit source w.indentWidth))
      (gap ++ (t.chars ++ rest)) new) :
    ∃ front left, new = front ++ (t.chars ++ left) ∧ Filled w t gap fills front ∧
      Edit.Made (byteLength (before ++ (gap ++ t.chars)))
        (cs.map (Change.edit source w.indentWidth)) rest left := by
  have starts {e : Edit} (mem : e ∈ cs.map (Change.edit source w.indentWidth)) :
      byteLength (before ++ (gap ++ t.chars)) ≤ e.start := by
    obtain ⟨c, inside, rfl⟩ := List.mem_map.mp mem
    exact later c inside
  cases h with
  | nothing =>
    rw [← List.append_assoc] at made
    obtain ⟨left, rfl, kept⟩ := made.keep fun e mem => by
      rw [← byteLength_append]
      exact starts mem
    rw [← byteLength_append] at kept
    exact ⟨gap, left, by simp, .nothing, kept⟩
  | @fill d members closes same =>
    have brace : t.chars = ['\x7d'] := spelled.eq_mark (by rw [closes]; rfl)
    obtain ⟨front, space, back, replaces, closer, white, -⟩ :=
      List.forall_mem_singleton.mp sits
    rw [same, start] at closer
    -- the white space lies in the gap
    have inside : byteLength before ≤ byteLength front := by
      rw [← replaces.start]
      exact here _ (.head _)
    have twice := stands.symm.trans replaces.made
    obtain ⟨kept, rfl, split⟩ := Text.front_of_byteLength_le twice inside
    -- Both cuts of the source are at the closing brace.
    obtain ⟨cut, -⟩ : kept ++ space = gap ∧ '\x7d' :: back = t.chars ++ rest := by
      refine Text.append_inj_of_byteLength (by simpa using split.symm) ?_
      simp only [byteLength_append] at closer ⊢
      omega
    subst cut
    rw [List.append_assoc] at made
    obtain ⟨middle, rfl, filled⟩ := made.first
      (by rw [Change.edit, replaces.start, byteLength_append])
      (by rw [Change.edit, replaces.stop, replaces.start, byteLength_append (before ++ kept)])
    have stop : (Change.edit source w.indentWidth (.fill d members)).stop =
        byteLength (before ++ (kept ++ space)) := by
      rw [Change.edit, replaces.stop, List.append_assoc]
    rw [stop] at filled
    obtain ⟨left, rfl, closed⟩ := filled.keep fun e mem => by
      rw [← byteLength_append, List.append_assoc]
      exact starts mem
    rw [← byteLength_append, List.append_assoc before] at closed
    have margin : ∀ c ∈ Text.indentation
        (Text.lastLine (Text.takeBytes d.heading.keyword.start source)), isWhiteSpace c = true := by
      intro c mem
      have := List.mem_takeWhile_imp mem
      simp only [Bool.or_eq_true, beq_iff_eq] at this
      rcases this with rfl | rfl <;> decide
    rw [Change.edit, Edit.insertion]
    exact ⟨_, left, (List.append_assoc _ _ _).symm, .fill closes same rfl white margin, closed⟩

/-- The tokens of what is made of the gap, and how it begins. -/
theorem Filled.lexes {crossed : Bool} {front : List Char} (h : Filled w t gap fills front)
    (whole : Whole gap crossed) (generated : ∀ c ∈ fills, ∀ text ∈ c.texts, Generated w text)
    (rest left : List Char) :
    (∀ {ws : List Word}, Lexes (t.chars ++ left) ws →
        Lexes (front ++ (t.chars ++ left)) (fills.flatMap (Change.before t) ++ ws)) ∧
      (fills = [] ∧ front = gap ∨
        t.kind = .closing .brace ∧
          Like (gap ++ (t.chars ++ rest)) (front ++ (t.chars ++ left)) ∧
          ¬ StartsName (front ++ (t.chars ++ left))) := by
  cases h with
  | nothing => exact ⟨fun lexes => .gap whole lexes, .inl ⟨rfl, rfl⟩⟩
  | @fill d members kept space margin bodyIsEmpty closes same made white spaces =>
    subst made
    have texts : ∀ text ∈ members, Generated w text := List.forall_mem_singleton.mp generated
    obtain ⟨put, text, lexes⟩ := Generated.memberText texts spaces w.indentWidth bodyIsEmpty
    obtain ⟨_, trimmed⟩ := whole.trim rfl white
    rw [text]
    refine ⟨fun later => ?_, .inr ⟨closes, ?_, ?_⟩⟩
    · have := Lexes.gap trimmed (lexes later)
      simpa [Change.before, same] using this
    · cases kept with
      | nil => exact .space Trivia.isWhiteSpace_lineFeed
      | cons c kept =>
        obtain ⟨d, more, made, head⟩ := whole.head (List.cons_ne_nil _ _)
        cases made
        refine .same ?_ ?_
        all_goals
          rintro rfl
          rcases head with white | slash
          · cases white
          · cases slash
    · have := trimmed.not_startsName (by simp) (put ++ (t.chars ++ left))
      simpa using this

/-- What extension edits put behind a closing brace: each extension behind a blank line. -/
def Change.put (follows : List Change) : List Char :=
  (follows.flatMap Change.texts).flatMap fun e => '\n' :: '\n' :: e.toList

/-- What an extension edit makes of the text behind a closing brace. -/
theorem Follows.followed {offset : Nat} (h : Follows t follows) (stop : t.span.stop = offset)
    (made : Edit.Made offset ((follows ++ cs).map (Change.edit source w.indentWidth)) rest new) :
    ∃ left, new = Change.put follows ++ left ∧
      Edit.Made offset (cs.map (Change.edit source w.indentWidth)) rest left := by
  cases h with
  | nothing => exact ⟨new, rfl, made⟩
  | @follow d extensions closes same =>
    have place : d.stop = offset := by rw [Declaration.stop, same, stop]
    obtain ⟨left, rfl, put⟩ := @Edit.Made.first offset _ [] rest new _ [] made place rfl
    rw [show (Change.edit source w.indentWidth (.follow d extensions)).stop = offset from place]
      at put
    exact ⟨left, by simp [Change.put, Change.edit, Edit.extension, Change.texts], put⟩

/-- The tokens of what is put behind a closing brace. -/
theorem Follows.lexes {left : List Char} {ws : List Word} (h : Follows t follows)
    (generated : ∀ c ∈ follows, ∀ text ∈ c.texts, Generated w text) (later : Lexes left ws) :
    Lexes (Change.put follows ++ left) (follows.flatMap (Change.behind t) ++ ws) := by
  cases h with
  | nothing => exact later
  | @follow d extensions closes same =>
    have texts : ∀ text ∈ extensions, Generated w text := List.forall_mem_singleton.mp generated
    have := Generated.extensionText texts later
    simpa [Change.put, Change.texts, Change.behind, same] using this

theorem Follows.closes (h : Follows t follows) : follows = [] ∨ t.kind = .closing .brace := by
  cases h with
  | nothing => exact .inl rfl
  | follow closes => exact .inr closes

end Step

end CodableSynthesis
