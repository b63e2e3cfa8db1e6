import CodableSynthesis.Proofs.Edits.Made
import CodableSynthesis.Proofs.Grammar.Ends
import CodableSynthesis.Proofs.Layout.Placed

/-!
Where the attributes of a declaration stand in the source, and what is taken out with them. The
spans of a declaration are those of its tokens, so each names a stretch of the source.

* `Placed.head`: the first token of a text, with the gap in front of it.
* `Attribute.Sits`: an attribute is a stretch of the source.
* `Attribute.Sits.removal`: what is taken out with an attribute, as a replacement.
* `Attribute.AllSpelled.layout`: attributes in a row, and that what is taken out with each lies in
  front of the next token.

An attribute is taken out with the white space behind it. That white space is the front of the gap
in front of the next token, up to a comment if there is one, so the next token is never touched and
two attributes never take the same white space.
-/

namespace CodableSynthesis

open Text (Position Span byteLength byteLength_append isWhiteSpace leadingSpace trimEnd)
open Lexeme (EndsPlain)

/-! ### White space at the ends -/

namespace Text

/-- White space in front of a token lies in the gap in front of it. -/
theorem leadingSpace_gap {gap chars rest : List Char} {c : Char} (head : chars.head? = some c)
    (plain : isWhiteSpace c = false) :
    byteLength (leadingSpace (gap ++ (chars ++ rest))) ≤ byteLength gap := by
  induction gap with
  | nil =>
    cases chars with
    | nil => cases head
    | cons d chars =>
      cases head
      rw [leadingSpace, List.nil_append, List.cons_append,
        List.takeWhile_cons_of_neg (by simp [plain])]
  | cons d gap ih =>
    rw [leadingSpace, List.cons_append]
    cases space : isWhiteSpace d with
    | false =>
      rw [List.takeWhile_cons_of_neg (by simp [space])]
      exact Nat.zero_le _
    | true =>
      rw [List.takeWhile_cons_of_pos space, byteLength_cons, byteLength_cons]
      exact Nat.add_le_add_left ih _

/-- A trimmed text ends with no white space. -/
theorem endsPlain_trimEnd (cs : List Char) : trimEnd cs = [] ∨ EndsPlain (trimEnd cs) := by
  rw [trimEnd, EndsPlain, List.getLast?_reverse]
  have ends := List.head?_dropWhile_not isWhiteSpace cs.reverse
  cases kept : cs.reverse.dropWhile isWhiteSpace with
  | nil => exact .inl rfl
  | cons c more =>
    rw [kept] at ends
    exact .inr ⟨c, rfl, by simpa using ends⟩

/-- Trimming keeps a front that ends with no white space. -/
theorem trimEnd_append {front : List Char} (h : front = [] ∨ EndsPlain front) (back : List Char) :
    ∃ kept, trimEnd (front ++ back) = front ++ kept := by
  refine ⟨trimEnd back, ?_⟩
  rcases h with rfl | ⟨c, last, plain⟩
  · rfl
  · rw [trimEnd, trimEnd, List.reverse_append, List.dropWhile_append]
    split
    · next all =>
      have nothing : back.reverse.dropWhile isWhiteSpace = [] := by simpa using all
      rw [nothing, List.reverse_nil, List.append_nil]
      obtain ⟨init, rfl⟩ := List.getLast?_eq_some_iff.mp last
      rw [List.reverse_append, List.reverse_singleton, List.singleton_append,
        List.dropWhile_cons_of_neg (by simp [plain]), List.reverse_cons, List.reverse_reverse]
    · rw [List.reverse_append, List.reverse_reverse]

end Text

/-! ### Tokens -/

/-- The first token of a text, and the gap in front of it. -/
theorem Placed.head {t : Token} {ts : List Token} {p : Position} {cs : List Char}
    (h : Placed p (t :: ts) cs) :
    ∃ gap rest, cs = gap ++ (t.chars ++ rest) ∧ t.touches = gap.isEmpty ∧
      Trivia.Whole gap t.newlineBefore ∧ t.Sound rest ∧
      t.span = .between (p.advance gap) (p.advance (gap ++ t.chars)) ∧
      Placed (p.advance (gap ++ t.chars)) ts rest := by
  cases h with
  | token whole touches sound span later => exact ⟨_, _, rfl, touches, whole, sound, span, later⟩

/-- The first token stands in front of the end of any token. -/
theorem Placed.head_start {t last : Token} {ts front rest : List Token} {p : Position}
    {cs : List Char} (h : Placed p (t :: ts) cs) (made : t :: ts = front ++ last :: rest) :
    p.offset ≤ t.span.start ∧ t.span.start < last.span.stop := by
  obtain ⟨gap, left, rfl, -, -, sound, span, later⟩ := h.head
  obtain ⟨c, more, chars, -⟩ := sound.spelled.head
  have proper := Text.byteLength_pos (show t.chars ≠ [] by simp [chars])
  have start : t.span.start = p.offset + byteLength gap := by
    rw [span, ← Position.offset_advance]
    rfl
  have stop : t.span.stop = p.offset + (byteLength gap + byteLength t.chars) := by
    rw [span, ← byteLength_append, ← Position.offset_advance]
    rfl
  refine ⟨by omega, ?_⟩
  cases front with
  | nil =>
    cases made
    omega
  | cons u front =>
    cases made
    obtain ⟨seen, left, rfl, -, -, ends⟩ := later.split_last
    rw [ends, Position.offset_advance, Position.offset_advance, byteLength_append]
    omega

/-! ### Attributes -/

/-- An attribute is a stretch of the source that begins with its sign and does not end with white
space. -/
def Attribute.Sits (source : List Char) (a : Attribute) : Prop :=
  ∃ front body back, source = front ++ (body ++ back) ∧ body.head? = some '@' ∧ EndsPlain body ∧
    a.first.start = byteLength front ∧ a.last.stop = byteLength (front ++ body)

namespace Attribute

variable {source : List Char} {a : Attribute} {p : Position} {cs : List Char}

/-- An attribute is a stretch of the text behind a gap. -/
theorem Spelled.stretch {ts rest : List Token} (h : Spelled ts a rest) (placed : Placed p ts cs) :
    ∃ gap body left, cs = gap ++ (body ++ left) ∧ body.head? = some '@' ∧ EndsPlain body ∧
      a.first.start = (p.advance gap).offset ∧ a.last.stop = (p.advance (gap ++ body)).offset ∧
      Placed (p.advance (gap ++ body)) rest left := by
  obtain ⟨sign, front, last, rfl, kind, first, ends⟩ := h.reach
  obtain ⟨gap, rest', rfl, -, -, sound, span, later⟩ := placed.head
  obtain ⟨seen, left, rfl, placed, plain, stop⟩ := later.split_last
  refine ⟨gap, sign.chars ++ seen, left, by simp, ?_, plain.append _, ?_, ?_, ?_⟩
  · rw [sound.spelled.eq_mark (by rw [kind]; rfl)]
    rfl
  · rw [first, span]
    rfl
  · rw [ends, stop, ← List.append_assoc, Position.advance_append _ (gap ++ sign.chars)]
  · rwa [← List.append_assoc, Position.advance_append _ (gap ++ sign.chars)]

/-- Taking out an attribute takes its text and all white space behind it. -/
theorem Sits.removal (h : a.Sits source) :
    ∃ front body back, body.head? = some '@' ∧ EndsPlain body ∧
      a.first.start = byteLength front ∧ a.last.stop = byteLength (front ++ body) ∧
      source = front ++ (body ++ back) ∧
      (Edit.removal source a.span).Replaces source front (body ++ leadingSpace back)
        (back.dropWhile isWhiteSpace) := by
  obtain ⟨front, body, back, rfl, sign, plain, start, stop⟩ := h
  refine ⟨front, body, back, sign, plain, start, stop, rfl, ?_, start, ?_⟩
  · rw [List.append_assoc, Text.leadingSpace_append_dropWhile]
  · have behind : Text.dropBytes a.span.stop (front ++ (body ++ back)) = back := by
      rw [show a.span.stop = _ from stop, ← List.append_assoc, Text.dropBytes_byteLength_append]
    rw [Edit.removal, behind, show a.span.stop = _ from stop]
    simp only [byteLength_append]
    omega

/-- What is taken out with an attribute lies in front of the token behind it. -/
theorem Spelled.removal {n : Token} {ts ns : List Token} (h : Spelled ts a (n :: ns))
    (placed : Placed p ts cs) (stands : Rest source p cs) :
    a.Sits source ∧ p.offset ≤ a.first.start ∧
      a.first.start < (Edit.removal source a.span).stop ∧
      (Edit.removal source a.span).stop ≤ n.span.start := by
  obtain ⟨gap, body, left, rfl, sign, plain, start, stop, later⟩ := h.stretch placed
  have behind : Rest source (p.advance (gap ++ body)) left :=
    Rest.advance (by rwa [List.append_assoc])
  have proper : 0 < byteLength body := by
    refine Text.byteLength_pos ?_
    rintro rfl
    cases sign
  have stopText :
      (Edit.removal source a.span).stop = a.last.stop + byteLength (leadingSpace left) := by
    rw [Edit.removal, show a.span.stop = _ from stop, behind.dropBytes, ← stop]
  have space :
      (p.advance (gap ++ body)).offset + byteLength (leadingSpace left) ≤ n.span.start := by
    obtain ⟨gap', rest, rfl, -, -, sound, span, -⟩ := later.head
    obtain ⟨c, chars, spelled, plainHead, -⟩ := sound.spelled.head
    rw [span, show (Span.between _ _).start = _ from Position.offset_advance _ gap']
    exact Nat.add_le_add_left (Text.leadingSpace_gap (by rw [spelled]; rfl) plainHead) _
  rw [Position.offset_advance] at start stop space
  rw [byteLength_append] at stop space
  refine ⟨?_, by omega, by omega, by omega⟩
  obtain ⟨before, made, at_⟩ := stands
  rw [at_, Rest.offset_start] at start stop
  refine ⟨before ++ gap, body, left, by simp [made], sign, plain, ?_, ?_⟩
  · rw [start, byteLength_append]
  · rw [stop, byteLength_append, byteLength_append, Nat.add_assoc]

/-- Attributes sit in the source, and what is taken out with them lies in front of the token behind
them. -/
theorem AllSpelled.layout {as : List Attribute} {t last : Token} {ts mid front rest : List Token}
    (h : AllSpelled (t :: ts) as mid) (made : mid = front ++ last :: rest)
    (placed : Placed p (t :: ts) cs) (stands : Rest source p cs) :
    (∀ a ∈ as, a.Sits source) ∧ p.offset ≤ t.span.start ∧ t.span.start < last.span.stop ∧
      Edit.Within t.span.start last.span.stop (as.map fun a => Edit.removal source a.span) := by
  generalize same : t :: ts = us at h
  induction h generalizing t ts p cs with
  | nil =>
    subst same
    obtain ⟨after, before⟩ := placed.head_start made
    exact ⟨nofun, after, before, .nil (Nat.le_of_lt before)⟩
  | @cons _ mid' _ a as spelled more ih =>
    subst same
    obtain ⟨n, ns, rfl⟩ : ∃ n ns, mid' = n :: ns := by
      refine List.exists_cons_of_ne_nil ?_
      rintro rfl
      have nothing := more.suffix
      simp [made] at nothing
    obtain ⟨here, after, longer, before⟩ := spelled.removal placed stands
    obtain ⟨gap, body, left, rfl, -, -, -, -, later⟩ := spelled.stretch placed
    rw [← List.append_assoc] at stands
    obtain ⟨sits, -, proper, within⟩ := ih made later stands.advance rfl
    obtain ⟨_, _, ⟨⟩, -, sign⟩ := spelled.head
    rw [sign]
    have inFront : a.first.start < last.span.stop := by omega
    exact ⟨List.forall_mem_cons.mpr ⟨here, sits⟩, after, inFront,
      within.cons proper (Nat.le_refl _) (Nat.le_of_lt longer) longer before⟩

end Attribute

end CodableSynthesis
