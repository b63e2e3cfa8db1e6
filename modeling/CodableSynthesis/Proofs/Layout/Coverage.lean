import CodableSynthesis.Proofs.Layout.Extents

/-!
Nothing of a source is lost between its tokens, and nothing is added. What lies between two tokens
is white space and comments, told here by a grammar of their own, in which the marks of a block
comment nest by construction.

* `Trivia.CommentBody`, `Trivia.Fills`: block comments and gaps, as a grammar.
* `Trivia.closeComment_iff`: exactly the bodies of the grammar are read as block comments.
* `Trivia.Skipped.fills`: what is skipped is a gap of the grammar.
* `tokenize_covers`: a source is its tokens with such a gap in front of each and behind the last.

The grammar of gaps here is not the one that describes the lexer (`Trivia.Whole`). That one takes
block comments as what the lexer reads as such. Here a block comment within another has both its
marks because the constructor says so, and a line comment ends where a line feed or the end of the
text follows. So the statement that a source is covered can be read without knowing how the lexer
counts.

Gaps are as long as they can be: no token begins in white space or with a comment, which `Tiled`
says of each.
-/

namespace CodableSynthesis

namespace Trivia

/-! ### Block comments -/

/-- A block comment behind its opening mark, up to the mark that ends it. A comment within it has
both its marks, and no other mark stands in it. -/
inductive CommentBody : List Char → Prop
  /-- The mark that ends it. -/
  | close : CommentBody ['*', '/']
  /-- A comment within it, with both its marks. -/
  | nested {inner body : List Char} :
      CommentBody inner → CommentBody body → CommentBody ('/' :: '*' :: (inner ++ body))
  /-- Any character that begins neither mark. -/
  | plain {c : Char} {body : List Char} :
      ¬ ['/', '*'] <+: c :: body → ¬ ['*', '/'] <+: c :: body → CommentBody body →
      CommentBody (c :: body)

theorem CommentBody.length_ge {body : List Char} (h : CommentBody body) : 2 ≤ body.length := by
  cases h with
  | close => exact Nat.le_refl _
  | nested inner body => simp
  | plain _ _ body =>
    have := body.length_ge
    rw [List.length_cons]
    omega

/-- The bodies of comments that are open within one another, the innermost first. -/
inductive Unwinds : Nat → List Char → Prop
  | last {body : List Char} : CommentBody body → Unwinds 0 body
  | outer {depth : Nat} {body text : List Char} :
      CommentBody body → Unwinds depth text → Unwinds (depth + 1) (body ++ text)

/-- A comment that opens within the innermost. -/
theorem Unwinds.nested {depth : Nat} {text : List Char} (h : Unwinds (depth + 1) text) :
    Unwinds depth ('/' :: '*' :: text) := by
  obtain ⟨⟩ | ⟨inner, outer⟩ := h
  cases outer with
  | last body => exact .last (.nested inner body)
  | @outer _ body text isBody outer =>
    rw [← List.append_assoc]
    exact .outer (.nested inner isBody) outer

/-- A character that begins no mark belongs to the innermost comment. -/
theorem Unwinds.plain {depth : Nat} {c : Char} {text : List Char}
    (noOpening : ¬ ['/', '*'] <+: c :: text) (noClosing : ¬ ['*', '/'] <+: c :: text)
    (h : Unwinds depth text) : Unwinds depth (c :: text) := by
  cases h with
  | last body => exact .last (.plain noOpening noClosing body)
  | @outer depth body text isBody outer =>
    have shorter : c :: body <+: c :: (body ++ text) := List.prefix_append _ _
    exact .outer
      (.plain (fun opens => noOpening (opens.trans shorter))
        (fun closes => noClosing (closes.trans shorter)) isBody) outer

/-- What is read of a text closes the comments that are open. -/
theorem unwinds_of_closeComment {depth : Nat} {cs text rest : List Char}
    (h : closeComment depth cs = some (text, rest)) : Unwinds depth text := by
  fun_induction closeComment depth cs generalizing text with
  | case1 depth cs ih =>
    obtain ⟨⟨inner, after⟩, read, same⟩ := Option.map_eq_some_iff.mp h
    cases same
    exact (ih read).nested
  | case2 cs =>
    cases h
    exact .last .close
  | case3 cs outer ih =>
    obtain ⟨⟨inner, after⟩, read, same⟩ := Option.map_eq_some_iff.mp h
    cases same
    exact .outer .close (ih read)
  | case4 depth c cs noOpening noClosing ih =>
    obtain ⟨⟨inner, after⟩, read, same⟩ := Option.map_eq_some_iff.mp h
    cases same
    have made := append_of_closeComment read
    apply (ih read).plain
    · rintro ⟨more, opens⟩
      cases opens
      exact noOpening _ rfl made.symm
    · rintro ⟨more, closes⟩
      cases closes
      exact noClosing _ rfl made.symm
  | case5 => cases h

/-- A comment is read to its end, and those around it thereafter. -/
theorem CommentBody.closeComment_append {body : List Char} (h : CommentBody body)
    (more : List Char) :
    closeComment 0 (body ++ more) = some (body, more) ∧
      ∀ depth, closeComment (depth + 1) (body ++ more)
        = (closeComment depth more).map fun (text, rest) => (body ++ text, rest) := by
  induction h generalizing more with
  | close => exact ⟨rfl, fun depth => rfl⟩
  | @nested inner body _ _ ihInner ihBody =>
    have opened (depth : Nat) : closeComment depth ('/' :: '*' :: (inner ++ body) ++ more)
        = (closeComment depth (body ++ more)).map fun (text, rest) =>
            ('/' :: '*' :: (inner ++ text), rest) := by
      change closeComment depth ('/' :: '*' :: (inner ++ body ++ more)) = _
      rw [closeComment, List.append_assoc, (ihInner _).2, Option.map_map]
      rfl
    constructor
    · rw [opened, (ihBody more).1]
      rfl
    · intro depth
      rw [opened, (ihBody more).2, Option.map_map]
      simp only [List.cons_append, List.append_assoc]
      rfl
  | @plain c body noOpening noClosing isBody ih =>
    have stepped (depth : Nat) : closeComment depth (c :: body ++ more)
        = (closeComment depth (body ++ more)).map fun (text, rest) => (c :: text, rest) := by
      obtain ⟨d, rest, rfl⟩ := List.exists_cons_of_length_pos
        (Nat.lt_of_lt_of_le (Nat.zero_lt_succ 1) isBody.length_ge)
      rw [List.cons_append, closeComment.eq_4]
      · rintro _ rfl same
        cases same
        exact noOpening ⟨rest, rfl⟩
      · rintro _ rfl same
        cases same
        exact noClosing ⟨rest, rfl⟩
    constructor
    · rw [stepped, (ih more).1]
      rfl
    · intro depth
      rw [stepped, (ih more).2, Option.map_map]
      rfl

/-- Exactly the bodies of the grammar are read as block comments. -/
theorem closeComment_iff {cs body rest : List Char} :
    closeComment 0 cs = some (body, rest) ↔ cs = body ++ rest ∧ CommentBody body := by
  constructor
  · intro read
    obtain ⟨isBody⟩ := unwinds_of_closeComment read
    exact ⟨(append_of_closeComment read).symm, isBody⟩
  · rintro ⟨rfl, isBody⟩
    exact (isBody.closeComment_append rest).1

/-! ### Gaps -/

/-- `Fills rest gap`: in front of `rest` the gap is a sequence of white space, comments to the end
of their line, and block comments. -/
inductive Fills (rest : List Char) : List Char → Prop
  | nil : Fills rest []
  | space {c : Char} {gap : List Char} :
      Text.isWhiteSpace c = true → Fills rest gap → Fills rest (c :: gap)
  /-- The line feed, or the end of the text, is not part of the comment. -/
  | line {comment gap : List Char} :
      '\n' ∉ comment → (gap ++ rest = [] ∨ (gap ++ rest).head? = some '\n') → Fills rest gap →
      Fills rest ('/' :: '/' :: (comment ++ gap))
  | block {body gap : List Char} :
      CommentBody body → Fills rest gap → Fills rest ('/' :: '*' :: (body ++ gap))

theorem not_mem_of_withinLine {comment : List Char} (h : ∀ c ∈ comment, withinLine c = true) :
    '\n' ∉ comment := by
  intro mem
  have := h _ mem
  rw [withinLine_lineFeed] at this
  cases this

theorem Whole.fills {front gap rest : List Char} {crossed : Bool} (h : Whole front crossed)
    (more : Fills rest gap) : Fills rest (front ++ gap) := by
  induction h with
  | nil => exact more
  | space isSpace _ ih => exact .space isSpace ih
  | line within _ ih =>
    rw [List.cons_append, List.cons_append, List.append_assoc]
    exact .line (not_mem_of_withinLine within) (.inr rfl) ih
  | block closes _ ih =>
    rw [List.cons_append, List.cons_append, List.append_assoc]
    exact .block (closeComment_iff.mp closes).2 ih

theorem Skipped.fills {gap : Gap} {rest : List Char} (h : Skipped gap rest) :
    Fills rest gap.text := by
  obtain ⟨front, tail, text, whole, openTail, last⟩ := h
  rw [text]
  apply whole.fills
  cases openTail with
  | none => exact .nil
  | line within =>
    obtain rfl := last.resolve_left (by simp)
    rw [← List.append_nil (_ :: _)]
    exact .line (not_mem_of_withinLine within) (.inl rfl) .nil

end Trivia

open Text (Position Span byteLength byteLength_append)
open Trivia (Fills StartsGap)

/-! ### Tokens and the gaps between them -/

/-- The token is what the source has between the byte offsets of its span. -/
def Token.StandsIn (source : List Char) (t : Token) : Prop :=
  ∃ front back, source = front ++ (t.chars ++ back) ∧ t.span.start = byteLength front ∧
    t.span.stop = byteLength (front ++ t.chars)

/-- `Tiled source o ts cs`: the text `cs`, which the source has from byte `o` on, is the tokens with
a gap in front of each and one behind the last. A gap reaches as far as it can, so no token begins
in white space or with a comment. -/
inductive Tiled (source : List Char) : Nat → List Token → List Char → Prop
  /-- Behind the last token lies a gap. -/
  | done {o : Nat} {gap : List Char} : Fills [] gap → Tiled source o [] gap
  /-- A gap and a token, which stands where its span says. -/
  | token {o : Nat} {gap rest : List Char} {t : Token} {ts : List Token} :
      Fills (t.chars ++ rest) gap → ¬ StartsGap (t.chars ++ rest) → t.chars ≠ [] →
      t.span.start = o + byteLength gap → t.StandsIn source →
      Tiled source t.span.stop ts rest → Tiled source o (t :: ts) (gap ++ (t.chars ++ rest))

/-- A text that tokens are placed in is tiled by them. -/
theorem Placed.tiled {source text : List Char} {p : Position} {ts : List Token}
    (h : Placed p ts text) (stands : Rest source p text) : Tiled source p.offset ts text := by
  induction h with
  | done trailing =>
    obtain ⟨crossed, skipped⟩ := trailing
    exact .done skipped.fills
  | @token p gap t ts rest whole _ sound span _ ih =>
    have later := ih (by rw [← List.append_assoc] at stands; exact stands.advance)
    obtain ⟨before, rfl, rfl⟩ := stands
    have start : t.span.start = byteLength (before ++ gap) := by
      rw [span, ← Position.advance_append]
      exact Rest.offset_start _
    have stop : t.span.stop = byteLength (before ++ (gap ++ t.chars)) := by
      rw [span, ← Position.advance_append, ← Position.advance_append]
      exact Rest.offset_start _
    obtain ⟨c, more, chars, -⟩ := sound.spelled.head
    refine .token ?_ (sound.spelled.not_startsGap sound.stops) (by simp [chars]) ?_ ?_ ?_
    · simpa using whole.fills .nil
    · rw [start, Rest.offset_start, byteLength_append]
    · exact ⟨before ++ gap, rest, by simp, start, by rw [stop, List.append_assoc]⟩
    · rw [← Position.advance_append, Rest.offset_start, ← stop] at later
      exact later

/-- Tokens that tile a text follow one another. -/
theorem Tiled.ordered {source text : List Char} {o : Nat} {ts : List Token}
    (h : Tiled source o ts text) : Span.Ordered o (byteLength source) (ts.map (·.span)) := by
  induction h with
  | done => exact .nil
  | @token o gap rest t ts _ _ some_ start stands _ ih =>
    obtain ⟨front, back, made, at_, stop⟩ := stands
    have proper := Text.byteLength_pos some_
    rw [byteLength_append, ← at_] at stop
    have behind : t.span.stop ≤ byteLength source := by
      rw [made, byteLength_append, byteLength_append, ← at_]
      omega
    have nonempty : t.span.start < t.span.stop := by omega
    exact Span.Ordered.cons (start ▸ Nat.le_add_right _ _) nonempty behind ih

/-- A source is its tokens, each where its span says, with gaps of white space and comments between
them. -/
theorem tokenize_covers {source : String} {ts : List Token} (h : tokenize source = .ok ts) :
    Tiled source.toList 0 ts source.toList ∧
      Span.Ordered 0 (byteLength source.toList) (ts.map (·.span)) := by
  have tiled := (placed_of_tokenize h).tiled .start
  exact ⟨tiled, tiled.ordered⟩

/-- A comment within a comment, a character of two bytes, and a comment that the text ends in. -/
theorem tokenize_covers_comments :
    ∃ ts, tokenize "/* a /* b */ */ x//\né // y" = .ok ts ∧
      Tiled "/* a /* b */ */ x//\né // y".toList 0 ts "/* a /* b */ */ x//\né // y".toList ∧
      Span.Ordered 0 (byteLength "/* a /* b */ */ x//\né // y".toList) (ts.map (·.span)) := by
  have isOk : (tokenize "/* a /* b */ */ x//\né // y").isOk = true := by
    decide +kernel
  cases tokens : tokenize "/* a /* b */ */ x//\né // y" with
  | error fault => rw [tokens] at isOk; cases isOk
  | ok ts => exact ⟨ts, rfl, tokenize_covers tokens⟩

end CodableSynthesis
