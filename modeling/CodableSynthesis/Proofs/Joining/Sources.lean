import CodableSynthesis.Proofs.Joining.Files
import CodableSynthesis.Proofs.Lexing.Faults
import CodableSynthesis.Proofs.Relocation.Members

/-!
Reading one source text behind another. The second text stands below the first: its lines are
counted from the last line of the first, and its columns are what they were.

* `Text.Span.shift`: a place counted behind another text.
* `Token.below`: tokens as they stand below another text.
* `tokenize_joined`: the tokens of the two texts.
* `readSource_joined`: the declarations of the two texts, and the faults of the second.

The line feed between the texts does two things. It ends a line comment that the first text may end
in, and it sets the mark of a line break on the first token of the second, which only has an effect
on what stands before it. Apart from that mark the tokens of the second text differ in their places
alone, so that it is read as by itself by what is known of sources that differ in places
(`Relocation`).
-/

namespace CodableSynthesis

open Text (Position Span byteLength byteLength_append endOfText lines)

/-! ### Places below a text -/

namespace Text

/-- A place counted behind a text of some bytes that ends as many lines. -/
def Position.shift (bytes lineFeeds : Nat) (p : Position) : Position :=
  ⟨p.offset + bytes, p.line + lineFeeds, p.column⟩

/-- A stretch counted behind a text of some bytes that ends as many lines. -/
def Span.shift (bytes lineFeeds : Nat) (s : Span) : Span :=
  ⟨s.start + bytes, s.stop + bytes, s.line + lineFeeds, s.column⟩

variable {bytes lineFeeds : Nat}

/-- A position is advanced alike behind another text. -/
theorem Position.advance_shift (p : Position) (cs : List Char) :
    (p.shift bytes lineFeeds).advance cs = (p.advance cs).shift bytes lineFeeds := by
  induction cs generalizing p with
  | nil => rfl
  | cons c cs ih =>
    rw [advance_cons, advance_cons, ← ih]
    refine congrArg (advance · cs) ?_
    rw [next, next]
    split <;> simp only [shift, Nat.add_right_comm]

theorem Position.advance_lineFeed (cs : List Char) :
    start.advance (cs ++ ['\n']) =
      start.shift (byteLength (cs ++ ['\n'])) (cs.count '\n' + 1) := by
  rw [advance_append, advance_cons, advance_nil, next, if_pos rfl, shift, mk.injEq, offset_advance,
    line_advance, byteLength_append]
  exact ⟨Nat.add_assoc _ _ _, Nat.add_assoc _ _ _, rfl⟩

/-! ### The lines of two texts

Where a text ends is a matter of its last line, which is that of the second text if there is one. -/

/-- The lines of a text and those of another below it. -/
theorem linesFrom_append (line front back : List Char) :
    linesFrom line (front ++ '\n' :: back) = linesFrom line (front ++ ['\n']) ++ lines back := by
  induction front generalizing line with
  | nil => rfl
  | cons c front ih =>
    simp only [List.cons_append, linesFrom]
    split
    · rw [ih, List.cons_append]
    · exact ih _

/-- A text ends as many lines as it has line feeds. -/
theorem length_linesFrom (line front : List Char) :
    (linesFrom line (front ++ ['\n'])).length = front.count '\n' + 1 := by
  induction front generalizing line with
  | nil => rfl
  | cons c front ih =>
    simp only [List.cons_append, linesFrom, List.count_cons]
    split
    · next feed => rw [List.length_cons, ih, feed, if_pos (beq_self_eq_true _)]
    · next other => rw [ih, if_neg (by simpa using other), Nat.add_zero]

theorem linesFrom_ne_nil {line back : List Char} (h : line ≠ [] ∨ back ≠ []) :
    linesFrom line back ≠ [] := by
  induction back generalizing line with
  | nil =>
    obtain ⟨c, line, rfl⟩ := List.exists_cons_of_ne_nil (h.resolve_right (fun h => h rfl))
    exact List.cons_ne_nil _ _
  | cons c back ih =>
    rw [linesFrom]
    split
    · exact List.cons_ne_nil _ _
    · exact ih (.inl (List.cons_ne_nil _ _))

/-- The end of a text behind another one. -/
theorem endOfText_below (front : List Char) {back : List Char} (nonempty : back ≠ []) :
    endOfText (front ++ '\n' :: back) =
      ((endOfText back).1 + (front.count '\n' + 1), (endOfText back).2) := by
  have both : lines (front ++ '\n' :: back) = lines (front ++ ['\n']) ++ lines back :=
    linesFrom_append [] front back
  have length : (lines (front ++ ['\n'])).length = front.count '\n' + 1 :=
    length_linesFrom [] front
  have some : lines back ≠ [] := linesFrom_ne_nil (.inr nonempty)
  rw [endOfText, endOfText, both, List.getLast?_append, List.getLast?_eq_some_getLast some,
    List.length_append, length, Nat.add_comm (front.count '\n' + 1)]
  rfl

end Text

/-! ### Tokens -/

/-- Places in a text compared with those in the same text behind another one. -/
def Comparison.below (bytes lineFeeds : Nat) : Comparison :=
  ⟨Span.shift bytes lineFeeds, id⟩

namespace Token

variable {bytes lineFeeds : Nat}

theorem place_append (p : Position) (ls more : List Lexeme) :
    place p (ls ++ more) = place p ls ++ place (p.advance (ls.flatMap Lexeme.whole)) more := by
  induction ls generalizing p with
  | nil => rfl
  | cons l ls ih =>
    rw [List.cons_append, place, place, ih, List.flatMap_cons, Lexeme.whole,
      Position.advance_append, Position.advance_append]
    rfl

/-- A token as it stands behind another text. -/
def shift (bytes lineFeeds : Nat) (t : Token) : Token :=
  { t with span := t.span.shift bytes lineFeeds }

/-- Tokens as they stand below another text, where the first of them begins a line. -/
def below (bytes lineFeeds : Nat) : List Token → List Token
  | [] => []
  | t :: ts =>
    { t.shift bytes lineFeeds with newlineBefore := true, touches := false } ::
      ts.map (shift bytes lineFeeds)

theorem place_shift (p : Position) (ls : List Lexeme) :
    place (p.shift bytes lineFeeds) ls = (place p ls).map (shift bytes lineFeeds) := by
  induction ls generalizing p with
  | nil => rfl
  | cons l ls ih =>
    rw [place, place, List.map_cons, ← ih, Position.advance_shift, Position.advance_shift]
    rfl

/-- Lexemes are placed alike behind a gap that breaks the line. -/
theorem place_behind {p q : Position} {gap : List Char} (some_ : gap ≠ [])
    (at_ : q.advance gap = p.shift bytes lineFeeds) (ls : List Lexeme) :
    place q (Lexeme.behind gap true ls) = below bytes lineFeeds (place p ls) := by
  cases ls with
  | nil => rfl
  | cons l ls =>
    have apart : (gap ++ l.gap.text).isEmpty = false := by simp [some_]
    rw [Lexeme.behind, place, place, below, ← place_shift]
    simp only [Gap.behind, Position.advance_append, at_, Position.advance_shift, apart,
      Bool.true_or]
    rfl

theorem sameTokens_shift (ts : List Token) :
    SameTokens (.below bytes lineFeeds) ts (ts.map (shift bytes lineFeeds)) := by
  rw [SameTokens, List.forall₂_map_right_iff]
  exact List.forall₂_same.mpr fun t _ => ⟨⟨rfl, rfl, rfl⟩, rfl, rfl⟩

/-- Tokens below another text differ in their places, and in what stands before the first. -/
theorem sameBehind_below (ts : List Token) :
    SameBehind (.below bytes lineFeeds) ts (below bytes lineFeeds ts) := by
  cases ts with
  | nil => exact .nil
  | cons t ts => exact .cons ⟨rfl, rfl, rfl⟩ (sameTokens_shift ts)

end Token

/-- A fault reported on a later line. -/
def SourceError.shift (lineFeeds : Nat) (e : SourceError) : SourceError :=
  { e with line := e.line + lineFeeds }

variable {front back : List Char}

/-- A lexical fault behind another text. -/
theorem LexicalFault.toSourceError_below {f : LexicalFault} (within : f.remaining <:+ back) :
    f.toSourceError (front ++ '\n' :: back) =
      (f.toSourceError back).shift (front.count '\n' + 1) := by
  obtain ⟨seen, made⟩ := within
  have here : consumed back f.remaining = seen := by rw [← made, consumed_append]
  have below : consumed (front ++ '\n' :: back) f.remaining = front ++ ['\n'] ++ seen := by
    rw [← made, ← List.singleton_append, ← List.append_assoc, ← List.append_assoc,
      consumed_append, List.append_assoc]
  rw [toSourceError, toSourceError, here, below, Position.advance_append,
    Position.advance_lineFeed, Position.advance_shift]
  rfl

theorem lexemes_nil : lexemes [] = .ok [] :=
  Cut.lexemes_iff.mpr (.done ⟨false, [], [], rfl, .nil, .none, .inl rfl⟩)

/-- The tokens of a text behind another one are those of the first and those of the second, which
stand below; what is wrong with the second is wrong below. -/
theorem tokenize_joined {a : String} {ts : List Token} (cut : tokenize a = .ok ts) (b : String) :
    SameOutcome (fun e e' : SourceError => e' = e.shift (a.toList.count '\n' + 1))
      (fun us us' => us' = ts ++
        Token.below (byteLength (a.toList ++ ['\n'])) (a.toList.count '\n' + 1) us)
      (tokenize b) (tokenize (a ++ "\n" ++ b)) := by
  rw [tokenize] at cut
  cases lexed : lexemes a.toList with
  | error fault => rw [lexed] at cut; cases cut
  | ok ls =>
    rw [lexed] at cut
    cases cut
    obtain ⟨gap, some_, made, joined⟩ := (Cut.lexemes_iff.mp lexed).lexemes_joined
    have text : (a ++ "\n" ++ b).toList = a.toList ++ '\n' :: b.toList := by simp
    rw [tokenize, tokenize, text, joined]
    cases later : lexemes b.toList with
    | error fault =>
      exact .error (LexicalFault.toSourceError_below (lexemes_fault later).remains)
    | ok more =>
      refine .ok ((Token.place_append _ _ _).trans (congrArg _ (Token.place_behind some_ ?_ _)))
      rw [← Position.advance_append, made, Position.advance_lineFeed]

/-- A text that can be cut into tokens, a line feed and another text: the tokens of the second text
stand below those of the first, and if it cannot be cut, its fault is reported below. -/
theorem tokenize_lineFeed {a : String} {ts : List Token} (cut : tokenize a = .ok ts) (b : String) :
    (∀ us, tokenize b = .ok us → tokenize (a ++ "\n" ++ b) =
      .ok (ts ++ Token.below (byteLength a.toList + 1) (1 + a.toList.count '\n') us)) ∧
    (∀ e, tokenize b = .error e → tokenize (a ++ "\n" ++ b) =
      .error (e.shift (1 + a.toList.count '\n'))) := by
  have joined := tokenize_joined cut b
  rw [byteLength_append, Nat.add_comm _ 1] at joined
  constructor
  · intro us cutB
    rw [cutB] at joined
    generalize tokenize (a ++ "\n" ++ b) = r at joined ⊢
    cases joined with
    | ok below => exact congrArg _ below
  · intro e fails
    rw [fails] at joined
    generalize tokenize (a ++ "\n" ++ b) = r at joined ⊢
    cases joined with
    | error below => exact congrArg _ below

/-- A minus in front of the line feed and a sign behind it do not make an arrow, and a comment that
is not ended is found below. -/
theorem tokenize_lineFeed_minus :
    tokenize "é\n-" = .ok [⟨.ident, "é", ⟨0, 2, 1, 1⟩, false, true⟩,
        ⟨.operator, "-", ⟨3, 4, 2, 1⟩, true, false⟩] ∧
      tokenize ("é\n-" ++ "\n" ++ "> b") = .ok ([⟨.ident, "é", ⟨0, 2, 1, 1⟩, false, true⟩,
        ⟨.operator, "-", ⟨3, 4, 2, 1⟩, true, false⟩] ++
          [⟨.greater, ">", ⟨5, 6, 3, 1⟩, true, false⟩, ⟨.ident, "b", ⟨7, 8, 3, 3⟩, false, false⟩]) ∧
      tokenize ("é\n-" ++ "\n" ++ "> /* b") = .error ⟨3, 3, .unterminatedComment⟩ := by
  have first : tokenize "é\n-" = .ok [⟨.ident, "é", ⟨0, 2, 1, 1⟩, false, true⟩,
      ⟨.operator, "-", ⟨3, 4, 2, 1⟩, true, false⟩] := by
    decide +kernel
  have second : tokenize "> b" = .ok [⟨.greater, ">", ⟨0, 1, 1, 1⟩, false, true⟩,
      ⟨.ident, "b", ⟨2, 3, 1, 3⟩, false, false⟩] := by
    decide +kernel
  have faulty : tokenize "> /* b" = .error ⟨1, 3, .unterminatedComment⟩ := by
    decide +kernel
  exact ⟨first, (tokenize_lineFeed first _).1 _ second, (tokenize_lineFeed first _).2 _ faulty⟩

/-! ### Declarations -/

/-- A fault of reading behind another text. -/
theorem ReadFault.Same.toSourceError_below {bytes : Nat} {e e' : ReadFault}
    (same : e.Same (σ := .below bytes (front.count '\n' + 1)) e') (nonempty : back ≠ []) :
    e'.toSourceError (front ++ '\n' :: back) =
      (e.toSourceError back).shift (front.count '\n' + 1) := by
  cases same with
  | @unexpected _ t t' word =>
    have place : t'.span = t.span.shift bytes (front.count '\n' + 1) := word.span.symm
    rw [toSourceError, toSourceError, place, word.text]
    rfl
  | endOfInput =>
    simp only [toSourceError, Text.endOfText_below front nonempty, SourceError.shift]

namespace Declaration

mutual

theorem mapSpans_id : ∀ d : Declaration, d.mapSpans id = d
  | ⟨heading, members, opener, closer⟩ => by
    have attributes : heading.attributes.map (·.mapSpans id) = heading.attributes :=
      List.map_id'' (fun _ => rfl) _
    rw [mapSpans, Heading.mapSpans, attributes, mapAllSpans_id members]
    rfl

theorem mapAllSpans_id : ∀ ms : List Member, Member.mapAllSpans id ms = ms
  | [] => rfl
  | .variable v :: ms => by
    have attributes : v.attributes.map (·.mapSpans id) = v.attributes :=
      List.map_id'' (fun _ => rfl) _
    have others : v.others.map (·.mapSpans id) = v.others := List.map_id'' (fun _ => rfl) _
    rw [Member.mapAllSpans, mapAllSpans_id ms, Member.mapSpans, Variable.mapSpans, attributes,
      others]
    rfl
  | .type d :: ms => by
    rw [Member.mapAllSpans, mapAllSpans_id ms, Member.mapSpans, mapSpans_id d]
  | .other .. :: ms => by
    rw [Member.mapAllSpans, mapAllSpans_id ms, Member.mapSpans]
    rfl

end

/-- A declaration as it stands behind another text. -/
def shift (bytes lineFeeds : Nat) (d : Declaration) : Declaration :=
  d.mapSpans (Span.shift bytes lineFeeds)

theorem same_below {bytes lineFeeds : Nat} {d d' : Declaration} :
    d.Same (.below bytes lineFeeds) d' ↔ d' = d.shift bytes lineFeeds := by
  rw [Same, shift, Comparison.below, mapSpans_id]
  exact eq_comm

end Declaration

/-- The declarations of a text that ends with its last declaration, and of a text behind it, are
those of the two texts; what is wrong with the second is wrong below. -/
theorem readSource_joined {a : String} {ts : List Token} {ds : List Declaration}
    (cut : tokenize a = .ok ts) (parsed : readSource a = .ok ds) (signed : Signed ts)
    (ends : EndsWithLast ts ds) (b : String) :
    SameOutcome (fun e e' : SourceError => e' = e.shift (a.toList.count '\n' + 1))
      (fun us us' => us' = ds ++ us.map
        (Declaration.shift (byteLength (a.toList ++ ['\n'])) (a.toList.count '\n' + 1)))
      (readSource b) (readSource (a ++ "\n" ++ b)) := by
  obtain ⟨_, ms, tokens, spelled, rfl⟩ := spelled_of_readSource parsed
  rw [cut] at tokens
  cases tokens
  have placed := placed_of_tokenize cut
  have apart : ts.Pairwise fun t u => t.span ≠ u.span := by
    refine placed.ordered.imp_of_mem fun mem _ before same => ?_
    have proper := (placed.bounds _ mem).2
    rw [same] at before proper
    exact Nat.not_lt.mpr before proper
  have tokens := tokenize_joined cut b
  have text : (a ++ "\n" ++ b).toList = a.toList ++ '\n' :: b.toList := by simp
  simp only [readSource, bind, Except.bind]
  cases cutB : tokenize b with
  | error fault =>
    rw [cutB] at tokens
    generalize tokenize (a ++ "\n" ++ b) = r at tokens ⊢
    cases tokens with
    | error same => exact .error same
  | ok us =>
    rw [cutB] at tokens
    generalize tokenize (a ++ "\n" ++ b) = r at tokens ⊢
    cases tokens with
    | @ok _ us' here =>
      obtain rfl := here
      have file := Declaration.readFile_same <|
        @Token.sameBehind_below (byteLength (a.toList ++ ['\n'])) (a.toList.count '\n' + 1) us
      have nonempty : ∀ e, Declaration.readFile us = .error e → b.toList ≠ [] := by
        intro e fails nothing
        rw [tokenize, nothing, lexemes_nil] at cutB
        cases cutB
        rw [Token.place, Declaration.readFile] at fails
        cases fails
      dsimp only
      rw [spelled.readFile_append _ signed apart ends, text]
      generalize Declaration.readFile us = r at file nonempty ⊢
      generalize Declaration.readFile (Token.below _ _ us) = r' at file ⊢
      cases file with
      | error same => exact .error (same.toSourceError_below (nonempty _ rfl))
      | ok same =>
        refine .ok (congrArg _ ?_)
        rw [← List.forall₂_eq_eq_eq, List.forall₂_map_right_iff]
        exact (same.imp fun _ _ h => Declaration.same_below.mp h).flip

end CodableSynthesis
