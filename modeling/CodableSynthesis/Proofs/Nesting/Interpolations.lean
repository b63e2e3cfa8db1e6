import CodableSynthesis.Proofs.Layout.Placed
import CodableSynthesis.Proofs.Lexing.Junctions
import Mathlib.Data.List.Infix

/-!
Code within a string literal. The reader of interpolations knows parentheses and plain literals, and
nothing of comments, raw literals and names in backticks: of these it reads the characters.

* `Literal.Passed`: a part of the code that this reader gets over, parentheses and quotes and all.
* `Token.Passable`: it gets over every part of some code that it reads in another way than the
  lexer.
* `Placed.interpolated`: it reads code as the lexer does if it gets over every such part.
* `tokenize_interpolating_iff`: which literals around any code are one token, whatever is misread.
* `tokenize_interpolating`: a literal around such code is one token; and which literals around any
  code are.

`scan_string` calls `skip_interpolation`, which looks for the parenthesis that closes the
interpolation. Its comment speaks of nested strings, and it does call `scan_string` at a quote; but
it calls it for a plain literal, so that a number sign in front of the quote is not seen.
`tokenize_interpolating_backslash` is a raw literal that holds a backslash: taken for a plain one it
has no end.

The proof follows the tokens of the code, each with the gap in front of it. A token that is neither
a raw literal nor a name in backticks is spelled in a way that the reader gets over; a parenthesis
moves the depth; and a gap is passed by assumption, since a comment may hold anything.
-/

namespace CodableSynthesis

namespace Literal

/-! ### What the reader gets over -/

/-- Within an interpolation, the parenthesis that ends it is the first behind the text. So the text
may stand anywhere in the code of an interpolation without changing where that ends. -/
def Passed (text : List Char) : Prop :=
  Spells (.interpolation 0) (text ++ [')'])

theorem reads_interpolation_iff {depth : Nat} {whole cs text rest : List Char} :
    Reads (interpolation depth whole cs) text rest ↔
      cs = text ++ rest ∧ Spells (.interpolation depth) text := by
  constructor
  · intro read
    obtain ⟨made, spelled, -⟩ := splits_of_read (p := .interpolation depth) ⟨whole, read⟩
    exact ⟨made, spelled⟩
  · rintro ⟨rfl, spelled⟩
    exact spelled.alwaysRead whole rest

/-- Running the reader decides whether it gets over a text. -/
theorem passed_iff {text : List Char} :
    Passed text ↔ (interpolation 0 [] (text ++ [')'])).toOption.any (·.rest.isEmpty) = true := by
  constructor
  · intro passed
    obtain ⟨shorter, read⟩ := reads_interpolation_iff.mpr ⟨(List.append_nil _).symm, passed⟩
    rw [read]
    rfl
  · intro ends
    obtain ⟨⟨inner, rest, shorter⟩, read, isEmpty⟩ := ok_of_any ends
    obtain rfl := List.isEmpty_iff.mp isEmpty
    obtain ⟨made, spelled⟩ := reads_interpolation_iff.mp ⟨shorter, read⟩
    rw [List.append_nil] at made
    rwa [Passed, made]

instance (text : List Char) : Decidable (Passed text) :=
  decidable_of_iff _ passed_iff.symm

example : Passed "/* (a) */".toList ∧ ¬ Passed "/* (a */".toList := by decide +kernel

/-- The reader of interpolations takes the character as it takes a letter. -/
def Neutral (c : Char) : Prop :=
  c ≠ '(' ∧ c ≠ ')' ∧ c ≠ '"'

section Interpolation

variable {depth outer : Nat} {text more : List Char}

theorem Spells.neutral_append (neutral : ∀ c ∈ text, Neutral c)
    (h : Spells (.interpolation depth) more) : Spells (.interpolation depth) (text ++ more) := by
  induction text with
  | nil => exact h
  | cons c text ih =>
    obtain ⟨⟨noOpening, noClosing, noQuote⟩, neutral⟩ := List.forall_mem_cons.mp neutral
    exact .other noOpening noClosing noQuote (ih neutral)

/-- The text ends with a quote, which one behind it could go on with. Two quotes make an empty
literal, but three open one of several lines. -/
def EndsQuote (text : List Char) : Prop :=
  ['"'] <:+ text

theorem EndsQuote.behind (h : EndsQuote text) (front : List Char) : EndsQuote (front ++ text) :=
  h.trans (List.suffix_append _ _)

theorem EndsQuote.of_append (h : EndsQuote (text ++ more)) (some_ : more ≠ []) : EndsQuote more :=
  List.suffix_of_suffix_length_le h (List.suffix_append _ _) (List.length_pos_of_ne_nil some_)

/-- A text that ends with another character does not end with a quote. -/
theorem not_endsQuote_concat {c : Char} (other : c ≠ '"') : ¬ EndsQuote (text ++ [c]) := by
  intro ends
  cases (ends.of_append (List.cons_ne_nil _ _)).eq_of_length rfl
  exact other rfl

/-- What is left, behind a front, of a text in front of its last character. -/
theorem exists_concat (front : List Char) (h : front ++ more = text ++ [')']) (some_ : more ≠ []) :
    ∃ left, text = front ++ left ∧ more = left ++ [')'] := by
  rcases List.eq_nil_or_concat more with rfl | ⟨left, c, rfl⟩
  · exact absurd rfl some_
  · rw [List.concat_eq_append, ← List.append_assoc] at h
    obtain ⟨rfl, same⟩ := List.append_inj' h rfl
    exact ⟨left, rfl, by rw [List.concat_eq_append, same]⟩

/-- The parenthesis at the end of an interpolation may give way to more of it. The induction is on
how the first text is read; the depths add up, since its last parenthesis is replaced by what has
its own. -/
theorem Spells.interpolation_append (h : Spells (.interpolation depth) (text ++ [')']))
    (noQuote : ¬ EndsQuote text) (later : Spells (.interpolation outer) more) :
    Spells (.interpolation (depth + outer)) (text ++ more) := by
  generalize isPhrase : Phrase.interpolation depth = p at h
  generalize made : text ++ [')'] = whole at h
  induction h generalizing depth text with
  | opening rest ih =>
    cases isPhrase
    obtain ⟨left, rfl, rfl⟩ := exists_concat [_] made.symm rest.ne_nil
    have inner := ih (fun ends => noQuote (ends.behind [_])) rfl rfl
    rw [Nat.add_right_comm] at inner
    exact .opening inner
  | last =>
    cases isPhrase
    obtain rfl : text = [] := List.append_left_eq_self.mp made
    rwa [Nat.zero_add]
  | closing rest ih =>
    cases isPhrase
    obtain ⟨left, rfl, rfl⟩ := exists_concat [_] made.symm rest.ne_nil
    rw [Nat.add_right_comm]
    exact .closing (ih (fun ends => noQuote (ends.behind [_])) rfl rfl)
  | @nested _ inner rest literal ends spelled _ ih =>
    cases isPhrase
    obtain ⟨left, rfl, rfl⟩ := exists_concat ('"' :: inner) made.symm spelled.ne_nil
    rw [List.append_assoc]
    refine .nested literal ?_ (ih (fun ends => noQuote (ends.behind ('"' :: inner))) rfl rfl)
    intro empty
    cases left with
    | nil =>
      subst empty
      exact absurd ⟨['"'], rfl⟩ noQuote
    | cons c left => exact ends empty
  | other noOpening noClosing notQuote rest ih =>
    cases isPhrase
    obtain ⟨left, rfl, rfl⟩ := exists_concat [_] made.symm rest.ne_nil
    exact .other noOpening noClosing notQuote
      (ih (fun ends => noQuote (ends.behind [_])) rfl rfl)
  | _ => cases isPhrase

/-- A text that the reader gets over may stand in front of any interpolation. -/
theorem Passed.before (h : Passed text) (noQuote : ¬ EndsQuote text)
    (later : Spells (.interpolation depth) more) :
    Spells (.interpolation depth) (text ++ more) := by
  rw [← Nat.zero_add depth]
  exact h.interpolation_append noQuote later

end Interpolation

/-- A raw literal ends with a number sign. -/
theorem Spells.not_endsQuote {pounds : Nat} {text : List Char}
    (h : Spells (.literal (pounds + 1)) text) : ¬ EndsQuote text := by
  have ends (multiline : Bool) : ['#'] <:+ Delimiter.closing ⟨multiline, pounds + 1⟩ := by
    rw [Delimiter.closing, List.replicate_succ', ← List.append_assoc]
    exact List.suffix_append _ _
  have sign : ['#'] <:+ text := by
    cases h with
    | short body => exact (ends _).trans body.closing_suffix
    | long body =>
      exact ((ends _).trans body.closing_suffix).trans
        ((List.suffix_cons _ _).trans (List.suffix_cons _ _))
  obtain ⟨front, rfl⟩ := sign
  exact not_endsQuote_concat (by decide)

end Literal

open Literal (EndsQuote Neutral Passed Spells)
open Text (Position Span byteLength)
open Trivia (Whole)
open Lexeme (Spelling Stops continuesName punctuation?)

/-! ### Gaps and tokens

What the parts of some code are to the reader: gaps, tokens that it reads like the lexer, and tokens
that it does not know. -/

/-- A gap ends with white space or with a slash. -/
theorem Trivia.Whole.not_endsQuote {gap : List Char} {crossed : Bool} (h : Whole gap crossed) :
    ¬ EndsQuote gap := by
  induction h with
  | nil => simp [EndsQuote]
  | space isSpace _ ih =>
    intro ends
    rcases List.suffix_cons_iff.mp ends with same | ends
    · cases same
      exact absurd isSpace (by decide)
    · exact ih ends
  | @line comment gap _ _ _ ih =>
    intro ends
    have ends : EndsQuote (('/' :: '/' :: comment) ++ '\n' :: gap) := ends
    exact ih (ends.of_append (List.cons_ne_nil _ _))
  | @block comment gap _ closes _ ih =>
    obtain ⟨front, rfl⟩ := closeComment_ends closes
    intro ends
    have ends : EndsQuote (('/' :: '*' :: front) ++ '/' :: gap) := by simpa using ends
    rcases List.suffix_cons_iff.mp (ends.of_append (List.cons_ne_nil _ _)) with same | ends
    · cases same
    · exact ih ends

namespace Lexeme

/-- The text is that of a name in backticks or of a raw literal. These are the tokens that the
reader of interpolations does not know. -/
def Quoted (kind : TokenKind) (text : List Char) : Prop :=
  text.head? = some '`' ∨ kind = .stringLiteral ∧ text.head? = some '#'

instance (kind : TokenKind) (text : List Char) : Decidable (Quoted kind text) :=
  inferInstanceAs (Decidable (_ ∨ _))

theorem neutral_of_continuesName {c : Char} (h : continuesName c = true) : Neutral c := by
  refine ⟨?_, ?_, ?_⟩ <;> (rintro rfl; exact absurd h (by decide))

theorem neutral_of_digits {text : List Char} (h : Literal.Digits text) :
    ∀ c ∈ text, Neutral c := by
  induction h with
  | nil => nofun
  | cons continues _ ih =>
    refine List.forall_mem_cons.mpr ⟨?_, ih⟩
    refine ⟨?_, ?_, ?_⟩ <;> (rintro rfl; exact absurd continues (by decide))
  | point _ _ ih => exact List.forall_mem_cons.mpr ⟨by simp [Neutral], ih⟩

theorem neutral_of_punctuation? {c : Char} {kind : TokenKind} (h : punctuation? c = some kind)
    (noOpening : kind ≠ .opening .parenthesis) (noClosing : kind ≠ .closing .parenthesis) :
    Neutral c := by
  refine ⟨?_, ?_, ?_⟩
  · rintro rfl
    exact noOpening (Option.some.inj h.symm)
  · rintro rfl
    exact noClosing (Option.some.inj h.symm)
  · rintro rfl
    cases h

/-- Within an interpolation a token that is no parenthesis is read to its end. The cases are those
of the spelling; a plain literal is read by the same function as outside. -/
theorem Spelling.interpolated {kind : TokenKind} {text rest : List Char} {depth : Nat}
    (h : Spelling kind text) (stops : Stops text rest kind)
    (quoted : Quoted kind text → Passed text) (noOpening : kind ≠ .opening .parenthesis)
    (noClosing : kind ≠ .closing .parenthesis)
    (later : Spells (.interpolation depth) (rest ++ [')'])) :
    Spells (.interpolation depth) (text ++ (rest ++ [')'])) := by
  cases h with
  | punctuation is =>
    exact later.neutral_append
      (List.forall_mem_singleton.mpr (neutral_of_punctuation? is noOpening noClosing))
  | arrow | pound => exact later.neutral_append (by simp [Neutral])
  | string literal =>
    refine .nested literal ?_ later
    rintro rfl
    have noQuote := stops rfl
    cases rest with
    | nil => simp
    | cons => exact noQuote
  | @rawString pounds text literal =>
    refine (quoted (.inr ⟨rfl, rfl⟩)).before (fun ends => ?_) later
    have ends : EndsQuote ('#' :: (List.replicate pounds '#' ++ ['"']) ++ text) := by
      simpa using ends
    exact literal.not_endsQuote (ends.of_append literal.ne_nil)
  | @quoted name _ =>
    have noQuote : ¬ EndsQuote ('`' :: name ++ ['`']) := Literal.not_endsQuote_concat (by decide)
    exact (quoted (.inl rfl)).before noQuote later
  | number _ digits => exact later.neutral_append (neutral_of_digits digits)
  | name starts more =>
    exact later.neutral_append (List.forall_mem_cons.mpr
      ⟨neutral_of_continuesName (continuesName_of_startsName starts),
        fun c mem => neutral_of_continuesName (more c mem)⟩)
  | operator noMark noQuote =>
    refine later.neutral_append (List.forall_mem_singleton.mpr ⟨?_, ?_, noQuote⟩)
    all_goals
      rintro rfl
      cases noMark

end Lexeme

/-! ### Code

Whole code, token by token. The number of parentheses still to close is the invariant, and
`TokenKind.Closes` is what the code has to satisfy for it. -/

namespace TokenKind

/-- Tokens of these kinds close `depth` more parentheses than they open, and no front part of them
closes more than that. With a `depth` of zero, the parentheses balance. -/
structure Closes (depth : Nat) (kinds : List TokenKind) : Prop where
  /-- No front part closes too many. -/
  within : ∀ front ∈ kinds.inits,
    front.count (.closing .parenthesis) ≤ depth + front.count (.opening .parenthesis)
  /-- All of them close just as many. -/
  whole : kinds.count (.closing .parenthesis) = depth + kinds.count (.opening .parenthesis)

instance (depth : Nat) (kinds : List TokenKind) : Decidable (Closes depth kinds) :=
  decidable_of_iff (_ ∧ _) ⟨fun h => ⟨h.1, h.2⟩, fun h => ⟨h.within, h.whole⟩⟩

namespace Closes

variable {depth : Nat} {kind : TokenKind} {kinds front : List TokenKind}

theorem of_nil (h : Closes depth []) : depth = 0 :=
  h.whole.symm

/-- What the first token and those behind it close. -/
theorem within_cons (h : Closes depth (kind :: kinds)) (isFront : front ∈ kinds.inits) :
    (kind :: front).count (.closing .parenthesis) ≤
      depth + (kind :: front).count (.opening .parenthesis) :=
  h.within _ ((List.mem_inits _ _).mpr
    (List.cons_prefix_cons.mpr ⟨rfl, (List.mem_inits _ _).mp isFront⟩))

theorem opening (h : Closes depth (.opening .parenthesis :: kinds)) : Closes (depth + 1) kinds where
  within front isFront := by
    have closed := h.within_cons isFront
    rw [List.count_cons_self, List.count_cons_of_ne (by decide)] at closed
    omega
  whole := by
    have closed := h.whole
    rw [List.count_cons_self, List.count_cons_of_ne (by decide)] at closed
    omega

theorem closing (h : Closes depth (.closing .parenthesis :: kinds)) :
    ∃ outer, depth = outer + 1 ∧ Closes outer kinds := by
  have first := h.within_cons ((List.mem_inits [] kinds).mpr List.nil_prefix)
  cases depth with
  | zero => exact absurd first (by decide)
  | succ outer =>
    refine ⟨outer, rfl, fun front isFront => ?_, ?_⟩
    · have closed := h.within_cons isFront
      rw [List.count_cons_self, List.count_cons_of_ne (by decide)] at closed
      omega
    · have closed := h.whole
      rw [List.count_cons_self, List.count_cons_of_ne (by decide)] at closed
      omega

theorem other (h : Closes depth (kind :: kinds)) (noOpening : kind ≠ .opening .parenthesis)
    (noClosing : kind ≠ .closing .parenthesis) : Closes depth kinds where
  within front isFront := by
    have closed := h.within_cons isFront
    rwa [List.count_cons_of_ne noOpening, List.count_cons_of_ne noClosing] at closed
  whole := by
    have closed := h.whole
    rwa [List.count_cons_of_ne noOpening, List.count_cons_of_ne noClosing] at closed

end Closes

end TokenKind

namespace Token

/-- What a source has, from a byte on, in front of each of some tokens and behind the last. -/
def gaps (source : List Char) (o : Nat) : List Token → List (List Char)
  | [] => [Text.dropBytes o source]
  | t :: ts => Text.slice o t.span.start source :: gaps source t.span.stop ts

/-- The reader of interpolations gets over every part of some code that it knows nothing of. These
are the conditions under which it does the same as the lexer. -/
structure Passable (source : List Char) (ts : List Token) : Prop where
  /-- It gets over the gaps, which may be comments. -/
  gaps : ∀ gap ∈ gaps source 0 ts, Passed gap
  /-- It gets over raw literals and names in backticks. -/
  quoted : ∀ t ∈ ts, Lexeme.Quoted t.kind t.chars → Passed t.chars

instance (source : List Char) (ts : List Token) : Decidable (Passable source ts) :=
  decidable_of_iff (_ ∧ _) ⟨fun h => ⟨h.1, h.2⟩, fun h => ⟨h.gaps, h.quoted⟩⟩

end Token

/-- Within an interpolation, code is read up to its end, if no part of it misleads the reader. The
induction is on the tokens as they are placed in the source, with the number of open parentheses
moving along. -/
theorem Placed.interpolated {source text : List Char} {p : Position} {ts : List Token} {depth : Nat}
    (h : Placed p ts text) (stands : Rest source p text)
    (closes : TokenKind.Closes depth (ts.map (·.kind)))
    (gaps : ∀ gap ∈ Token.gaps source p.offset ts, Passed gap)
    (quoted : ∀ t ∈ ts, Lexeme.Quoted t.kind t.chars → Passed t.chars) :
    Spells (.interpolation depth) (text ++ [')']) := by
  induction h generalizing depth with
  | done =>
    obtain rfl := closes.of_nil
    rw [Token.gaps, stands.dropBytes] at gaps
    exact gaps _ (.head _)
  | @token p gap t ts rest whole _ sound span _ ih =>
    obtain ⟨gapPassed, gaps⟩ := List.forall_mem_cons.mp gaps
    obtain ⟨tokenPassed, quoted⟩ := List.forall_mem_cons.mp quoted
    have slice : Text.slice p.offset t.span.start source = gap := by
      have start : t.span.start - p.offset = byteLength gap := by
        rw [span]
        simp [Span.between, Position.offset_advance]
      rw [Text.slice, stands.dropBytes, start, Text.takeBytes_byteLength_append]
    have later {depth : Nat} (closes : TokenKind.Closes depth (ts.map (·.kind))) :
        Spells (.interpolation depth) (rest ++ [')']) := by
      refine ih ?_ closes ?_ quoted
      · rw [← List.append_assoc] at stands
        exact stands.advance
      · rwa [span] at gaps
    rw [slice] at gapPassed
    rw [List.append_assoc, List.append_assoc]
    refine gapPassed.before whole.not_endsQuote ?_
    rw [List.map_cons] at closes
    by_cases opens : t.kind = .opening .parenthesis
    · rw [opens] at closes
      rw [sound.spelled.eq_mark (by rw [opens]; rfl)]
      exact .opening (later closes.opening)
    · by_cases closing : t.kind = .closing .parenthesis
      · rw [closing] at closes
        obtain ⟨outer, rfl, closed⟩ := closes.closing
        rw [sound.spelled.eq_mark (by rw [closing]; rfl)]
        exact .closing (later closed)
      · exact sound.spelled.interpolated sound.stops tokenPassed opens closing
          (later (closes.other opens closing))

/-! ### Literals around code

From the code to the literal: the quote and the escape in front, and the parenthesis and the quote
behind. -/

/-- A literal that is a whole text: its span begins with the text and ends with it, nothing stands
in front of it. -/
def Token.literal (text : String) : Token where
  kind := .stringLiteral
  text := text
  span := ⟨0, byteLength text.toList, 1, 1⟩
  newlineBefore := false
  touches := true

/-- A text is one token, and that a literal, exactly if it is spelled as one. -/
theorem tokenize_literal_iff {text : String} :
    tokenize text = .ok [Token.literal text] ↔ Spelling .stringLiteral text.toList := by
  constructor
  · intro tokens
    exact (placed_of_tokenize tokens).spelled _ (.head _)
  · intro spelled
    have stops : Stops text.toList [] .stringLiteral := nofun
    have cut : Cut [⟨⟨[], false⟩, .stringLiteral, text.toList⟩] ([] ++ (text.toList ++ [])) :=
      .lexeme .nil spelled stops (.done trailing_nil)
    rw [List.append_nil, List.nil_append] at cut
    rw [tokenize, Cut.lexemes_iff.mpr cut]
    simp [Token.place, Token.literal, Span.between, Position.offset_advance, Position.start]

/-- The literal that holds nothing but an interpolation of some code: a quote, the escape, the code
between parentheses, and a quote. -/
def interpolating (code : String) : String :=
  "\"\\(" ++ code ++ ")\""

namespace Literal

/-- Behind a parenthesis that the reader of interpolations takes for the last, a literal of one line
may go on. The parenthesis may be one within the code, so this says what the reader does, not what
was meant. -/
def Interpolable (code : List Char) : Prop :=
  ∃ inner rest, code ++ [')', '"'] = inner ++ rest ∧ Spells (.interpolation 0) inner ∧
    Spells (.body ⟨false, 0⟩) rest

/-- The parenthesis behind code that the reader gets over is such a one. -/
theorem Passed.interpolable {code : List Char} (h : Passed code) : Interpolable code :=
  ⟨code ++ [')'], ['"'], by simp, h, .close⟩

/-- Behind the escape of an interpolation, a literal is read as that and what remains of the
literal. -/
theorem spells_interpolated_iff {d : Delimiter} {cs : List Char} :
    Spells (.body d) (d.escape ++ '(' :: cs) ↔
      ∃ inner rest, cs = inner ++ rest ∧ Spells (.interpolation 0) inner ∧
        Spells (.body d) rest := by
  constructor
  · intro h
    generalize made : d.escape ++ '(' :: cs = text at h
    cases h with
    | close => exact absurd ⟨[], by rw [List.append_nil, made]⟩ Delimiter.not_closing_of_escape
    | @interpolated _ inner rest interpolation body =>
      cases List.append_cancel_left made
      exact ⟨inner, rest, rfl, interpolation, body⟩
    | escaped noInterpolation =>
      cases List.append_cancel_left made
      exact absurd rfl noInterpolation
    | plain _ noEscape => exact absurd ⟨_, made⟩ noEscape
  · rintro ⟨inner, rest, rfl, interpolation, body⟩
    exact .interpolated interpolation body

end Literal

theorem toList_interpolating (code : String) :
    (interpolating code).toList = '"' :: '\\' :: '(' :: (code.toList ++ [')', '"']) := by
  simp [interpolating]

/-- The literal around some code is one token exactly if it can go on behind the parenthesis that is
taken for the end of the code. -/
theorem tokenize_interpolating_iff {code : String} :
    tokenize (interpolating code) = .ok [Token.literal (interpolating code)] ↔
      Literal.Interpolable code.toList := by
  rw [tokenize_literal_iff, toList_interpolating, Literal.Interpolable,
    ← Literal.spells_interpolated_iff]
  constructor
  · intro spelled
    cases spelled with
    | string literal =>
      cases literal with
      | short body => exact body
  · intro body
    exact .string (.short body (by simp))

/-- Interpolation is lexed like code: a literal around code whose parentheses balance is one token,
if the reader of interpolations gets over the gaps, the raw literals and the names in backticks of
the code. Whatever it makes of them, the literal is one token exactly if it can go on behind the
parenthesis that is taken for the end of the code.

The first half is a condition on the code, token by token, that can be checked; the second is exact,
but speaks of the reader. Line feeds are not excluded by either: a gap with a line feed is passed
like any other. -/
theorem tokenize_interpolating {code : String} {ts : List Token} (cut : tokenize code = .ok ts)
    (closes : TokenKind.Closes 0 (ts.map (·.kind))) :
    (Token.Passable code.toList ts →
        tokenize (interpolating code) = .ok [Token.literal (interpolating code)]) ∧
      (tokenize (interpolating code) = .ok [Token.literal (interpolating code)] ↔
        Literal.Interpolable code.toList) := by
  refine ⟨fun passable => ?_, tokenize_interpolating_iff⟩
  have passed : Passed code.toList :=
    (placed_of_tokenize cut).interpolated .start closes passable.gaps passable.quoted
  exact tokenize_interpolating_iff.mpr passed.interpolable

/-- A call with an interpolation in a literal, a raw literal, a comment and a name in backticks. -/
def interpolatedCall : String :=
  "f(\"a\\(b(c))\", #\"d\"#/* (e) */).`g`"

/-- The theorem at a call that holds one of each part that might mislead the reader, and none that
does. -/
theorem tokenize_interpolating_call :
    ∃ ts, tokenize interpolatedCall = .ok ts ∧ TokenKind.Closes 0 (ts.map (·.kind)) ∧
      Token.Passable interpolatedCall.toList ts ∧
      tokenize (interpolating interpolatedCall) =
        .ok [Token.literal (interpolating interpolatedCall)] := by
  have holds : (tokenize interpolatedCall).toOption.any (fun ts =>
      decide (TokenKind.Closes 0 (ts.map (·.kind)) ∧ Token.Passable interpolatedCall.toList ts)) =
        true := by
    decide +kernel
  obtain ⟨ts, tokens, holds⟩ := ok_of_any holds
  obtain ⟨closes, passable⟩ := of_decide_eq_true holds
  exact ⟨ts, tokens, closes, passable, (tokenize_interpolating tokens closes).1 passable⟩

/-- The raw literal of a backslash is taken for a plain one that does not end there. The code is cut
into tokens by itself and its parentheses balance, but the literal around it is an error. -/
theorem tokenize_interpolating_backslash :
    ∃ ts, tokenize "f(#\"\\\"#)" = .ok ts ∧ '\n' ∉ "f(#\"\\\"#)".toList ∧
      TokenKind.Closes 0 (ts.map (·.kind)) ∧
      tokenize (interpolating "f(#\"\\\"#)") = .error ⟨1, 1, .unterminatedString⟩ := by
  have holds : (tokenize "f(#\"\\\"#)").toOption.any
      (fun ts => decide (TokenKind.Closes 0 (ts.map (·.kind)))) = true := by
    decide +kernel
  obtain ⟨ts, tokens, closes⟩ := ok_of_any holds
  exact ⟨ts, tokens, by decide, of_decide_eq_true closes, by decide +kernel⟩

end CodableSynthesis
