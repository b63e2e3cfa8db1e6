import CodableSynthesis.Proofs.Lexing.Cut

/-!
The tokens of a text by kind and characters alone, wherever they stand.

`Lexes cs ws` may be put together piece by piece, from the end of the text: a gap, or a token that
nothing behind it goes on with. It forgets gaps and places, which is what statements about rewritten
sources need: the tokens are to be the same, and they stand elsewhere.

`Prints text ws` is the case of generated text, which has neither comments nor literals: it is made
of blanks, names and marks, and lexes in front of anything that does not go on with a name. Fixed
pieces of generated text are shown to be printed by evaluating `isPrinted` on them.

* `Lexes.tokenize_iff`: exactly the tokens of the relation are read.
* `Lexes.unique`: a text has one list of tokens.
* `Prints.lexes`, `Prints.append`: printed text in its context, and put together.
* `Printed.fixed`, `Printed.name`, `Printed.append`: how strings are shown to be printed.
-/

namespace CodableSynthesis

open Trivia (Whole Skipped OpenComment)
open Lexeme (Spelling Stops startsName continuesName punctuation?)

/-- A token without its place: its kind and its characters. -/
abbrev Word := TokenKind × List Char

namespace Lexeme

/-- The lexeme without the gap in front of it. -/
def word (l : Lexeme) : Word :=
  (l.kind, l.text)

end Lexeme

namespace Token

/-- The token without its place. -/
def word (t : Token) : Word :=
  (t.kind, t.text.toList)

theorem word_place (ls : List Lexeme) (p : Text.Position) :
    (place p ls).map word = ls.map Lexeme.word := by
  induction ls generalizing p with
  | nil => rfl
  | cons l ls ih =>
    rw [place, List.map_cons, List.map_cons, ih]
    simp [word, Lexeme.word]

end Token

/-- `Lexes cs ws`: the tokens of the text `cs` are `ws`. -/
inductive Lexes : List Char → List Word → Prop
  /-- No more tokens. -/
  | done {tail : List Char} : Trailing tail → Lexes tail []
  /-- A gap may be put in front of anything. -/
  | gap {gap cs : List Char} {crossed : Bool} {ws : List Word} :
      Whole gap crossed → Lexes cs ws → Lexes (gap ++ cs) ws
  /-- A token may be put in front of what does not go on with it. -/
  | token {kind : TokenKind} {text cs : List Char} {ws : List Word} :
      Spelling kind text → Stops text cs kind → Lexes cs ws →
      Lexes (text ++ cs) ((kind, text) :: ws)

theorem Trailing.behind {gap tail : List Char} {crossed : Bool} (h : Trailing tail)
    (whole : Whole gap crossed) : Trailing (gap ++ tail) := by
  obtain ⟨crossed', front, open_, text, whole', openComment, last⟩ := h
  dsimp only at text
  exact ⟨crossed || crossed', gap ++ front, open_, by simp [text], whole.append whole', openComment,
    last⟩

namespace Cut

/-- A text that is cut into lexemes has their words as its tokens. -/
theorem lexes {ls : List Lexeme} {cs : List Char} (h : Cut ls cs) :
    Lexes cs (ls.map Lexeme.word) := by
  induction h with
  | done trailing => exact .done trailing
  | lexeme whole spelled stops _ ih => exact .gap whole (.token spelled stops ih)

theorem behind {ls : List Lexeme} {gap cs : List Char} {crossed : Bool} (h : Cut ls cs)
    (whole : Whole gap crossed) :
    ∃ ls', Cut ls' (gap ++ cs) ∧ ls'.map Lexeme.word = ls.map Lexeme.word := by
  cases h with
  | done trailing => exact ⟨[], .done (trailing.behind whole), rfl⟩
  | @lexeme gap' kind text rest ls whole' spelled stops later =>
    rw [← List.append_assoc]
    exact ⟨⟨⟨gap ++ gap'.text, crossed || gap'.crossed⟩, kind, text⟩ :: ls,
      .lexeme (whole.append whole') spelled stops later, rfl⟩

end Cut

namespace Lexes

/-- A text whose tokens are known is cut into lexemes with these words. -/
theorem cut {cs : List Char} {ws : List Word} (h : Lexes cs ws) :
    ∃ ls, Cut ls cs ∧ ls.map Lexeme.word = ws := by
  induction h with
  | done trailing => exact ⟨[], .done trailing, rfl⟩
  | gap whole _ ih =>
    obtain ⟨ls, cut, rfl⟩ := ih
    exact cut.behind whole
  | @token kind text _ _ spelled stops _ ih =>
    obtain ⟨ls, cut, rfl⟩ := ih
    exact ⟨⟨.none, kind, text⟩ :: ls, @Cut.lexeme .none _ _ _ _ .nil spelled stops cut, rfl⟩

theorem space {c : Char} {cs : List Char} {ws : List Word} (h : Lexes cs ws)
    (white : Text.isWhiteSpace c = true) : Lexes (c :: cs) ws :=
  .gap (.space white .nil) h

theorem spaces {space cs : List Char} {ws : List Word} (h : Lexes cs ws)
    (white : ∀ c ∈ space, Text.isWhiteSpace c = true) : Lexes (space ++ cs) ws := by
  induction space with
  | nil => exact h
  | cons c space ih => exact (ih fun d mem => white d (.tail _ mem)).space (white c (.head _))

/-- A text has exactly the tokens of the relation. -/
theorem tokenize_iff {source : String} {ws : List Word} :
    (∃ ts, tokenize source = .ok ts ∧ ts.map Token.word = ws) ↔ Lexes source.toList ws := by
  constructor
  · rintro ⟨ts, tokens, rfl⟩
    rw [tokenize] at tokens
    split at tokens
    · next ls cut =>
      cases tokens
      rw [Token.word_place]
      exact (Cut.lexemes_iff.mp cut).lexes
    · cases tokens
  · intro h
    obtain ⟨ls, cut, rfl⟩ := h.cut
    refine ⟨Token.place .start ls, ?_, Token.word_place _ _⟩
    rw [tokenize, Cut.lexemes_iff.mpr cut]

/-- A text has one list of tokens. -/
theorem unique {cs : List Char} {ws ws' : List Word} (h : Lexes cs ws) (h' : Lexes cs ws') :
    ws = ws' := by
  obtain ⟨ls, cut, rfl⟩ := h.cut
  obtain ⟨ls', cut', rfl⟩ := h'.cut
  have same := cut.lexemes_eq.symm.trans cut'.lexemes_eq
  cases same
  rfl

end Lexes

/-! ### Generated text -/

/-- `Prints text ws`: the text is made of blanks, names and marks, the tokens `ws`. -/
inductive Prints : List Char → List Word → Prop
  | nil : Prints [] []
  | blank {text : List Char} {ws : List Word} : Prints text ws → Prints (' ' :: text) ws
  | mark {c : Char} {kind : TokenKind} {text : List Char} {ws : List Word} :
      punctuation? c = some kind → Prints text ws → Prints (c :: text) ((kind, [c]) :: ws)
  | arrow {text : List Char} {ws : List Word} :
      Prints text ws → Prints ('-' :: '>' :: text) ((.arrow, ['-', '>']) :: ws)
  | name {name text : List Char} {ws : List Word} :
      Spelling .ident name → Stops name text .ident → Prints text ws →
      Prints (name ++ text) ((.ident, name) :: ws)

/-- The text does not go on with a name. -/
def EndsName (text : List Char) : Prop :=
  ∀ c ∈ text.head?, continuesName c = false

/-- The text ends with no character of a plain name. -/
def Closed (text : List Char) : Prop :=
  ∀ c ∈ text.getLast?, continuesName c = false

/-- Only the first character matters. -/
theorem EndsName.append {text : List Char} (h : EndsName text) (more : List Char)
    (some_ : text ≠ []) : EndsName (text ++ more) := by
  cases text with
  | nil => exact absurd rfl some_
  | cons c text => exact h

theorem Closed.of_append {front text : List Char} (h : Closed (front ++ text)) : Closed text := by
  intro c last
  refine h c ?_
  rw [List.getLast?_append, Option.mem_def.mp last]
  rfl

theorem Closed.tail {c : Char} {text : List Char} (h : Closed (c :: text)) : Closed text :=
  Closed.of_append (show Closed ([c] ++ text) from h)

theorem Closed.append {text : List Char} (h : Closed text) (front : List Char) (some_ : text ≠ []) :
    Closed (front ++ text) := by
  intro c last
  rw [List.getLast?_append] at last
  cases ends : text.getLast? with
  | none => exact absurd (List.getLast?_eq_none_iff.mp ends) some_
  | some d =>
    rw [ends] at last
    exact h c (ends ▸ last)

/-- A name goes on to its last character. -/
theorem stops_of_closed {name rest : List Char} (h : Spelling .ident name) (closed : Closed name) :
    Stops name rest .ident := by
  intro plain
  cases h with
  | punctuation is => cases Lexeme.mark?_of_punctuation? is
  | quoted => exact absurd rfl plain
  | @name c text starts continues =>
    have last := closed _ (List.getLast?_eq_some_getLast (List.cons_ne_nil c text))
    have goesOn : ∀ d ∈ c :: text, continuesName d = true :=
      List.forall_mem_cons.mpr ⟨Lexeme.continuesName_of_startsName starts, continues⟩
    rw [goesOn _ (List.getLast_mem _)] at last
    cases last

/-- A name that ends within printed text, or with its end in front of what does not go on with
it. -/
theorem stops_append {name text rest : List Char} (h : Spelling .ident name)
    (stops : Stops name text .ident) (apart : EndsName rest ∨ Closed (name ++ text)) :
    Stops name (text ++ rest) .ident := by
  cases text with
  | nil =>
    rw [List.append_nil] at apart
    rcases apart with ends | closed
    · exact fun _ => ends
    · exact stops_of_closed h closed
  | cons c text => exact stops

namespace Prints

variable {text rest : List Char} {ws more : List Word}

/-- Printed text lexes in front of what does not go on with a name. -/
theorem lexes (h : Prints text ws) (apart : EndsName rest ∨ Closed text) (later : Lexes rest more) :
    Lexes (text ++ rest) (ws ++ more) := by
  induction h with
  | nil => exact later
  | @blank text _ _ ih =>
    exact (ih (apart.imp_right Closed.tail)).space (by decide)
  | @mark c kind text _ is _ ih =>
    exact .token (.punctuation is) (Lexeme.stops_punctuation is _)
      (ih (apart.imp_right Closed.tail))
  | @arrow text _ _ ih =>
    exact .token .arrow trivial
      (ih (apart.imp_right fun closed => closed.tail.tail))
  | name spelled stops _ ih =>
    rw [List.append_assoc]
    exact .token spelled (stops_append spelled stops apart) (ih (apart.imp_right Closed.of_append))

/-- Printed texts may be put together where no name runs over. -/
theorem append (h : Prints text ws) (later : Prints rest more)
    (apart : EndsName rest ∨ Closed text) :
    Prints (text ++ rest) (ws ++ more) := by
  induction h with
  | nil => exact later
  | @blank text _ _ ih =>
    exact .blank (ih (apart.imp_right Closed.tail))
  | @mark c kind text _ is _ ih =>
    exact .mark is (ih (apart.imp_right Closed.tail))
  | @arrow text _ _ ih =>
    exact .arrow (ih (apart.imp_right fun closed => closed.tail.tail))
  | name spelled stops _ ih =>
    rw [List.append_assoc]
    exact .name spelled (stops_append spelled stops apart) (ih (apart.imp_right Closed.of_append))

/-- Printed text is a single line. -/
theorem lineFeed_not_mem (h : Prints text ws) : '\n' ∉ text := by
  induction h with
  | nil => nofun
  | blank _ ih => exact List.not_mem_cons_of_ne_of_not_mem (by decide) ih
  | mark is _ ih =>
    refine List.not_mem_cons_of_ne_of_not_mem ?_ ih
    rintro rfl
    cases is
  | arrow _ ih =>
    exact List.not_mem_cons_of_ne_of_not_mem (by decide)
      (List.not_mem_cons_of_ne_of_not_mem (by decide) ih)
  | name spelled _ _ ih =>
    rw [List.mem_append]
    rintro (within | later)
    · exact Lexeme.lineFeed_not_mem_name spelled within
    · exact ih later

end Prints

/-! ### Fixed text

Keywords and punctuation of generated code are closed terms. They are decided to be printed
character by character, without listing their tokens. -/

/-- A plain name that may go on. -/
def BeginsName : List Char → Prop
  | [] => False
  | c :: more => startsName c = true ∧ ∀ d ∈ more, continuesName d = true

/-- Whether a text is made of blanks, plain names and marks; `named` tells whether it goes on with a
name. -/
def isPrinted (named : Bool) : List Char → Bool
  | [] => true
  | c :: cs =>
    if continuesName c then (named || startsName c) && isPrinted true cs
    else (c == ' ' || (punctuation? c).isSome) && isPrinted false cs

theorem BeginsName.spelled {name : List Char} (h : BeginsName name) : Spelling .ident name := by
  cases name with
  | nil => exact h.elim
  | cons c more => exact .name h.1 h.2

theorem BeginsName.snoc {name : List Char} {c : Char} (h : name ≠ [] → BeginsName name)
    (continues : continuesName c = true) (named : name = [] → startsName c = true) :
    BeginsName (name ++ [c]) := by
  cases name with
  | nil => exact ⟨named rfl, nofun⟩
  | cons d more =>
    refine ⟨(h nofun).1, List.forall_mem_append.mpr ⟨(h nofun).2, ?_⟩⟩
    exact List.forall_mem_singleton.mpr continues

/-- A text that passes the test is printed. The name collected so far is carried along, and given up
at the first character that does not go on with it. -/
theorem prints_of_isPrinted {name cs : List Char} (h : isPrinted (!name.isEmpty) cs = true)
    (begins : name ≠ [] → BeginsName name) : ∃ ws, Prints (name ++ cs) ws := by
  induction cs generalizing name with
  | nil =>
    cases name with
    | nil => exact ⟨_, .nil⟩
    | cons c more => exact ⟨_, .name (begins nofun).spelled (fun _ _ none => by cases none) .nil⟩
  | cons c cs ih =>
    rw [isPrinted] at h
    split at h
    · next continues =>
      obtain ⟨named, later⟩ := Bool.and_eq_true_iff.mp h
      have goesOn := BeginsName.snoc begins continues fun none => by simpa [none] using named
      rw [List.append_cons]
      refine ih ?_ fun _ => goesOn
      cases name <;> exact later
    · next stops =>
      obtain ⟨known, later⟩ := Bool.and_eq_true_iff.mp h
      obtain ⟨ws, rest⟩ := @ih [] later fun some_ => absurd rfl some_
      have behind : ∃ ws, Prints (c :: cs) ws := by
        cases blank : c == ' ' with
        | true => exact ⟨ws, eq_of_beq blank ▸ .blank rest⟩
        | false =>
          rw [blank, Bool.false_or] at known
          obtain ⟨kind, is⟩ := Option.isSome_iff_exists.mp known
          exact ⟨_, .mark is rest⟩
      obtain ⟨ws, printed⟩ := behind
      cases name with
      | nil => exact ⟨ws, printed⟩
      | cons d more =>
        refine ⟨_, .name (begins nofun).spelled (fun _ e first => ?_) printed⟩
        cases first
        simpa using stops

/-! ### Printed strings -/

/-- A string that is made of blanks, names and marks. -/
def Printed (s : String) : Prop :=
  ∃ ws, Prints s.toList ws

namespace Printed

variable {s t : String}

theorem fixed (h : isPrinted false s.toList = true) : Printed s :=
  @prints_of_isPrinted [] _ h fun some_ => absurd rfl some_

/-- A name is printed. -/
theorem name (h : Spelling .ident s.toList) : Printed s := by
  obtain ⟨ws, printed⟩ : ∃ ws, Prints (s.toList ++ []) ws :=
    ⟨_, .name h (fun _ _ none => by cases none) .nil⟩
  exact ⟨ws, List.append_nil s.toList ▸ printed⟩

theorem append (h : Printed s) (h' : Printed t) (apart : EndsName t.toList ∨ Closed s.toList) :
    Printed (s ++ t) := by
  obtain ⟨ws, first⟩ := h
  obtain ⟨more, second⟩ := h'
  exact ⟨ws ++ more, by rw [String.toList_append]; exact first.append second apart⟩

end Printed

end CodableSynthesis
