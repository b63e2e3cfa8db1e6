import CodableSynthesis.Proofs.Lexing.Words

/-!
What happens where a text is cut out or put in. A token stays what it is in front of a text that
begins like the one that followed it; and where two plain names meet, one name is read.

* `Like.stops`: a token in front of a text that begins alike.
* `startsName_spelling`, `Lexes.of_startsName`: when a text begins with a plain name, and what it
  begins with then.
* `Lexes.fuse`: a plain name directly in front of another.
* `Whole.trim`: a gap that is cut off within its last white space, and a line feed in its place.

`Like old new` is as weak as it can be for its use. Two texts that begin with the same character are
alike, unless the lexer might look beyond it: at a point, which a digit may follow, and at number
signs, which a quote may follow. White space may come in for anything, since nothing goes on with
white space.
-/

namespace CodableSynthesis

open Text (isWhiteSpace)
open Trivia (Whole)
open Lexeme (Spelling Stops EndsPlain startsName continuesName punctuation?)

/-- The text begins with a plain name. -/
def StartsName (cs : List Char) : Prop :=
  ∃ c ∈ cs.head?, startsName c = true

/-- The text goes on with a name at most by beginning one. -/
def Bare (cs : List Char) : Prop :=
  ∀ c ∈ cs.head?, continuesName c = true → startsName c = true

/-- `Like old new`: a token that `old` does not go on with is not gone on with by `new`. Both begin
with the same characters, as far as a lexer may look ahead, or `new` begins with white space. -/
inductive Like : List Char → List Char → Prop
  | nil : Like [] []
  | ahead {c : Char} {old new : List Char} :
      Like old new → Like (c :: old) (c :: new)
  | same {c : Char} {old new : List Char} :
      c ≠ '.' → c ≠ '#' → Like (c :: old) (c :: new)
  | space {c : Char} {old new : List Char} : isWhiteSpace c = true → Like old (c :: new)

namespace Like

variable {old new front : List Char}

theorem refl (cs : List Char) : Like cs cs := by
  induction cs with
  | nil => exact nil
  | cons c cs ih => exact ahead ih

/-- More may stand in front of both. -/
theorem append (h : Like old new) (front : List Char) : Like (front ++ old) (front ++ new) := by
  induction front with
  | nil => exact h
  | cons c front ih => exact ahead ih

/-- The new text begins like the old one or with white space. -/
theorem head (h : Like old new) : ∀ c ∈ new.head?, c ∈ old.head? ∨ isWhiteSpace c = true := by
  cases h with
  | nil => nofun
  | ahead | same => exact fun c first => .inl first
  | space white =>
    rintro _ ⟨⟩
    exact .inr white

/-- What the old text does not begin with, the new one does not either, white space apart. -/
theorem head_ne (h : Like old new) {c : Char} (plain : isWhiteSpace c = false)
    (other : old.head? ≠ some c) : new.head? ≠ some c := by
  intro first
  rcases h.head c first with same | white
  · exact other same
  · rw [plain] at white
    cases white

/-- A name that ends in front of the one ends in front of the other. -/
theorem endsName (h : Like old new) (ends : EndsName old) : EndsName new := by
  intro c first
  rcases h.head c first with same | white
  · exact ends c same
  · exact Lexeme.continuesName_of_isWhiteSpace white

theorem bare (h : Like old new) (bare : Bare old) : Bare new := by
  intro c first continues
  rcases h.head c first with same | white
  · exact bare c same continues
  · rw [Lexeme.continuesName_of_isWhiteSpace white] at continues
    cases continues

/-- A number that ends in front of the one ends in front of the other; here the second character may
matter. -/
theorem continuesNumber (h : Like old new) (goesOn : Literal.ContinuesNumber new) :
    Literal.ContinuesNumber old := by
  rcases goesOn with ⟨c, first, continues⟩ | ⟨d, more, rfl, digit⟩
  · rcases h.head c first with same | white
    · exact .inl ⟨c, same, continues⟩
    · rw [Lexeme.isWhiteSpace_of_isAlphanum continues] at white
      cases white
  · cases h with
    | ahead later =>
      rcases later.head d rfl with same | white
      · obtain ⟨more, rfl⟩ := List.head?_eq_some_iff.mp same
        exact .inr ⟨d, more, rfl, digit⟩
      · have plain := Lexeme.isWhiteSpace_of_continuesName (Lexeme.continuesName_of_isDigit digit)
        rw [plain] at white
        cases white
    | same noPoint => exact absurd rfl noPoint
    | space white => cases white

/-- Number signs with a quote behind them begin a literal; only where the old text has them does the
new one. -/
theorem quoted (h : Like old new) (quote : (new.dropWhile (· == '#')).head? = some '"') :
    (old.dropWhile (· == '#')).head? = some '"' := by
  induction h with
  | nil => cases quote
  | @ahead c old new _ ih =>
    by_cases pound : c = '#'
    · subst pound
      exact ih quote
    · rw [List.dropWhile_cons_of_neg (by simp [pound])] at quote ⊢
      exact quote
  | @same c old new _ noPound =>
    rw [List.dropWhile_cons_of_neg (by simp [noPound])] at quote ⊢
    exact quote
  | @space c old new white =>
    have noPound : c ≠ '#' := by
      rintro rfl
      cases white
    rw [List.dropWhile_cons_of_neg (by simp [noPound])] at quote
    cases quote
    cases white

/-- A token that the one text does not go on with is not gone on with by the other. -/
theorem stops (h : Like old new) {kind : TokenKind} {text : List Char}
    (stops : Stops text old kind) : Stops text new kind := by
  cases kind with
  | ident => exact fun plain => h.endsName (stops plain)
  | number => exact fun goesOn => stops (h.continuesNumber goesOn)
  | stringLiteral => exact fun empty => h.head_ne (by decide) (stops empty)
  | pound => exact fun quote => stops (h.quoted quote)
  | operator =>
    refine ⟨fun minus => h.head_ne (by decide) (stops.1 minus), fun slash => ⟨?_, ?_⟩⟩
    · exact h.head_ne (by decide) (stops.2 slash).1
    · exact h.head_ne (by decide) (stops.2 slash).2
  | _ => trivial

end Like

/-! ### Names that meet -/

/-- A token begins like a plain name if it is one. -/
theorem startsName_spelling {kind : TokenKind} {text rest : List Char} (h : Spelling kind text) :
    StartsName (text ++ rest) ↔ kind = .ident ∧ text.head? ≠ some '`' := by
  constructor
  · rintro ⟨c, first, starts⟩
    cases h with
    | punctuation is =>
      cases first
      rw [Lexeme.punctuation?_of_startsName starts] at is
      cases is
    | number digit =>
      cases first
      rw [Lexeme.isDigit_of_startsName starts] at digit
      cases digit
    | name starts =>
      refine ⟨rfl, fun tick => ?_⟩
      cases tick
      exact absurd starts (by decide)
    | operator _ _ _ _ _ noName =>
      cases first
      rw [starts] at noName
      cases noName
    | arrow | string | rawString | pound | quoted =>
      cases first
      exact absurd starts (by decide)
  · rintro ⟨rfl, plain⟩
    cases h with
    | punctuation is => cases Lexeme.mark?_of_punctuation? is
    | quoted => exact absurd rfl plain
    | name starts => exact ⟨_, rfl, starts⟩

theorem not_startsName_of_isWhiteSpace {c : Char} {cs : List Char} (h : isWhiteSpace c = true) :
    ¬ StartsName (c :: cs) := by
  rintro ⟨_, ⟨⟩, starts⟩
  have := Lexeme.isWhiteSpace_of_continuesName (Lexeme.continuesName_of_startsName starts)
  rw [h] at this
  cases this

theorem endsName_of_bare {cs : List Char} (bare : Bare cs) (other : ¬ StartsName cs) :
    EndsName cs := by
  intro c first
  cases continues : continuesName c with
  | false => rfl
  | true => exact absurd ⟨c, first, bare c first continues⟩ other

namespace Lexes

/-- A text that begins with a plain name has it as its first token. -/
theorem of_startsName {cs : List Char} {ws : List Word} (h : Lexes cs ws) (starts : StartsName cs) :
    ∃ c name rest later, cs = c :: (name ++ rest) ∧ ws = (.ident, c :: name) :: later ∧
      startsName c = true ∧ (∀ d ∈ name, continuesName d = true) ∧ EndsName rest ∧
      Lexes rest later := by
  obtain ⟨ls, cut, rfl⟩ := h.cut
  obtain ⟨c, first, starts⟩ := starts
  have plain := Lexeme.isWhiteSpace_of_continuesName (Lexeme.continuesName_of_startsName starts)
  have noSlash : c ≠ '/' := by
    rintro rfl
    exact absurd starts (by decide)
  cases cut with
  | done trailing =>
    obtain ⟨crossed, front, open_, text, whole, openComment, -⟩ := trailing
    dsimp only at text
    subst text
    cases whole with
    | nil =>
      cases openComment with
      | none => cases first
      | line => cases first; exact absurd rfl noSlash
    | space white =>
      cases first
      rw [white] at plain
      cases plain
    | line | block => cases first; exact absurd rfl noSlash
  | @lexeme gap kind text rest ls whole spelled stops later =>
    obtain ⟨gap, crossed⟩ := gap
    dsimp only at whole first
    cases whole with
    | nil =>
      have named := (@startsName_spelling _ _ rest spelled).mp ⟨c, first, starts⟩
      obtain ⟨rfl, noTick⟩ := named
      cases spelled with
      | punctuation is => cases Lexeme.mark?_of_punctuation? is
      | quoted => exact absurd rfl noTick
      | @name d more starts continues =>
        exact ⟨d, more, rest, _, rfl, rfl, starts, continues, stops noTick, later.lexes⟩
    | space white =>
      cases first
      rw [white] at plain
      cases plain
    | line | block => cases first; exact absurd rfl noSlash

/-- A plain name directly in front of another becomes one name with it. -/
theorem fuse {name cs : List Char} {ws : List Word} (h : Lexes cs ws) (starts : StartsName cs)
    (spelled : Spelling .ident name) (plain : name.head? ≠ some '`') :
    ∃ ws', Lexes (name ++ cs) ws' ∧ ws'.length = ws.length := by
  obtain ⟨c, more, rest, later, rfl, rfl, starts, continues, ends, lexes⟩ := h.of_startsName starts
  cases spelled with
  | punctuation is => cases Lexeme.mark?_of_punctuation? is
  | quoted => exact absurd rfl plain
  | @name d text starts' continues' =>
    have goesOn : ∀ e ∈ text ++ c :: more, continuesName e = true := by
      refine List.forall_mem_append.mpr ⟨continues', List.forall_mem_cons.mpr ⟨?_, continues⟩⟩
      exact Lexeme.continuesName_of_startsName starts
    refine ⟨(.ident, d :: (text ++ c :: more)) :: later, ?_, rfl⟩
    have := Lexes.token (.name starts' goesOn) (fun _ => ends) lexes
    simpa using this

end Lexes

/-! ### Gaps -/

namespace Trivia

/-- A block comment ends with a slash, so white space behind it is no part of it. -/
theorem closeComment_ends {depth : Nat} {cs body rest : List Char}
    (h : closeComment depth cs = some (body, rest)) : ∃ front, body = front ++ ['/'] := by
  fun_induction closeComment depth cs generalizing body with
  | case1 depth cs ih | case3 cs outer ih =>
    obtain ⟨⟨inner, after⟩, hi, he⟩ := Option.map_eq_some_iff.mp h
    cases he
    obtain ⟨front, rfl⟩ := ih hi
    exact ⟨_ :: _ :: front, rfl⟩
  | case2 cs =>
    cases h
    exact ⟨['*'], rfl⟩
  | case4 depth c cs _ _ ih =>
    obtain ⟨⟨inner, after⟩, hi, he⟩ := Option.map_eq_some_iff.mp h
    cases he
    obtain ⟨front, rfl⟩ := ih hi
    exact ⟨c :: front, rfl⟩
  | case5 => cases h

theorem whole_lineFeed : Whole ['\n'] true :=
  .space isWhiteSpace_lineFeed .nil

/-- A gap begins with white space or with a slash. -/
theorem Whole.head {gap : List Char} {crossed : Bool} (h : Whole gap crossed) (some_ : gap ≠ []) :
    ∃ c more, gap = c :: more ∧ (isWhiteSpace c = true ∨ c = '/') := by
  cases h with
  | nil => exact absurd rfl some_
  | space white => exact ⟨_, _, rfl, .inl white⟩
  | line | block => exact ⟨_, _, rfl, .inr rfl⟩

theorem Whole.not_startsName {gap : List Char} {crossed : Bool} (h : Whole gap crossed)
    (some_ : gap ≠ []) (rest : List Char) : ¬ StartsName (gap ++ rest) := by
  obtain ⟨c, more, rfl, white | rfl⟩ := h.head some_
  · exact not_startsName_of_isWhiteSpace white
  · rintro ⟨_, ⟨⟩, starts⟩
    exact absurd starts (by decide)

theorem Whole.like {gap : List Char} {crossed : Bool} (h : Whole gap crossed) (some_ : gap ≠ [])
    (old new : List Char) : Like (gap ++ old) (gap ++ new) := by
  obtain ⟨c, more, rfl, white | rfl⟩ := h.head some_
  · refine .same ?_ ?_ <;> (rintro rfl; cases white)
  · exact .same (by decide) (by decide)

/-- White space at the end of a gap may be cut off, if a line feed stands in its place. The white
space may begin within a line comment, which the line feed then ends. -/
theorem Whole.trim {gap : List Char} {crossed : Bool} (h : Whole gap crossed)
    {kept space : List Char} (made : gap = kept ++ space)
    (white : ∀ c ∈ space, isWhiteSpace c = true) : ∃ crossed', Whole (kept ++ ['\n']) crossed' := by
  induction h generalizing kept with
  | nil =>
    obtain ⟨rfl, -⟩ := List.append_eq_nil_iff.mp made.symm
    exact ⟨_, whole_lineFeed⟩
  | space isSpace _ ih =>
    cases kept with
    | nil => exact ⟨_, whole_lineFeed⟩
    | cons c kept =>
      cases made
      obtain ⟨_, whole⟩ := ih rfl
      exact ⟨_, .space isSpace whole⟩
  | @line comment gap crossed within later ih =>
    cases kept with
    | nil => exact ⟨_, whole_lineFeed⟩
    | cons c kept =>
      cases kept with
      | nil =>
        cases made
        cases white '/' (.head _)
      | cons d kept =>
        simp only [List.cons_append, List.cons.injEq] at made
        obtain ⟨rfl, rfl, made⟩ := made
        rcases List.append_eq_append_iff.mp made with ⟨more, rfl, same⟩ | ⟨more, rfl, same⟩
        · obtain ⟨_, whole⟩ := ih same
          cases more with
          | nil => exact ⟨_, by simpa using .line within whole⟩
          | cons e more =>
            cases same
            exact ⟨_, by simpa using .line within whole⟩
        · refine ⟨_, .line (fun e mem => within e (List.mem_append_left _ mem)) whole_lineFeed⟩
  | @block comment gap crossed closes _ ih =>
    cases kept with
    | nil => exact ⟨_, whole_lineFeed⟩
    | cons c kept =>
      cases kept with
      | nil =>
        cases made
        cases white '*' (.head _)
      | cons d kept =>
        simp only [List.cons_append, List.cons.injEq] at made
        obtain ⟨rfl, rfl, made⟩ := made
        rcases List.append_eq_append_iff.mp made with ⟨more, rfl, same⟩ | ⟨more, rfl, same⟩
        · obtain ⟨_, whole⟩ := ih same
          exact ⟨_, by simpa using .block closes whole⟩
        · -- the comment ends with a slash, which is no white space
          rcases List.eq_nil_or_concat more with rfl | ⟨inner, e, rfl⟩
          · rw [List.append_nil] at closes
            exact ⟨_, .block closes whole_lineFeed⟩
          · obtain ⟨front, ends⟩ := closeComment_ends closes
            have last := congrArg List.getLast? ends
            simp only [List.getLast?_append, List.getLast?_singleton, List.concat_eq_append,
              Option.some_or, Option.some.injEq] at last
            subst last same
            cases white '/' (by simp)

end Trivia

end CodableSynthesis
