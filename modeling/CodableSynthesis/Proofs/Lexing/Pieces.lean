import CodableSynthesis.Proofs.Lexing.Gaps
import CodableSynthesis.Proofs.Lexing.Literals
import CodableSynthesis.Token.Lexer

/-!
The texts of tokens, and what may follow each. Whether a text is a token depends on what follows
only in that nothing may follow that would go on with it.

* `Spelling kind text`: the text is one of a token of that kind.
* `Stops text rest kind`: `rest` does not go on with such a token.
* `reads_scan_iff`: where no gap begins, exactly the spellings of the grammar are scanned.

Only five kinds of tokens can be gone on with: plain names, numbers, the empty literal, a number
sign alone, and the operators that begin an arrow or a comment. For all others `Stops` is true, so
they may be followed by anything. This is what the statements about cut and inserted text rest on: a
place between two tokens is safe if one of its sides is a mark.

The second half of the module is about characters. The sets that the lexer tests overlap in few
ways, and each lemma says that one excludes another; those with tables are decided over the code
points of white space or over the punctuation, not over all characters.
-/

namespace CodableSynthesis

namespace Literal

/-- The text goes on with a number before it: by a letter, a digit or an underscore, or by a point
that a digit follows. -/
def ContinuesNumber (rest : List Char) : Prop :=
  (∃ c ∈ rest.head?, (c.isAlphanum || c == '_') = true) ∨
    ∃ d more, rest = '.' :: d :: more ∧ d.isDigit = true

/-- The text of a number: letters, digits and underscores, and points that a digit follows. -/
inductive Digits : List Char → Prop
  | nil : Digits []
  | cons {c : Char} {text : List Char} :
      (c.isAlphanum || c == '_') = true → Digits text → Digits (c :: text)
  | point {d : Char} {text : List Char} :
      d.isDigit = true → Digits (d :: text) → Digits ('.' :: d :: text)

theorem isAlphanum_of_isDigit {d : Char} (h : d.isDigit = true) :
    (d.isAlphanum || d == '_') = true := by
  simp [Char.isAlphanum, h]

/-- What is read as a number is made of its characters, and nothing behind goes on with it. -/
theorem splits_of_number {cs text rest : List Char} (h : number cs = (text, rest)) :
    cs = text ++ rest ∧ Digits text ∧ ¬ ContinuesNumber rest := by
  fun_induction number cs generalizing text with
  | case1 =>
    cases h
    exact ⟨rfl, .nil, by rintro (⟨_, ⟨⟩, -⟩ | ⟨_, _, ⟨⟩, -⟩)⟩
  | case2 d more digit digits left hn ih =>
    cases h
    obtain ⟨made, spelled, stops⟩ := ih hn
    refine ⟨by rw [made]; rfl, ?_, stops⟩
    cases digits with
    | nil =>
      obtain rfl : d :: more = rest := made
      exact absurd (.inl ⟨d, rfl, isAlphanum_of_isDigit digit⟩) stops
    | cons e digits =>
      cases made
      exact .point digit spelled
  | case3 d more noDigit =>
    cases h
    refine ⟨rfl, .nil, ?_⟩
    rintro (⟨_, ⟨⟩, continues⟩ | ⟨_, _, ⟨⟩, digit⟩)
    · cases continues
    · exact noDigit digit
  | case4 c more noPoint continues digits left hn ih =>
    cases h
    obtain ⟨made, spelled, stops⟩ := ih hn
    exact ⟨by rw [made]; rfl, .cons continues spelled, stops⟩
  | case5 c more noPoint stops =>
    cases h
    refine ⟨rfl, .nil, ?_⟩
    rintro (⟨_, ⟨⟩, continues⟩ | ⟨_, _, ⟨⟩, digit⟩)
    · exact stops continues
    · exact noPoint _ _ rfl rfl

/-- A number is read in front of what does not go on with it. -/
theorem Digits.number_append {text rest : List Char} (h : Digits text)
    (stops : ¬ ContinuesNumber rest) : number (text ++ rest) = (text, rest) := by
  induction h with
  | nil =>
    rw [List.nil_append, number.eq_def]
    split
    · rfl
    · next d more => rw [if_neg fun digit => stops (.inr ⟨d, more, rfl, digit⟩)]
    · next c more _ => rw [if_neg fun continues => stops (.inl ⟨c, rfl, continues⟩)]
  | @cons c text continues _ ih =>
    have noPoint : c ≠ '.' := by
      rintro rfl
      cases continues
    rw [List.cons_append, number.eq_3 _ _ (fun _ _ same _ => noPoint same), if_pos continues, ih]
  | @point d text digit _ ih =>
    rw [show '.' :: d :: text ++ rest = '.' :: d :: (text ++ rest) from rfl, number, if_pos digit,
      ← List.cons_append, ih]

theorem number_eq_iff {cs text rest : List Char} :
    number cs = (text, rest) ↔ cs = text ++ rest ∧ Digits text ∧ ¬ ContinuesNumber rest := by
  refine ⟨splits_of_number, ?_⟩
  rintro ⟨rfl, spelled, stops⟩
  exact spelled.number_append stops

end Literal

namespace Lexeme

/-- What stands between the backticks of a name. -/
def Quotable (name : List Char) : Prop :=
  ∀ c ∈ name, c ≠ '`' ∧ c ≠ '\n'

/-- A name between backticks is read up to the first backtick, if that stands on its line. -/
theorem ticked_eq_iff {cs text rest : List Char} :
    ticked cs = some (text, rest) ↔
      ∃ name, cs = name ++ '`' :: rest ∧ text = name ++ ['`'] ∧ Quotable name := by
  induction cs generalizing text with
  | nil => simp [ticked]
  | cons c cs ih =>
    rw [ticked]
    split
    · next tick =>
      subst tick
      constructor
      · rintro ⟨⟩
        exact ⟨[], rfl, rfl, by simp [Quotable]⟩
      · rintro ⟨name, made, rfl, quotable⟩
        cases name with
        | nil => cases made; rfl
        | cons d name => cases made; exact absurd rfl (quotable _ (.head _)).1
    · next noTick =>
      split
      · next lineFeed =>
        subst lineFeed
        refine ⟨nofun, ?_⟩
        rintro ⟨name, made, rfl, quotable⟩
        cases name with
        | nil => cases made
        | cons d name => cases made; exact absurd rfl (quotable _ (.head _)).2
      · next noLineFeed =>
        rw [Option.map_eq_some_iff]
        constructor
        · rintro ⟨⟨inner, after⟩, found, ⟨⟩⟩
          obtain ⟨name, made, rfl, quotable⟩ := ih.mp found
          refine ⟨c :: name, by rw [made]; rfl, rfl, ?_⟩
          rintro d (- | ⟨_, mem⟩)
          · exact ⟨noTick, noLineFeed⟩
          · exact quotable d mem
        · rintro ⟨name, made, rfl, quotable⟩
          cases name with
          | nil => cases made; exact absurd rfl noTick
          | cons d name =>
            cases made
            exact ⟨_, ih.mpr ⟨name, rfl, rfl, fun d mem => quotable d (.tail _ mem)⟩, rfl⟩

/-! ### Characters

No character is both of a name and white space, and so on. White space is given by ranges, so
statements about it are decided point by point. -/

/-- The code points of white space, one by one. -/
def whiteSpaces : List Nat :=
  Text.whiteSpaceRanges.flatMap fun (first, last) => List.range' first (last + 1 - first)

/-- There are no white-space characters beyond the listed code points. -/
theorem mem_whiteSpaces {c : Char} (h : Text.isWhiteSpace c = true) : c.toNat ∈ whiteSpaces := by
  obtain ⟨r, mem, lower, upper⟩ := Text.exists_of_inRanges h
  exact List.mem_flatMap.mpr ⟨r, mem, List.mem_range'_1.mpr ⟨lower, by omega⟩⟩

theorem continuesName_of_isWhiteSpace {c : Char} (h : Text.isWhiteSpace c = true) :
    continuesName c = false := by
  have table : ∀ n ∈ whiteSpaces, continuesName (Char.ofNat n) = false := by decide +kernel
  have this := table _ (mem_whiteSpaces h)
  rwa [Char.ofNat_toNat] at this

theorem continuesName_of_startsName {c : Char} (h : startsName c = true) :
    continuesName c = true := by
  rw [continuesName]
  rw [startsName] at h
  rw [h, Bool.true_or]

theorem continuesName_of_isDigit {c : Char} (h : c.isDigit = true) : continuesName c = true := by
  simp [continuesName, Text.isNumeric, h]

theorem isWhiteSpace_of_continuesName {c : Char} (h : continuesName c = true) :
    Text.isWhiteSpace c = false := by
  cases space : Text.isWhiteSpace c with
  | false => rfl
  | true => rw [continuesName_of_isWhiteSpace space] at h; cases h

/-- No name begins with a digit. -/
theorem isDigit_of_startsName {c : Char} (h : startsName c = true) : c.isDigit = false := by
  cases digit : c.isDigit with
  | false => rfl
  | true =>
    have bounds : 48 ≤ c.toNat ∧ c.toNat ≤ 57 := by
      simp only [Char.isDigit, Bool.and_eq_true, decide_eq_true_eq, ge_iff_le,
        UInt32.le_iff_toNat_le] at digit
      exact digit
    have table : ∀ n ∈ List.range' 48 10, startsName (Char.ofNat n) = false := by decide
    have this := table c.toNat (List.mem_range'_1.mpr (by omega))
    rw [Char.ofNat_toNat, h] at this
    cases this

theorem punctuation?_of_startsName {c : Char} (h : startsName c = true) :
    punctuation? c = none := by
  rw [punctuation?.eq_def]
  split
  all_goals first | rfl | (revert h; decide)

theorem punctuation?_of_isDigit {c : Char} (h : c.isDigit = true) : punctuation? c = none := by
  rw [punctuation?.eq_def]
  split
  all_goals first | rfl | (revert h; decide)

/-- Neither white space nor the slash of a comment is punctuation. -/
theorem plain_of_punctuation? {c : Char} {kind : TokenKind} (h : punctuation? c = some kind) :
    Text.isWhiteSpace c = false ∧ c ≠ '/' := by
  rw [punctuation?.eq_def] at h
  split at h
  all_goals first | decide | cases h

/-! ### Spellings

One constructor for each way in which the lexer makes a token. -/

/-- The texts of tokens of each kind. -/
inductive Spelling : TokenKind → List Char → Prop
  | punctuation {c : Char} {kind : TokenKind} : punctuation? c = some kind → Spelling kind [c]
  | arrow : Spelling .arrow ['-', '>']
  | string {text : List Char} :
      Literal.Spells (.literal 0) text → Spelling .stringLiteral ('"' :: text)
  | rawString {pounds : Nat} {text : List Char} :
      Literal.Spells (.literal (pounds + 1)) text →
      Spelling .stringLiteral ('#' :: (List.replicate pounds '#' ++ '"' :: text))
  | pound : Spelling .pound ['#']
  | quoted {name : List Char} : Quotable name → Spelling .ident ('`' :: (name ++ ['`']))
  | number {d : Char} {text : List Char} :
      d.isDigit = true → Literal.Digits (d :: text) → Spelling .number (d :: text)
  | name {c : Char} {text : List Char} :
      startsName c = true → (∀ d ∈ text, continuesName d = true) → Spelling .ident (c :: text)
  /-- Any character that begins nothing else is an operator by itself. -/
  | operator {c : Char} :
      punctuation? c = none → c ≠ '"' → c ≠ '#' → c ≠ '`' → c.isDigit = false →
      startsName c = false → Text.isWhiteSpace c = false → Spelling .operator [c]

/-- The one character that tokens of a kind are. -/
def mark? : TokenKind → Option Char
  | .opening .brace => some '\x7b'
  | .closing .brace => some '\x7d'
  | .opening .parenthesis => some '('
  | .closing .parenthesis => some ')'
  | .opening .square => some '['
  | .closing .square => some ']'
  | .less => some '<'
  | .greater => some '>'
  | .colon => some ':'
  | .comma => some ','
  | .semicolon => some ';'
  | .dot => some '.'
  | .question => some '?'
  | .bang => some '!'
  | .equals => some '='
  | .ampersand => some '&'
  | .atSign => some '@'
  | _ => none

theorem mark?_of_punctuation? {c : Char} {kind : TokenKind} (h : punctuation? c = some kind) :
    mark? kind = some c := by
  rw [punctuation?.eq_def] at h
  split at h
  all_goals first | (cases h; rfl) | cases h

theorem Spelling.eq_mark {kind : TokenKind} {text : List Char} {c : Char} (h : Spelling kind text)
    (mark : mark? kind = some c) : text = [c] := by
  cases h with
  | punctuation is =>
    rw [mark?_of_punctuation? is] at mark
    cases mark
    rfl
  | _ => cases mark

/-- What follows the text of a token does not go on with it. -/
def Stops (text rest : List Char) : TokenKind → Prop
  | .ident => text.head? ≠ some '`' → ∀ c ∈ rest.head?, continuesName c = false
  | .number => ¬ Literal.ContinuesNumber rest
  | .stringLiteral => text = ['"', '"'] → rest.head? ≠ some '"'
  | .pound => (rest.dropWhile (· == '#')).head? ≠ some '"'
  | .operator =>
    (text = ['-'] → rest.head? ≠ some '>') ∧
      (text = ['/'] → rest.head? ≠ some '/' ∧ rest.head? ≠ some '*')
  | _ => True

/-- A token does not begin with white space, and with a slash only if it is one. -/
theorem Spelling.head {kind : TokenKind} {text : List Char} (h : Spelling kind text) :
    ∃ c more, text = c :: more ∧ Text.isWhiteSpace c = false ∧
      (c = '/' → kind = .operator ∧ more = []) := by
  cases h with
  | punctuation is =>
    have plain := plain_of_punctuation? is
    exact ⟨_, _, rfl, plain.1, fun same => absurd same plain.2⟩
  | number digit _ =>
    refine ⟨_, _, rfl, isWhiteSpace_of_continuesName (continuesName_of_isDigit digit), ?_⟩
    rintro rfl
    cases digit
  | name starts _ =>
    refine ⟨_, _, rfl, isWhiteSpace_of_continuesName (continuesName_of_startsName starts), ?_⟩
    rintro rfl
    exact absurd starts (by decide)
  | operator _ _ _ _ _ _ noSpace => exact ⟨_, _, rfl, noSpace, fun _ => ⟨rfl, rfl⟩⟩
  | arrow | string | rawString | pound | quoted => exact ⟨_, _, rfl, by decide, nofun⟩

theorem isWhiteSpace_of_isAlphanum {c : Char} (h : (c.isAlphanum || c == '_') = true) :
    Text.isWhiteSpace c = false := by
  apply isWhiteSpace_of_continuesName
  simp only [Char.isAlphanum, Bool.or_eq_true] at h
  rcases h with (alpha | digit) | underscore
  · simp [continuesName, Text.isAlphabetic, alpha]
  · exact continuesName_of_isDigit digit
  · simp [continuesName, underscore]

/-- No character of a number is white space. -/
theorem isWhiteSpace_of_digits {text : List Char} (h : Literal.Digits text) :
    ∀ c ∈ text, Text.isWhiteSpace c = false := by
  induction h with
  | nil => nofun
  | cons continues _ ih =>
    rintro d (- | ⟨_, mem⟩)
    · exact isWhiteSpace_of_isAlphanum continues
    · exact ih d mem
  | point _ _ ih =>
    rintro d (- | ⟨_, mem⟩)
    · decide
    · exact ih d mem

/-- The text ends with a character that is no white space. -/
def EndsPlain (text : List Char) : Prop :=
  ∃ c ∈ text.getLast?, Text.isWhiteSpace c = false

/-- What stands in front does not matter. -/
theorem EndsPlain.append {text : List Char} (h : EndsPlain text) (front : List Char) :
    EndsPlain (front ++ text) := by
  obtain ⟨c, last, plain⟩ := h
  refine ⟨c, ?_, plain⟩
  rw [List.getLast?_append, Option.mem_def.mp last]
  rfl

theorem endsPlain_of_all {c : Char} {text : List Char}
    (h : ∀ d ∈ c :: text, Text.isWhiteSpace d = false) : EndsPlain (c :: text) :=
  ⟨_, List.getLast?_eq_some_getLast (List.cons_ne_nil _ _), h _ (List.getLast_mem _)⟩

theorem endsPlain_closing (d : Literal.Delimiter) : EndsPlain d.closing := by
  obtain ⟨multiline, pounds⟩ := d
  cases pounds with
  | zero => cases multiline <;> exact ⟨'"', rfl, by decide⟩
  | succ n =>
    rw [Literal.Delimiter.closing, List.replicate_succ']
    exact EndsPlain.append (EndsPlain.append ⟨'#', rfl, by decide⟩ _) _

/-- A literal ends with a quote or a number sign. -/
theorem endsPlain_of_literal {pounds : Nat} {text : List Char}
    (h : Literal.Spells (.literal pounds) text) : EndsPlain text := by
  cases h with
  | short body _ =>
    obtain ⟨front, rfl⟩ := body.closing_suffix
    exact (endsPlain_closing _).append front
  | long body =>
    obtain ⟨front, rfl⟩ := body.closing_suffix
    exact ((endsPlain_closing _).append front).append ['"', '"']

/-- A token ends with no white space. -/
theorem Spelling.endsPlain {kind : TokenKind} {text : List Char} (h : Spelling kind text) :
    EndsPlain text := by
  cases h with
  | punctuation is => exact ⟨_, rfl, (plain_of_punctuation? is).1⟩
  | operator _ _ _ _ _ _ noSpace => exact ⟨_, rfl, noSpace⟩
  | arrow | pound => exact ⟨_, rfl, by decide⟩
  | string spelled => exact (endsPlain_of_literal spelled).append ['"']
  | @rawString pounds text spelled =>
    exact ((endsPlain_of_literal spelled).append ['"']).append ('#' :: List.replicate pounds '#')
  | @quoted name _ => exact EndsPlain.append ⟨'`', rfl, by decide⟩ ('`' :: name)
  | number _ spelled => exact endsPlain_of_all (isWhiteSpace_of_digits spelled)
  | name starts continues =>
    refine endsPlain_of_all ?_
    rintro d (- | ⟨_, mem⟩)
    · exact isWhiteSpace_of_continuesName (continuesName_of_startsName starts)
    · exact isWhiteSpace_of_continuesName (continues d mem)

/-- No gap begins where a token does. -/
theorem Spelling.not_startsGap {kind : TokenKind} {text rest : List Char} (h : Spelling kind text)
    (stops : Stops text rest kind) : ¬ Trivia.StartsGap (text ++ rest) := by
  obtain ⟨c, more, rfl, noSpace, slash⟩ := h.head
  rintro (space | ⟨rfl, second⟩)
  · rw [noSpace] at space
    cases space
  · obtain ⟨rfl, rfl⟩ := slash rfl
    have := stops.2 rfl
    rcases second with second | second
    · exact this.1 second
    · exact this.2 second

/-- No name reaches beyond its line. -/
theorem lineFeed_not_mem_name {name : List Char} (h : Spelling .ident name) : '\n' ∉ name := by
  cases h with
  | punctuation is => cases mark?_of_punctuation? is
  | @quoted name quotable =>
    intro mem
    rcases List.mem_cons.mp mem with tick | mem
    · cases tick
    · rcases List.mem_append.mp mem with within | tick
      · exact (quotable _ within).2 rfl
      · cases List.mem_singleton.mp tick
  | name starts continues =>
    intro mem
    rcases List.mem_cons.mp mem with rfl | later
    · exact absurd starts (by decide)
    · exact absurd (continues _ later) (by decide)

/-- A text is split where the characters of a sort end. -/
theorem takeWhile_append {p : Char → Bool} {front rest : List Char} (all : ∀ c ∈ front, p c = true)
    (stops : ∀ c ∈ rest.head?, p c = false) :
    (front ++ rest).takeWhile p = front ∧ (front ++ rest).dropWhile p = rest := by
  rw [List.takeWhile_append_of_pos all, List.dropWhile_append_of_pos all]
  cases rest with
  | nil => simp
  | cons c rest =>
    have stops : ¬ p c = true := by simp [stops c rfl]
    rw [List.takeWhile_cons_of_neg stops, List.dropWhile_cons_of_neg stops, List.append_nil]
    exact ⟨rfl, rfl⟩

/-- A plain name begins with none of the characters that the lexer looks at first. -/
theorem startsName_ne {c : Char} (h : startsName c = true) :
    c ≠ '-' ∧ c ≠ '"' ∧ c ≠ '#' ∧ c ≠ '`' := by
  refine ⟨?_, ?_, ?_, ?_⟩ <;> (rintro rfl; revert h; decide)

theorem isDigit_ne {c : Char} (h : c.isDigit = true) :
    c ≠ '-' ∧ c ≠ '"' ∧ c ≠ '#' ∧ c ≠ '`' := by
  refine ⟨?_, ?_, ?_, ?_⟩ <;> (rintro rfl; revert h; decide)

theorem endsLiteral_of_pounds {pounds : Nat} {text rest : List Char}
    (h : Literal.Spells (.literal (pounds + 1)) text) : Literal.EndsLiteral text rest := by
  rintro rfl
  cases h with
  | short body _ =>
    have := body.length_closing
    simp [Literal.Delimiter.closing] at this

/-- Every spelling is scanned in front of what does not go on with it. -/
theorem reads_scan {kind : TokenKind} {c : Char} {more rest : List Char}
    (h : Spelling kind (c :: more)) (stops : Stops (c :: more) rest kind) :
    Reads (scan c (more ++ rest)) (kind, c :: more) rest := by
  generalize same : c :: more = text at h
  cases h with
  | punctuation is =>
    cases same
    rw [scan, is]
    exact Reads.ok
  | arrow =>
    cases same
    exact Reads.ok
  | string spelled =>
    cases same
    have ends : Literal.EndsLiteral more rest := fun empty => stops (by rw [empty])
    exact (Literal.reads_string_iff.mpr ⟨rfl, spelled, ends⟩).bind fun _ => Reads.ok
  | @rawString pounds text spelled =>
    cases same
    -- The scanner counts the number signs up to the quote; the grammar knows how many there are.
    have front : (List.replicate pounds '#' ++ '"' :: text ++ rest).takeWhile (· == '#')
        = List.replicate pounds '#' := by
      rw [List.append_assoc, List.cons_append, List.takeWhile_append_of_pos (by simp),
        List.takeWhile_cons_of_neg (by decide), List.append_nil]
    have behind : (List.replicate pounds '#' ++ '"' :: text ++ rest).dropWhile (· == '#')
        = '"' :: (text ++ rest) := by
      rw [List.append_assoc, List.cons_append, List.dropWhile_append_of_pos (by simp),
        List.dropWhile_cons_of_neg (by decide)]
    rw [scan, show punctuation? '#' = none from rfl]
    dsimp only
    rw [if_neg (by simp), if_neg (by decide), if_pos rfl]
    split
    · next after opens =>
      rw [behind] at opens
      cases opens
      rw [front, List.length_replicate]
      exact (Literal.reads_string_iff.mpr ⟨rfl, spelled, endsLiteral_of_pounds spelled⟩).bind
        fun _ => Reads.ok
    · next noQuote => exact absurd behind (noQuote _)
  | pound =>
    cases same
    rw [scan, show punctuation? '#' = none from rfl]
    dsimp only
    rw [if_neg (by simp), if_neg (by decide), if_pos rfl]
    split
    · next after opens => exact absurd (congrArg List.head? opens) stops
    · exact Reads.ok
  | @quoted name quotable =>
    cases same
    have found : ticked (name ++ ['`'] ++ rest) = some (name ++ ['`'], rest) :=
      ticked_eq_iff.mpr ⟨name, by simp, rfl, quotable⟩
    rw [scan, show punctuation? '`' = none from rfl]
    dsimp only
    rw [if_neg (by simp), if_neg (by decide), if_neg (by decide), if_pos rfl]
    split
    · next name' after read =>
      rw [found] at read
      cases read
      exact Reads.ok
    · next none => rw [found] at none; cases none
  | number digit spelled =>
    cases same
    have read := Literal.number_eq_iff.mpr ⟨rfl, spelled, stops⟩
    obtain ⟨noMinus, noQuote, noPound, noTick⟩ := isDigit_ne digit
    rw [scan, punctuation?_of_isDigit digit]
    dsimp only
    rw [if_neg (by simp [noMinus]), if_neg noQuote, if_neg noPound, if_neg noTick, dif_pos digit]
    refine Reads.ok_iff.mpr ⟨?_, ?_⟩ <;> (dsimp only; rw [← List.cons_append, read])
  | name starts continues =>
    cases same
    obtain ⟨noMinus, noQuote, noPound, noTick⟩ := startsName_ne starts
    rw [scan, punctuation?_of_startsName starts]
    dsimp only
    rw [if_neg (by simp [noMinus]), if_neg noQuote, if_neg noPound, if_neg noTick,
      dif_neg (by simp [isDigit_of_startsName starts]), if_pos starts]
    obtain ⟨front, behind⟩ := takeWhile_append continues (stops (by simpa using noTick))
    refine Reads.ok_iff.mpr ⟨?_, behind⟩
    dsimp only
    rw [front]
  | operator noPunctuation noQuote noPound noTick noDigit noName _ =>
    cases same
    rw [scan, noPunctuation]
    dsimp only
    rw [if_neg, if_neg noQuote, if_neg noPound, if_neg noTick, dif_neg (by simp [noDigit]),
      if_neg (by simp [noName])]
    · exact Reads.ok
    -- A minus sign is an operator unless it begins an arrow.
    · simp only [Bool.and_eq_true, decide_eq_true_eq, beq_iff_eq, not_and]
      rintro rfl
      exact stops.1 rfl

theorem head?_dropWhile_takeWhile {p : Char → Bool} (cs : List Char) :
    ∀ c ∈ (cs.dropWhile p).head?, p c = false := by
  intro c mem
  have := List.head?_dropWhile_not p cs
  rw [Option.mem_def.mp mem] at this
  simpa using this

theorem stops_punctuation {c : Char} {kind : TokenKind} (h : punctuation? c = some kind)
    (rest : List Char) : Stops [c] rest kind := by
  rw [punctuation?.eq_def] at h
  split at h
  all_goals first | (cases h; trivial) | cases h

/-- What is scanned is a spelling, and nothing behind goes on with it. The cases are those of the
scanner, from the punctuation down to single operators. -/
theorem splits_of_scan {kind : TokenKind} {c : Char} {cs text rest : List Char}
    (noGap : ¬ Trivia.StartsGap (c :: cs)) (h : Reads (scan c cs) (kind, text) rest) :
    c :: cs = text ++ rest ∧ Spelling kind text ∧ Stops text rest kind := by
  rw [scan] at h
  split at h
  · next kind' is =>
    obtain ⟨same, rfl⟩ := Reads.ok_iff.mp h
    cases same
    exact ⟨rfl, .punctuation is, stops_punctuation is _⟩
  · next noPunctuation =>
    split at h
    · next arrow =>
      simp only [Bool.and_eq_true, decide_eq_true_eq, beq_iff_eq] at arrow
      obtain ⟨rfl, second⟩ := arrow
      obtain ⟨same, rfl⟩ := Reads.ok_iff.mp h
      cases same
      obtain ⟨more, rfl⟩ := List.head?_eq_some_iff.mp second
      exact ⟨rfl, .arrow, trivial⟩
    · next noArrow =>
      split at h
      · next quote =>
        subst quote
        obtain ⟨body, mid, shorter, read, h⟩ := h.of_bind
        obtain ⟨same, rfl⟩ := Reads.ok_iff.mp h
        cases same
        obtain ⟨rfl, spelled, ends⟩ := Literal.reads_string_iff.mp ⟨shorter, read⟩
        refine ⟨rfl, .string spelled, fun empty => ends ?_⟩
        cases empty
        rfl
      · next noQuote =>
        split at h
        · next pound =>
          subst pound
          have run : cs.takeWhile (· == '#')
              = List.replicate (cs.takeWhile (· == '#')).length '#' :=
            List.eq_replicate_of_mem fun d mem => by simpa using List.mem_takeWhile_imp mem
          split at h
          · next after opens =>
            obtain ⟨body, mid, shorter, read, h⟩ := h.of_bind
            obtain ⟨same, rfl⟩ := Reads.ok_iff.mp h
            cases same
            obtain ⟨rfl, spelled, -⟩ := Literal.reads_string_iff.mp ⟨shorter, read⟩
            have made : cs = cs.takeWhile (· == '#') ++ '"' :: (body ++ mid) := by
              rw [← opens, List.takeWhile_append_dropWhile]
            refine ⟨by simpa using made, ?_, fun empty => ?_⟩
            · rw [run]
              exact .rawString spelled
            · cases empty
          · next noQuote =>
            obtain ⟨same, rfl⟩ := Reads.ok_iff.mp h
            cases same
            refine ⟨rfl, .pound, fun quote => ?_⟩
            obtain ⟨more, opens⟩ := List.head?_eq_some_iff.mp quote
            exact noQuote more opens
        · next noPound =>
          split at h
          · next tick =>
            subst tick
            split at h
            · next name after read =>
              obtain ⟨same, rfl⟩ := Reads.ok_iff.mp h
              cases same
              obtain ⟨name, rfl, rfl, quotable⟩ := ticked_eq_iff.mp read
              refine ⟨by simp, .quoted quotable, fun noTick => absurd rfl noTick⟩
            · exact absurd h Reads.not_error
          · next noTick =>
            split at h
            · next digit =>
              obtain ⟨same, rfl⟩ := Reads.ok_iff.mp h
              cases same
              have length := Literal.length_number digit cs
              obtain ⟨made, spelled, stops⟩ :=
                @Literal.splits_of_number (c :: cs) _ _ rfl
              refine ⟨made, ?_, stops⟩
              clear h stops
              generalize Literal.number (c :: cs) = read at *
              obtain ⟨digits, after⟩ := read
              -- The first digit was seen, so that the number is not empty.
              cases digits with
              | nil =>
                have made : c :: cs = after := made
                simp only [← made, List.length_cons] at length
                omega
              | cons d digits =>
                cases made
                exact .number digit spelled
            · next noDigit =>
              split at h
              · next starts =>
                obtain ⟨same, rfl⟩ := Reads.ok_iff.mp h
                cases same
                refine ⟨by simp, .name starts fun d mem => List.mem_takeWhile_imp mem,
                  fun _ => head?_dropWhile_takeWhile cs⟩
              · next noName =>
                obtain ⟨same, rfl⟩ := Reads.ok_iff.mp h
                cases same
                -- What is left begins no gap, no arrow and none of the tokens above.
                simp only [Trivia.StartsGap, not_or, not_and] at noGap
                refine ⟨rfl, .operator noPunctuation noQuote noPound noTick (by simpa using noDigit)
                  (by simpa using noName) (by simpa using noGap.1), fun minus head => ?_,
                  fun slash => ?_⟩
                · cases minus
                  exact noArrow (by simpa using head)
                · cases slash
                  exact noGap.2 rfl

/-- Where no gap begins, exactly the spellings of the grammar are scanned. -/
theorem reads_scan_iff {kind : TokenKind} {c : Char} {cs text rest : List Char} :
    ¬ Trivia.StartsGap (c :: cs) ∧ Reads (scan c cs) (kind, text) rest ↔
      c :: cs = text ++ rest ∧ Spelling kind text ∧ Stops text rest kind := by
  constructor
  · rintro ⟨noGap, read⟩
    exact splits_of_scan noGap read
  · rintro ⟨made, spelled, stops⟩
    have noGap := spelled.not_startsGap stops
    obtain ⟨d, more, rfl, -⟩ := spelled.head
    cases made
    exact ⟨noGap, reads_scan spelled stops⟩

end Lexeme

end CodableSynthesis
