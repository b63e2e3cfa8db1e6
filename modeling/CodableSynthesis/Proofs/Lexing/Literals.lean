import CodableSynthesis.Proofs.Reads
import CodableSynthesis.Token.Literal

/-!
The grammar of string literals. A literal says by itself where it ends, with one exception: behind
the empty literal no further quote may stand, for three quotes open a literal of several lines.

* `Spells`: the texts of literals, of their bodies, and of the interpolations in them.
* `Spells.alwaysRead`: such a text is read in front of whatever does not go on with it.
* `splits_of_read`: what is read is such a text.
* `reads_string_iff`: the two together, for a literal behind its first quote.

The grammar follows the readers and not the language. Within an interpolation a quote begins a plain
literal even if number signs stand in front of it, so a raw literal there is read as a plain one;
this is the case `nested`, and it is the only way in which a literal within an interpolation is
described at all.

The readers of bodies and interpolations carry along the text of the whole literal, for the fault
that they report. It plays no part in what is read, so it is quantified away.
-/

namespace CodableSynthesis.Literal

/-- A text has nothing behind a front part only if it does not begin with that. -/
theorem after?_eq_none_iff {front cs : List Char} : after? front cs = none ↔ ¬ front <+: cs := by
  rw [Option.eq_none_iff_forall_ne_some]
  constructor
  · rintro none ⟨rest, rfl⟩
    exact none rest (after?_eq_some_iff.mpr rfl)
  · intro none rest some
    exact none ⟨rest, (after?_eq_some_iff.mp some).symm⟩

/-- What the readers of literals read: a literal behind its first quote, the body of a literal, and
the rest of an interpolation within which `depth` further parentheses are open. -/
inductive Phrase where
  /-- A literal with as many number signs, behind its first quote. -/
  | literal (pounds : Nat)
  /-- The body of a literal, up to what closes it. -/
  | body (d : Delimiter)
  /-- The rest of an interpolation, up to the parenthesis that closes it. -/
  | interpolation (depth : Nat)

/-- The text is a phrase from its beginning to its end. -/
inductive Spells : Phrase → List Char → Prop
  /-- A literal of one line. Two more quotes at its beginning would make it one of several lines. -/
  | short {pounds : Nat} {text : List Char} :
      Spells (.body ⟨false, pounds⟩) text → ¬ ['"', '"'] <+: text → Spells (.literal pounds) text
  /-- A literal of several lines. -/
  | long {pounds : Nat} {text : List Char} :
      Spells (.body ⟨true, pounds⟩) text → Spells (.literal pounds) ('"' :: '"' :: text)
  | close {d : Delimiter} : Spells (.body d) d.closing
  | interpolated {d : Delimiter} {inner text : List Char} :
      Spells (.interpolation 0) inner → Spells (.body d) text →
      Spells (.body d) (d.escape ++ '(' :: (inner ++ text))
  | escaped {d : Delimiter} {c : Char} {text : List Char} :
      c ≠ '(' → Spells (.body d) text → Spells (.body d) (d.escape ++ c :: text)
  /-- Any other character; a line feed only in a literal of several lines. -/
  | plain {d : Delimiter} {c : Char} {text : List Char} :
      ¬ d.closing <+: c :: text → ¬ d.escape <+: c :: text → (d.multiline = false → c ≠ '\n') →
      Spells (.body d) text → Spells (.body d) (c :: text)
  | opening {depth : Nat} {text : List Char} :
      Spells (.interpolation (depth + 1)) text → Spells (.interpolation depth) ('(' :: text)
  | last : Spells (.interpolation 0) [')']
  | closing {depth : Nat} {text : List Char} :
      Spells (.interpolation depth) text → Spells (.interpolation (depth + 1)) (')' :: text)
  /-- A literal within an interpolation. It is read as one without number signs. -/
  | nested {depth : Nat} {inner text : List Char} :
      Spells (.literal 0) inner → (inner = ['"'] → text.head? ≠ some '"') →
      Spells (.interpolation depth) text → Spells (.interpolation depth) ('"' :: (inner ++ text))
  | other {depth : Nat} {c : Char} {text : List Char} :
      c ≠ '(' → c ≠ ')' → c ≠ '"' → Spells (.interpolation depth) text →
      Spells (.interpolation depth) (c :: text)

/-- What ends a literal also ends its body. -/
theorem Spells.closing_suffix {d : Delimiter} {text : List Char} (h : Spells (.body d) text) :
    d.closing <:+ text := by
  generalize same : Phrase.body d = p at h
  induction h with
  | close =>
    cases same
    exact List.suffix_refl _
  | interpolated _ _ _ ih =>
    cases same
    exact (ih rfl).trans ((List.suffix_append _ _).trans
      ((List.suffix_cons _ _).trans (List.suffix_append _ _)))
  | escaped _ _ ih =>
    cases same
    exact (ih rfl).trans ((List.suffix_cons _ _).trans (List.suffix_append _ _))
  | plain _ _ _ _ ih =>
    cases same
    exact (ih rfl).trans (List.suffix_cons _ _)
  | _ => cases same

namespace Delimiter

/-- An escape is no longer than what closes a literal, so a text that begins with either is told
apart by what it begins with. -/
theorem length_escape_le (d : Delimiter) : d.escape.length ≤ d.closing.length := by
  cases h : d.multiline <;> simp [escape, closing, h]

end Delimiter

/-- Whether a text begins with something no longer than it does not depend on what follows. -/
theorem prefix_append_iff {front text rest : List Char} (h : front.length ≤ text.length) :
    front <+: text ++ rest ↔ front <+: text := by
  constructor
  · intro begins
    exact List.prefix_of_prefix_length_le begins (List.prefix_append _ _) h
  · intro begins
    exact begins.trans (List.prefix_append _ _)

theorem Spells.length_closing {d : Delimiter} {text : List Char} (h : Spells (.body d) text) :
    d.closing.length ≤ text.length :=
  h.closing_suffix.length_le

/-- Behind the empty literal no further quote stands. -/
def EndsLiteral (text rest : List Char) : Prop :=
  text = ['"'] → rest.head? ≠ some '"'

/-- The reader of a phrase reads it whatever stands behind it, but for the quote behind an empty
literal. -/
def Phrase.AlwaysRead : Phrase → List Char → Prop
  | .literal pounds, text => ∀ rest, EndsLiteral text rest →
    Reads (string pounds (text ++ rest)) text rest
  | .body d, text => ∀ whole rest, Reads (stringBody d whole (text ++ rest)) text rest
  | .interpolation depth, text => ∀ whole rest,
    Reads (Literal.interpolation depth whole (text ++ rest)) text rest

/-- A character that neither closes nor escapes is read as it is. -/
theorem reads_plain {d : Delimiter} {whole cs : List Char} {c : Char}
    (noClosing : ¬ d.closing <+: c :: cs) (noEscape : ¬ d.escape <+: c :: cs)
    (within : d.multiline = false → c ≠ '\n') {text rest : List Char}
    (h : Reads (stringBody d whole cs) text rest) :
    Reads (stringBody d whole (c :: cs)) (c :: text) rest := by
  rw [stringBody.eq_1]
  split
  · next closes => exact absurd closes (by simp [after?_eq_none_iff.mpr noClosing])
  · rw [if_neg (by simpa using within)]
    split
    · next escape => exact absurd escape (by simp [after?_eq_none_iff.mpr noEscape])
    · next escape => exact absurd escape (by simp [after?_eq_none_iff.mpr noEscape])
    · next escape => exact absurd escape (by simp [after?_eq_none_iff.mpr noEscape])
    · exact h.bind fun _ => Reads.ok

theorem Delimiter.not_closing_of_escape {d : Delimiter} {cs : List Char} :
    ¬ d.closing <+: d.escape ++ cs := by
  rintro ⟨rest, same⟩
  have heads := congrArg List.head? same
  cases h : d.multiline <;> simp [Delimiter.closing, Delimiter.escape, h] at heads

theorem Spells.ne_nil {p : Phrase} {text : List Char} (h : Spells p text) : text ≠ [] := by
  induction h with
  | short _ _ ih => exact ih
  | @close d => cases h : d.multiline <;> simp [Delimiter.closing, h]
  | interpolated | escaped => simp [Delimiter.escape]
  | _ => simp

/-- The two quotes that make a literal one of several lines do not come from behind it. -/
theorem not_opens_long {pounds : Nat} {text rest : List Char}
    (body : Spells (.body ⟨false, pounds⟩) text) (noQuotes : ¬ ['"', '"'] <+: text)
    (ends : EndsLiteral text rest) : ¬ ['"', '"'] <+: text ++ rest := by
  cases text with
  | nil => exact absurd rfl body.ne_nil
  | cons c text =>
    cases text with
    | nil =>
      rintro ⟨more, same⟩
      cases same
      exact ends rfl rfl
    | cons d text =>
      rwa [prefix_append_iff (by simp)]

/-- Every phrase of the grammar is read. The induction is on the grammar; the cases of an
interpolation count parentheses as the reader does. -/
theorem Spells.alwaysRead {p : Phrase} {text : List Char} (h : Spells p text) :
    p.AlwaysRead text := by
  induction h with
  | short body noQuotes ih =>
    intro rest ends
    rw [string.eq_1]
    split
    · next after opens =>
      rw [after?_eq_none_iff.mpr (not_opens_long body noQuotes ends)] at opens
      cases opens
    · exact ih _ rest
  | @long pounds text _ ih =>
    intro rest _
    rw [string.eq_1]
    split
    · next after opens =>
      cases after?_eq_some_iff.mp opens
      exact (ih _ rest).bind fun _ => Reads.ok
    · next opens => exact absurd ⟨text ++ rest, rfl⟩ (after?_eq_none_iff.mp opens)
  | @close d =>
    intro whole rest
    rw [stringBody.eq_1]
    split
    · next after closes =>
      obtain rfl := List.append_cancel_left (after?_eq_some_iff.mp closes)
      exact Reads.ok
    · next opens => exact absurd (List.prefix_append _ _) (after?_eq_none_iff.mp opens)
  | @interpolated d inner text _ _ ihInner ih =>
    intro whole rest
    rw [stringBody.eq_1, List.append_assoc]
    split
    · next after closes =>
      exact absurd ⟨after, (after?_eq_some_iff.mp closes).symm⟩ Delimiter.not_closing_of_escape
    · rw [if_neg (by simp [Delimiter.escape])]
      split
      · next after escape =>
        have same := List.append_cancel_left (after?_eq_some_iff.mp escape)
        simp only [List.cons_append, List.append_assoc, List.cons.injEq, true_and] at same
        subst same
        exact (ihInner whole (text ++ rest)).bind fun _ => (ih whole rest).bind fun _ =>
          Reads.ok_iff.mpr ⟨by simp, rfl⟩
      · next after noInterpolation escape =>
        cases List.append_cancel_left (after?_eq_some_iff.mp escape)
        exact absurd rfl noInterpolation
      · next escape =>
        cases List.append_cancel_left (after?_eq_some_iff.mp escape)
      · next escape => exact absurd (List.prefix_append _ _) (after?_eq_none_iff.mp escape)
  | @escaped d c text noInterpolation _ ih =>
    intro whole rest
    rw [stringBody.eq_1, List.append_assoc]
    split
    · next after closes =>
      exact absurd ⟨after, (after?_eq_some_iff.mp closes).symm⟩ Delimiter.not_closing_of_escape
    · rw [if_neg (by simp [Delimiter.escape])]
      split
      · next after escape =>
        cases List.append_cancel_left (after?_eq_some_iff.mp escape)
        exact absurd rfl noInterpolation
      · next after _ escape =>
        cases List.append_cancel_left (after?_eq_some_iff.mp escape)
        exact (ih whole rest).bind fun _ => Reads.ok
      · next escape =>
        cases List.append_cancel_left (after?_eq_some_iff.mp escape)
      · next escape => exact absurd (List.prefix_append _ _) (after?_eq_none_iff.mp escape)
  | @plain d c text noClosing noEscape within body ih =>
    intro whole rest
    -- Whether a delimiter begins here does not depend on what follows the text, which is longer.
    have long : d.closing.length ≤ (c :: text).length := Nat.le_succ_of_le body.length_closing
    have noEscape' : ¬ d.escape <+: (c :: text) ++ rest := by
      rwa [prefix_append_iff (Nat.le_trans d.length_escape_le long)]
    have noClosing' : ¬ d.closing <+: (c :: text) ++ rest := by
      rwa [prefix_append_iff long]
    exact reads_plain noClosing' noEscape' within (ih whole rest)
  | opening _ ih =>
    intro whole rest
    rw [List.cons_append, interpolation]
    exact (ih whole rest).bind fun _ => Reads.ok
  | last =>
    intro whole rest
    rw [List.cons_append, interpolation]
    exact Reads.ok
  | closing _ ih =>
    intro whole rest
    rw [List.cons_append, interpolation]
    exact (ih whole rest).bind fun _ => Reads.ok
  | @nested depth inner text _ ends more ihInner ih =>
    intro whole rest
    rw [List.cons_append, List.append_assoc, interpolation]
    -- Behind an empty literal no quote may stand. Here the interpolation goes on behind it, so that
    -- what stands there does not depend on what follows.
    have ends' : EndsLiteral inner (text ++ rest) := by
      intro empty
      obtain ⟨c, text, rfl⟩ := List.exists_cons_of_ne_nil more.ne_nil
      exact ends empty
    exact (ihInner _ ends').bind fun _ => (ih whole rest).bind fun _ =>
      Reads.ok_iff.mpr ⟨by simp, rfl⟩
  | @other depth c text noOpening noClosing noQuote _ ih =>
    intro whole rest
    rw [List.cons_append, Literal.interpolation.eq_6 _ _ _ _ noOpening noClosing noQuote]
    exact (ih whole rest).bind fun _ => Reads.ok

/-- The reader of a phrase reads it in front of `rest`. -/
def Phrase.Read : Phrase → List Char → List Char → List Char → Prop
  | .literal pounds, cs, text, rest => Reads (string pounds cs) text rest
  | .body d, cs, text, rest => ∃ whole, Reads (stringBody d whole cs) text rest
  | .interpolation depth, cs, text, rest =>
    ∃ whole, Reads (Literal.interpolation depth whole cs) text rest

/-- The order in which the readers call one another on the same text. -/
def Phrase.rank : Phrase → Nat
  | .literal _ => 1
  | .body _ | .interpolation _ => 0

/-- What is read is a phrase, and behind it nothing stands that would go on with it. -/
def Phrase.Splits (p : Phrase) (cs text rest : List Char) : Prop :=
  cs = text ++ rest ∧ Spells p text ∧ (∀ pounds, p = .literal pounds → EndsLiteral text rest)

/-- Whatever is read is a phrase of the grammar. The induction is on the length of the text, and for
equal lengths on the rank, since a literal calls the reader of its body on the same text. -/
theorem splits_of_read {p : Phrase} {cs text rest : List Char} (h : p.Read cs text rest) :
    p.Splits cs text rest := by
  induction hn : 2 * cs.length + p.rank using Nat.strongRecOn generalizing p cs text rest with
  | ind n ih =>
    cases p with
    | literal pounds =>
      rw [Phrase.Read, string.eq_1] at h
      split at h
      · next after opens =>
        obtain rfl := after?_eq_some_iff.mp opens
        obtain ⟨body, mid, shorter, hb, h⟩ := h.of_bind
        obtain ⟨rfl, rfl⟩ := Reads.ok_iff.mp h
        obtain ⟨rfl, spelled, -⟩ := ih _ (by simp [Phrase.rank] at hn ⊢; omega)
          (p := .body ⟨true, pounds⟩) ⟨_, shorter, hb⟩ rfl
        exact ⟨rfl, .long spelled, fun _ _ empty => by cases empty⟩
      · next opens =>
        obtain ⟨rfl, spelled, -⟩ := ih _ (by simp only [Phrase.rank] at hn ⊢; omega)
          (p := .body ⟨false, pounds⟩) ⟨_, h⟩ rfl
        -- Two quotes did not begin the rest: the body begins with no two of them, and an empty body
        -- has none behind it.
        have noQuotes := after?_eq_none_iff.mp opens
        refine ⟨rfl, .short spelled fun begins => noQuotes (begins.trans (List.prefix_append _ _)),
          fun _ _ empty => ?_⟩
        subst empty
        intro quote
        cases rest with
        | nil => cases quote
        | cons c rest => cases quote; exact noQuotes ⟨rest, rfl⟩
    | body d =>
      obtain ⟨whole, h⟩ := h
      rw [stringBody.eq_1] at h
      split at h
      · next after closes =>
        obtain rfl := after?_eq_some_iff.mp closes
        obtain ⟨rfl, rfl⟩ := Reads.ok_iff.mp h
        exact ⟨rfl, .close, fun _ same => by cases same⟩
      · next unclosed =>
        have noClosing := after?_eq_none_iff.mp unclosed
        split at h
        · exact absurd h Reads.not_error
        · next within =>
          simp only [Bool.and_eq_true, Bool.not_eq_true', beq_iff_eq, not_and] at within
          split at h
          · next after escape =>
            obtain rfl := after?_eq_some_iff.mp escape
            obtain ⟨inner, mid, shorter, hi, h⟩ := h.of_bind
            obtain ⟨text', mid', shorter', ht, h⟩ := h.of_bind
            obtain ⟨rfl, rfl⟩ := Reads.ok_iff.mp h
            obtain ⟨rfl, spelled, -⟩ := ih _ (by simp [Phrase.rank] at hn ⊢; omega)
              (p := .interpolation 0) ⟨_, shorter, hi⟩ rfl
            obtain ⟨rfl, spelled', -⟩ := ih _ (by simp [Phrase.rank] at hn ⊢; omega)
              (p := .body d) ⟨_, shorter', ht⟩ rfl
            exact ⟨by simp, by simpa using Spells.interpolated spelled spelled',
              fun _ same => by cases same⟩
          · next c after noInterpolation escape =>
            obtain rfl := after?_eq_some_iff.mp escape
            obtain ⟨text', mid, shorter, ht, h⟩ := h.of_bind
            obtain ⟨rfl, rfl⟩ := Reads.ok_iff.mp h
            obtain ⟨rfl, spelled, -⟩ := ih _ (by simp [Phrase.rank] at hn ⊢; omega)
              (p := .body d) ⟨_, shorter, ht⟩ rfl
            exact ⟨by simp, .escaped noInterpolation spelled, fun _ same => by cases same⟩
          · exact absurd h Reads.not_error
          · next unescaped =>
            have noEscape := after?_eq_none_iff.mp unescaped
            split at h
            · next c after _ _ =>
              obtain ⟨text', mid, shorter, ht, h⟩ := h.of_bind
              obtain ⟨rfl, rfl⟩ := Reads.ok_iff.mp h
              obtain ⟨rfl, spelled, -⟩ := ih _ (by simp [Phrase.rank] at hn ⊢; omega)
                (p := .body d) ⟨_, shorter, ht⟩ rfl
              have longer (front : List Char) (begins : front <+: c :: text') :
                  front <+: c :: (text' ++ mid) := begins.trans (List.prefix_append _ _)
              refine ⟨rfl, .plain (fun begins => noClosing (longer _ begins))
                (fun begins => noEscape (longer _ begins)) (fun single => ?_) spelled,
                fun _ same => by cases same⟩
              rintro rfl
              exact within single rfl
            · exact absurd h Reads.not_error
    | interpolation depth =>
      obtain ⟨whole, h⟩ := h
      rw [interpolation.eq_def] at h
      split at h
      · exact absurd h Reads.not_error
      · obtain ⟨text', mid, shorter, ht, h⟩ := h.of_bind
        obtain ⟨rfl, rfl⟩ := Reads.ok_iff.mp h
        obtain ⟨rfl, spelled, -⟩ := ih _ (by simp [Phrase.rank] at hn ⊢; omega)
          (p := .interpolation (depth + 1)) ⟨_, shorter, ht⟩ rfl
        exact ⟨rfl, .opening spelled, fun _ same => by cases same⟩
      · split at h
        · obtain ⟨rfl, rfl⟩ := Reads.ok_iff.mp h
          exact ⟨rfl, .last, fun _ same => by cases same⟩
        · next outer =>
          obtain ⟨text', mid, shorter, ht, h⟩ := h.of_bind
          obtain ⟨rfl, rfl⟩ := Reads.ok_iff.mp h
          obtain ⟨rfl, spelled, -⟩ := ih _ (by simp [Phrase.rank] at hn ⊢; omega)
            (p := .interpolation outer) ⟨_, shorter, ht⟩ rfl
          exact ⟨rfl, .closing spelled, fun _ same => by cases same⟩
      · obtain ⟨inner, mid, shorter, hi, h⟩ := h.of_bind
        obtain ⟨text', mid', shorter', ht, h⟩ := h.of_bind
        obtain ⟨rfl, rfl⟩ := Reads.ok_iff.mp h
        obtain ⟨rfl, spelled, ends⟩ := ih _ (by simp [Phrase.rank] at hn ⊢; omega)
          (p := .literal 0) ⟨shorter, hi⟩ rfl
        obtain ⟨rfl, spelled', -⟩ := ih _ (by simp [Phrase.rank] at hn ⊢; omega)
          (p := .interpolation depth) ⟨_, shorter', ht⟩ rfl
        refine ⟨by simp, .nested spelled (fun empty => ?_) spelled', fun _ same => by cases same⟩
        have ends := ends 0 rfl empty
        obtain ⟨c, text, rfl⟩ := List.exists_cons_of_ne_nil spelled'.ne_nil
        exact ends
      · next c after noOpening noClosing noQuote =>
        obtain ⟨text', mid, shorter, ht, h⟩ := h.of_bind
        obtain ⟨rfl, rfl⟩ := Reads.ok_iff.mp h
        obtain ⟨rfl, spelled, -⟩ := ih _ (by simp [Phrase.rank] at hn ⊢; omega)
          (p := .interpolation depth) ⟨_, shorter, ht⟩ rfl
        exact ⟨rfl, .other noOpening noClosing noQuote spelled, fun _ same => by cases same⟩

/-- Exactly the literals of the grammar are read. -/
theorem reads_string_iff {pounds : Nat} {cs text rest : List Char} :
    Reads (string pounds cs) text rest ↔
      cs = text ++ rest ∧ Spells (.literal pounds) text ∧ EndsLiteral text rest := by
  constructor
  · intro h
    obtain ⟨made, spelled, ends⟩ := splits_of_read (p := .literal pounds) h
    exact ⟨made, spelled, ends pounds rfl⟩
  · rintro ⟨rfl, spelled, ends⟩
    exact spelled.alwaysRead rest ends

end CodableSynthesis.Literal
