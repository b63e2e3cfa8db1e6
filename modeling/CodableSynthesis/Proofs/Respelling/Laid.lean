import CodableSynthesis.Proofs.Layout.Placed
import CodableSynthesis.Proofs.Lexing.Words

/-!
Tokens laid out anew: each directly behind the one before it, or with one blank between. Laid out
tokens stand at no place yet; what the lexer makes of their text are the same tokens at places.

* `Token.laid`, `lead`, `laidText`: laid out tokens, and their text.
* `Cuts`: the text of laid out tokens is cut into them again.
* `Cuts.mark`, `Cuts.name`, `Cuts.append`: how this is shown, token by token from the end.

All canonical text is of this form, that of types as well as the lines of generated code. Whether
two tokens may stand side by side is asked once, by `StartsApart`: a text that begins with a blank
or a mark may follow anything, and a text that begins with a name may follow a mark.
-/

namespace CodableSynthesis

open Lexeme (Spelling Stops punctuation?)

/-- A token laid out directly behind the one before it, or behind a blank. -/
def Token.laid (touches : Bool) (kind : TokenKind) (text : String) : Token :=
  ⟨kind, text, ⟨0, 0, 0, 0⟩, false, touches⟩

/-- A token laid out at the beginning of a line. -/
def Token.begun (kind : TokenKind) (text : String) : Token :=
  ⟨kind, text, ⟨0, 0, 0, 0⟩, true, false⟩

/-- The same tokens, the first of which is laid out directly behind what stands before it, or behind
a blank. -/
def lead (touches : Bool) : List Token → List Token
  | [] => []
  | t :: ts => { t with touches } :: ts

/-- The text of laid out tokens. -/
def laidText (ts : List Token) : List Char :=
  ts.flatMap fun t => (if t.touches then [] else [' ']) ++ t.chars

/-- A laid out token with the gap before it. -/
def Token.lexeme (t : Token) : Lexeme :=
  ⟨if t.touches then .none else ⟨[' '], false⟩, t.kind, t.chars⟩

section

variable {b : Bool} {t : Token} {ts us : List Token}

/-- Nothing leads nothing. -/
@[simp] theorem lead_nil : lead b [] = [] := rfl

theorem lead_cons : lead b (t :: ts) = { t with touches := b } :: ts := rfl

@[simp] theorem lead_laid {c : Bool} {kind : TokenKind} {text : String} :
    lead b (.laid c kind text :: ts) = .laid b kind text :: ts := rfl

/-- Leading changes the first token only. -/
@[simp] theorem lead_append (some : ts ≠ []) : lead b (ts ++ us) = lead b ts ++ us := by
  cases ts with
  | nil => exact absurd rfl some
  | cons t ts => rfl

@[simp] theorem lead_eq_nil : lead b ts = [] ↔ ts = [] := by
  cases ts <;> simp [lead_cons]

@[simp] theorem laidText_nil : laidText [] = [] := rfl

/-- The text of tokens is put together from their texts. -/
@[simp] theorem laidText_append : laidText (ts ++ us) = laidText ts ++ laidText us := by
  simp [laidText]

@[simp] theorem laidText_cons :
    laidText (t :: ts) = (if t.touches then [] else [' ']) ++ (t.chars ++ laidText ts) := by
  simp [laidText]

@[simp] theorem Token.laid_kind {kind : TokenKind} {text : String} :
    (laid b kind text).kind = kind := rfl

@[simp] theorem Token.laid_text {kind : TokenKind} {text : String} :
    (laid b kind text).text = text := rfl

@[simp] theorem Token.laid_touches {kind : TokenKind} {text : String} :
    (laid b kind text).touches = b := rfl

@[simp] theorem Token.laid_chars {kind : TokenKind} {text : String} :
    (laid b kind text).chars = text.toList := rfl

theorem laidText_lead_false (some : ts ≠ []) :
    laidText (lead false ts) = ' ' :: laidText (lead true ts) := by
  cases ts with
  | nil => exact absurd rfl some
  | cons t ts => simp [lead_cons, Token.chars]

/-- Leading does not change words. -/
@[simp] theorem map_word_lead : (lead b ts).map Token.word = ts.map Token.word := by
  cases ts <;> rfl

@[simp] theorem length_lead : (lead b ts).length = ts.length := by
  cases ts <;> rfl

end

/-! ### What the lexer makes of the text -/

/-- The text of the tokens is cut into them, in front of what does not go on with a name. They all
stand on one line. -/
structure Cuts (us : List Token) : Prop where
  /-- The tokens come in front of any text that does not go on with a name. -/
  cut : ∀ {ls : List Lexeme} {cs : List Char}, EndsName cs → Cut ls cs →
    Cut (us.map Token.lexeme ++ ls) (laidText us ++ cs)
  /-- No line break is within. -/
  flat : ∀ u ∈ us, u.newlineBefore = false

/-- The text of the tokens does not go on with a name before it. -/
def StartsApart (us : List Token) : Prop :=
  ∀ cs : List Char, EndsName cs → EndsName (laidText us ++ cs)

theorem Lexeme.continuesName_of_punctuation? {c : Char} {kind : TokenKind}
    (h : punctuation? c = some kind) : continuesName c = false := by
  rw [punctuation?.eq_def] at h
  split at h
  all_goals first | (cases h; decide) | cases h

/-- A token of one character. -/
def Token.IsMark (t : Token) : Prop :=
  ∃ c, t.chars = [c] ∧ punctuation? c = some t.kind

/-- Whether a text is a plain name. -/
def isWord (s : String) : Bool :=
  match s.toList with
  | [] => false
  | c :: cs => Lexeme.startsName c && cs.all Lexeme.continuesName

/-- A plain name is a token. -/
theorem Lexeme.Spelling.word {s : String} (h : isWord s = true) : Spelling .ident s.toList := by
  rw [isWord] at h
  split at h
  · cases h
  · next c cs text =>
    rw [text]
    simp only [Bool.and_eq_true, List.all_eq_true] at h
    exact .name h.1 h.2

section

variable {b : Bool} {t : Token} {us vs : List Token}

/-- A token in front of a text that does not go on with it. -/
theorem Token.cut {ls : List Lexeme} {cs : List Char} (spelled : Spelling t.kind t.chars)
    (stops : Stops t.chars cs t.kind) (later : Cut ls cs) :
    Cut (t.lexeme :: ls) ((if t.touches then [] else [' ']) ++ (t.chars ++ cs)) := by
  have blank : Trivia.Whole [' '] false := .space (by decide) .nil
  unfold Token.lexeme
  cases t.touches with
  | true => exact @Cut.lexeme .none _ _ _ _ .nil spelled stops later
  | false => exact @Cut.lexeme ⟨[' '], false⟩ _ _ _ _ blank spelled stops later

theorem EndsName.blank {cs : List Char} : EndsName (' ' :: cs) := by
  rintro _ ⟨⟩
  decide

namespace Token.IsMark

theorem spelled (mark : t.IsMark) : Spelling t.kind t.chars := by
  obtain ⟨c, text, is⟩ := mark
  rw [text]
  exact .punctuation is

theorem stops (mark : t.IsMark) (cs : List Char) : Stops t.chars cs t.kind := by
  obtain ⟨c, text, is⟩ := mark
  rw [text]
  exact Lexeme.stops_punctuation is cs

theorem endsName (mark : t.IsMark) {cs : List Char} : EndsName (t.chars ++ cs) := by
  obtain ⟨c, text, is⟩ := mark
  rw [text]
  rintro _ ⟨⟩
  exact Lexeme.continuesName_of_punctuation? is

end Token.IsMark

namespace StartsApart

/-- A mark stands apart from anything. -/
theorem mark (mark : t.IsMark) : StartsApart (t :: us) := by
  intro cs ends
  rw [laidText_cons]
  cases t.touches with
  | true => simpa using mark.endsName
  | false => exact .blank

theorem blank (gap : t.touches = false) : StartsApart (t :: us) := by
  intro cs ends
  rw [laidText_cons, gap]
  exact .blank

theorem lead (some : us ≠ []) : StartsApart (lead false us) := by
  cases us with
  | nil => exact absurd rfl some
  | cons u us => exact blank rfl

end StartsApart

namespace Cuts

variable {kind : TokenKind} {text : String}

theorem nil : Cuts [] where
  cut _ cut := cut
  flat := nofun

/-- Tokens may be laid out behind others if they stand apart. -/
theorem append (h : Cuts us) (later : Cuts vs) (apart : StartsApart vs) : Cuts (us ++ vs) where
  cut ends cut := by
    rw [List.map_append, List.append_assoc, laidText_append, List.append_assoc]
    exact h.cut (apart _ ends) (later.cut ends cut)
  flat := List.forall_mem_append.mpr ⟨h.flat, later.flat⟩

theorem cons (spelled : Spelling kind text.toList)
    (stops : ∀ cs, EndsName cs → Stops text.toList (laidText vs ++ cs) kind) (later : Cuts vs) :
    Cuts (.laid b kind text :: vs) where
  cut ends cut := by
    rw [List.map_cons, List.cons_append, laidText_cons, List.append_assoc, List.append_assoc]
    exact @Token.cut (.laid b kind text) _ _ spelled (stops _ ends) (later.cut ends cut)
  flat := List.forall_mem_cons.mpr ⟨rfl, later.flat⟩

theorem mark (mark : (Token.laid b kind text).IsMark) (later : Cuts vs) :
    Cuts (.laid b kind text :: vs) :=
  .cons mark.spelled (fun _ _ => mark.stops _) later

theorem arrow (later : Cuts vs) : Cuts (.laid b .arrow "->" :: vs) :=
  .cons (by simpa using .arrow) (fun _ _ => trivial) later

theorem name (spelled : Spelling .ident text.toList) (later : Cuts vs) (apart : StartsApart vs) :
    Cuts (.laid b .ident text :: vs) :=
  .cons spelled (fun _ ends _ => apart _ ends) later

end Cuts

end

end CodableSynthesis
