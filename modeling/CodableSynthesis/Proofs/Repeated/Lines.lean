import CodableSynthesis.Proofs.Nesting.Types
import CodableSynthesis.Proofs.Repeated.Typeset

/-!
The lines in generated bodies. Most tokens of such a line are fixed; the names of fields, their keys
and their types stand between those.

* `laysOut`: whether fixed tokens are cut as they are laid out.
* `BodyLine`: the tokens of a line, which leave no bracket open.
* `BodyLine.case`, `BodyLine.decode`, `BodyLine.encode`: the lines that a field adds to the three
  bodies.
* `BodyLine.decoder`, `BodyLine.encoder`: the lines that open a container.

Fixed tokens are tested by evaluation, so that each line needs an argument only where something is
put into it: a name, which is one token, or a type, whose tokens are those of its canonical text and
are balanced. The body of a method is passed over as a group when it is read, so that balance is all
that is needed of its lines.
-/

namespace CodableSynthesis

open Lexeme (Spelling)

/-! ### Fixed tokens -/

/-- Whether a token is a mark of one character. -/
def Token.isMark (t : Token) : Bool :=
  match t.chars with
  | [c] => Lexeme.punctuation? c = some t.kind
  | _ => false

/-- Whether no name goes on with the tokens, as it does not with what stands behind them if `apart`
says so. -/
def laysApart (apart : Bool) : List Token → Bool
  | [] => apart
  | t :: _ => !t.touches || t.isMark

/-- Whether the tokens are laid out marks and plain names, none of which goes on with the next. -/
def laysOut (apart : Bool) : List Token → Bool
  | [] => true
  | t :: ts =>
    t = .laid t.touches t.kind t.text &&
      (t.isMark || t.kind = .ident && isWord t.text && laysApart apart ts) && laysOut apart ts

theorem Token.isMark_iff {t : Token} : t.isMark = true ↔ t.IsMark := by
  rw [isMark, IsMark]
  split
  · next c chars => simp [chars]
  · next other =>
    simp only [Bool.false_eq_true, false_iff, not_exists, not_and]
    exact fun c chars => absurd chars (other c)

section

variable {apart : Bool} {us vs : List Token}

/-- What begins with tokens that lie apart does so. -/
theorem StartsApart.front (h : laysApart apart us = true) (ends : apart = true → StartsApart vs) :
    StartsApart (us ++ vs) := by
  cases us with
  | nil => exact ends h
  | cons u us =>
    simp only [laysApart, Bool.or_eq_true, Bool.not_eq_true'] at h
    rcases h with blank | mark
    · exact .blank blank
    · exact .mark (Token.isMark_iff.mp mark)

/-- Laid out marks and names in front of other tokens. -/
theorem Cuts.front (h : laysOut apart us = true) (later : Cuts vs)
    (ends : apart = true → StartsApart vs) : Cuts (us ++ vs) := by
  induction us with
  | nil => exact later
  | cons t us ih =>
    simp only [laysOut, Bool.and_eq_true, Bool.or_eq_true, decide_eq_true_eq] at h
    obtain ⟨⟨laid, shape⟩, others⟩ := h
    have behind := ih others
    obtain ⟨b, kind, text, rfl⟩ : ∃ b kind text, t = .laid b kind text := ⟨_, _, _, laid⟩
    rcases shape with mark | ⟨⟨rfl, word⟩, apart⟩
    · exact .mark (Token.isMark_iff.mp mark) behind
    · exact .name (.word word) behind (.front apart ends)

/-- Fixed tokens that lie apart to the end. -/
theorem Cuts.fixed (h : laysOut true us = true) : Cuts us := by
  have := Cuts.front h .nil fun _ _ => id
  rwa [List.append_nil] at this

end

namespace Laying

variable {kind : TokenKind} {text : String} {line : List Char} {ts : List Token}

theorem of_cuts (cuts : Cuts (.laid true kind text :: ts))
    (chars : line = laidText (.laid true kind text :: ts)) :
    Laying line (.laid true kind text :: ts) :=
  ⟨List.cons_ne_nil _ _, ⟨0, chars⟩, cuts⟩

end Laying

/-! ### Balanced tokens -/

namespace Group

variable {b : Bool} {ts us : List Token}

/-- Whether tokens are balanced depends on their kinds. -/
theorem Balanced.congr (h : Balanced ts) (kinds : us.map Token.kind = ts.map Token.kind) :
    Balanced us := by
  have same (stack : List Bracket) : opened stack us = opened stack ts := by
    clear h
    induction us generalizing ts stack with
    | nil =>
      obtain rfl := List.map_eq_nil_iff.mp kinds.symm
      rfl
    | cons u us ih =>
      obtain ⟨t, ts, rfl⟩ : ∃ t more, ts = t :: more := List.exists_cons_of_ne_nil (by
        rintro rfl
        cases kinds)
      obtain ⟨kind, kinds⟩ := List.cons.inj kinds
      have here : openedBy stack u = openedBy stack t := by rw [openedBy, openedBy, kind]
      rw [opened_cons, opened_cons, here]
      exact congrArg _ (funext (ih kinds))
  exact balanced_iff.mpr ((same []).trans (balanced_iff.mp h))

theorem Balanced.fresh (h : Balanced ts) : Balanced (fresh ts) :=
  h.congr (by cases ts <;> rfl)

/-- Balanced lines are balanced together. -/
theorem Balanced.lines {tss : List (List Token)} (h : ∀ ts ∈ tss, Balanced ts) :
    Balanced (tss.flatMap CodableSynthesis.fresh) := by
  induction tss with
  | nil => exact .nil
  | cons ts tss ih =>
    obtain ⟨here, others⟩ := List.forall_mem_cons.mp h
    exact here.fresh.append (ih others)

end Group

/-! ### The lines in bodies -/

/-- The tokens of a line of a generated body. -/
structure BodyLine (line : String) (ts : List Token) : Prop where
  /-- The line is laid out as the tokens. -/
  laying : Laying line.toList ts
  /-- The tokens are balanced. -/
  balanced : Group.Balanced ts

/-- The tokens between a target and the type that is decoded. -/
def decodingTokens (method : String) : List Token :=
  [.laid false .equals "=", .laid false .ident "try", .laid false .ident "container",
    .laid true .dot ".", .laid true .ident method, .laid true (.opening .parenthesis) "("]

/-- The tokens in front of the key of an argument. -/
def keyTokens : List Token :=
  [.laid true .comma ",", .laid false .ident "forKey", .laid true .colon ":", .laid false .dot "."]

/-- The tokens between a type that is decoded and its key. -/
def selfTokens : List Token :=
  .laid true .dot "." :: .laid true .ident "self" :: keyTokens

/-- The tokens in front of a value that is encoded, but for the first. -/
def encodingTokens : List Token :=
  [.laid false .ident "container", .laid true .dot ".", .laid true .ident "encode",
    .laid true (.opening .parenthesis) "("]

/-- A key and the parenthesis that closes the arguments. -/
def lastTokens (key : String) : List Token :=
  [.laid true .ident key, .laid true (.closing .parenthesis) ")"]

/-- The tokens of a case of an enumeration. -/
def caseTokens (key : String) : List Token :=
  [.laid true .ident "case", .laid false .ident key]

/-- The tokens that open the container of a coder. -/
def containerTokens (coder : String) : List Token :=
  [.laid false .ident coder, .laid true .dot ".", .laid true .ident "container",
    .laid true (.opening .parenthesis) "(", .laid true .ident "keyedBy", .laid true .colon ":",
    .laid false .ident keyEnumName, .laid true .dot ".", .laid true .ident "self",
    .laid true (.closing .parenthesis) ")"]

namespace BodyLine

variable {key : String} {ts : List Token}

/-- A line of fixed tokens. -/
theorem fixed {kind : TokenKind} {text line : String}
    (out : laysOut true (.laid true kind text :: ts) = true)
    (chars : line.toList = laidText (.laid true kind text :: ts))
    (balanced : Group.Balanced (.laid true kind text :: ts)) :
    BodyLine line (.laid true kind text :: ts) :=
  ⟨.of_cuts (.fixed out) chars, balanced⟩

theorem key_cuts (spelled : Spelling .ident key.toList) : Cuts (keyTokens ++ lastTokens key) := by
  have closer : (Token.laid true (.closing .parenthesis) ")").IsMark := ⟨')', by simp, rfl⟩
  have out : laysOut false keyTokens = true := by decide
  exact .front out (.name spelled (.mark closer .nil) (.mark closer)) nofun

/-- The line of a case of an enumeration. -/
theorem case (spelled : Spelling .ident key.toList) :
    BodyLine ("case " ++ key) (caseTokens key) where
  laying := .of_cuts (.name (.word (by decide)) (.name spelled .nil fun _ => id) (.blank rfl)) (by
    simp)
  balanced := Group.balanced_iff.mpr rfl

/-- The line that decodes a field. Its type is the one part that is not a single name. -/
theorem decode {s : DecodeStatement} (target : Spelling .ident s.target.toList)
    (key : Spelling .ident s.key.toList) (type : s.type.Buildable) : ∃ ts, BodyLine s.line ts := by
  obtain ⟨us, canonical⟩ := type
  have front (strategy : DecodeStrategy) :
      laysOut false (decodingTokens strategy.method) = true ∧
        laidText (decodingTokens strategy.method) =
          (" = try container." ++ strategy.method ++ "(").toList := by
    cases strategy <;> decide
  obtain ⟨out, text⟩ := front s.strategy
  have self : laidText selfTokens = ".self, forKey: .".toList := by decide
  have cuts : Cuts (.laid true .ident s.target :: (decodingTokens s.strategy.method ++
      (lead true us ++ (selfTokens ++ lastTokens s.key)))) := by
    have dot : (Token.laid true .dot ".").IsMark := ⟨'.', by simp, rfl⟩
    have shape : laysOut true [.laid true .dot ".", .laid true .ident "self"] = true := by decide
    have behind : Cuts ([.laid true .dot ".", .laid true .ident "self"] ++
        (keyTokens ++ lastTokens s.key)) :=
      .front shape (key_cuts key) fun _ => .mark ⟨',', by simp, rfl⟩
    exact .name target (.front out (.append (canonical.cuts true) behind (.mark dot)) nofun)
      (.blank rfl)
  refine ⟨_, .of_cuts cuts ?_, ?_⟩
  · rw [laidText_cons, laidText_append, laidText_append, laidText_append, text, self,
      canonical.text]
    simp [DecodeStatement.line, lastTokens]
  · -- the type stands in the parentheses
    have opens : Group.opened [] (.laid true .ident s.target :: decodingTokens s.strategy.method) =
        some [.parenthesis] := rfl
    rw [Group.balanced_iff, ← List.cons_append, Group.opened_append, opens, Option.bind_some,
      Group.opened_append, (canonical.balanced true).opened_eq]
    rfl

/-- The line that encodes a field. -/
theorem encode {s : EncodeStatement} (value : Spelling .ident s.value.toList)
    (key : Spelling .ident s.key.toList) : ∃ ts, BodyLine s.line ts := by
  have front : laidText (.laid true .ident "try" :: encodingTokens) =
      "try container.encode(".toList := by decide
  have forKey : laidText keyTokens = ", forKey: .".toList := by decide
  have cuts : Cuts (.laid true .ident "try" :: (encodingTokens ++
      .laid true .ident s.value :: (keyTokens ++ lastTokens s.key))) := by
    have out : laysOut false encodingTokens = true := by decide
    have argument : Cuts (.laid true .ident s.value :: (keyTokens ++ lastTokens s.key)) :=
      .name value (key_cuts key) (.mark ⟨',', by simp, rfl⟩)
    exact .name (.word (by decide)) (.front out argument nofun) (.blank rfl)
  refine ⟨_, .of_cuts cuts ?_, ?_⟩
  · rw [← List.cons_append, laidText_append, front, laidText_cons, laidText_append, forKey]
    unfold EncodeStatement.line lastTokens
    simp only [String.toList_append, laidText_cons, laidText_nil, Token.laid_touches,
      Token.laid_chars, if_true, List.nil_append, List.append_assoc, List.append_nil]
  · have opens : Group.opened [] (.laid true .ident "try" :: encodingTokens) =
        some [.parenthesis] := rfl
    rw [Group.balanced_iff, ← List.cons_append, Group.opened_append, opens]
    rfl

/-- The line that opens the container of a decoder. -/
theorem decoder : ∃ ts, BodyLine
    ("let container = try decoder.container(keyedBy: " ++ keyEnumName ++ ".self)") ts :=
  ⟨_, @fixed (.laid false .ident "container" :: .laid false .equals "=" ::
    .laid false .ident "try" :: containerTokens "decoder") .ident "let" _ (by decide) (by decide)
    (by decide)⟩

/-- The line that opens the container of an encoder. -/
theorem encoder : ∃ ts, BodyLine
    ("var container = encoder.container(keyedBy: " ++ keyEnumName ++ ".self)") ts :=
  ⟨_, @fixed (.laid false .ident "container" :: .laid false .equals "=" ::
    containerTokens "encoder") .ident "var" _ (by decide) (by decide) (by decide)⟩

end BodyLine

end CodableSynthesis
