import CodableSynthesis.Proofs.Grammar.Prefix
import CodableSynthesis.TypeExpr.Reading

/-!
The grammar of types. The readers of types call one another, so their grammar is one relation
`Spells` over the phrases they read, and a phrase carries the value it stands for.

* `Phrase.read_iff`: each reader reads exactly the phrases of its kind.
* `reads_read_iff`: the case of a whole type.
* `spells_name`: the smallest case, a type that is one name.

The two directions are proved differently. That everything in the grammar is read (`Spells.read`) is
an induction on the grammar, one case for each constructor. That everything read is in the grammar
(`spells_of_read`) goes by the measure that the readers recurse on: the number of tokens, and for
equal numbers the rank of the phrase. The structure `FollowsBelow` holds what the induction assumes,
and there is one lemma for each reader under it.
-/

namespace CodableSynthesis.TypeExpr

/-- What one of the readers of types reads, with its value. -/
inductive Phrase where
  | type (t : TypeExpr)
  /-- The operands of a composition behind its first ampersand. -/
  | parts (ts : List TypeExpr)
  | operand (t : TypeExpr)
  /-- What may follow `before` and makes it `after`. -/
  | marks (before after : TypeExpr)
  | primary (t : TypeExpr)
  | segment (s : PathSegment)
  | arguments (ts : List TypeExpr)
  /-- A tuple or function type behind its opening parenthesis. -/
  | parenthesized (t : TypeExpr)
  /-- The elements of a tuple behind its opening parenthesis, up to the one that closes it. -/
  | elements (es : List TupleElement)
  /-- The effects between the parameters of a function type and its arrow. -/
  | effects (es : List String)

/-- The tokens begin with a mark or a segment that belongs to the type before them. Marks have to
touch it; a segment belongs to a path only, touching or not. -/
def GoesOn (before : TypeExpr) (ts : List Token) : Prop :=
  (∃ t ∈ ts.head?, (t.kind = .question ∨ t.kind = .bang) ∧ t.touches = true) ∨
    (∃ path, before = .named path) ∧ StartsSegment ts

/-- The tokens begin with an angle bracket that nothing separates from what stands before it. -/
def StartsGenerics (ts : List Token) : Prop :=
  ∃ t ∈ ts.head?, t.kind = .less ∧ t.touches = true

/-- The tokens begin with the label of a tuple element. -/
def StartsLabel (ts : List Token) : Prop :=
  (∃ a b rest, ts = a :: b :: rest ∧ a.kind = .ident ∧ b.kind = .colon) ∨
    ∃ a b c rest, ts = a :: b :: c :: rest ∧ a.kind = .ident ∧ b.kind = .ident ∧ c.kind = .colon

/-- The label of a tuple element, if it has one. -/
inductive Label : List Token → Option String → List Token → Prop
  | none {ts : List Token} : ¬ StartsLabel ts → Label ts none ts
  | one {a b : Token} {rest : List Token} :
      a.kind = .ident → b.kind = .colon → Label (a :: b :: rest) (some a.text) rest
  | two {a b c : Token} {rest : List Token} :
      a.kind = .ident → b.kind = .ident → c.kind = .colon →
      Label (a :: b :: c :: rest) (some (a.text ++ " " ++ b.text)) rest

/-- The dots of a variadic parameter. -/
inductive Dots : List Token → List Token → Prop
  | stop {ts : List Token} : (∀ t ∈ ts.head?, ¬ (t.kind = .dot ∧ t.touches = true)) → Dots ts ts
  | dot {t : Token} {ts rest : List Token} :
      t.kind = .dot → t.touches = true → Dots ts rest → Dots (t :: ts) rest

/-- `Spells p ts rest`: the tokens `ts` begin with the phrase `p`, and `rest` is left. Every
constructor that ends a phrase says that what is left does not go on with it. -/
inductive Spells : Phrase → List Token → List Token → Prop
  | single {t : TypeExpr} {ts rest : List Token} :
      Spells (.operand t) ts rest → (∀ u ∈ rest.head?, u.kind ≠ .ampersand) →
      Spells (.type t) ts rest
  | composition {t : TypeExpr} {others : List TypeExpr} {u : Token} {ts more rest : List Token} :
      Spells (.operand t) ts (u :: more) → u.kind = .ampersand → Spells (.parts others) more rest →
      Spells (.type (.composition (t :: others))) ts rest
  | lastPart {t : TypeExpr} {ts rest : List Token} :
      Spells (.operand t) ts rest → (∀ u ∈ rest.head?, u.kind ≠ .ampersand) →
      Spells (.parts [t]) ts rest
  | part {t : TypeExpr} {others : List TypeExpr} {u : Token} {ts more rest : List Token} :
      Spells (.operand t) ts (u :: more) → u.kind = .ampersand → Spells (.parts others) more rest →
      Spells (.parts (t :: others)) ts rest
  | operand {before t : TypeExpr} {ts mid rest : List Token} :
      Spells (.primary before) ts mid → Spells (.marks before t) mid rest →
      Spells (.operand t) ts rest
  /-- Nothing follows that goes on with the type. This is where a type ends. -/
  | unmarked {t : TypeExpr} {ts : List Token} : ¬ GoesOn t ts → Spells (.marks t t) ts ts
  | optional {before t : TypeExpr} {u : Token} {ts rest : List Token} :
      u.kind = .question → u.touches = true → Spells (.marks (.optional before) t) ts rest →
      Spells (.marks before t) (u :: ts) rest
  | implicitlyUnwrapped {before t : TypeExpr} {u : Token} {ts rest : List Token} :
      u.kind = .bang → u.touches = true → Spells (.marks (.implicitlyUnwrapped before) t) ts rest →
      Spells (.marks before t) (u :: ts) rest
  /-- A further segment, if the type so far is a path. -/
  | path {path : List PathSegment} {s : PathSegment} {t : TypeExpr} {u n : Token}
      {ts mid rest : List Token} :
      u.kind = .dot → n.kind = .ident → Spells (.segment s) (n :: ts) mid →
      Spells (.marks (.named (path ++ [s])) t) mid rest →
      Spells (.marks (.named path) t) (u :: n :: ts) rest
  | attributed {a : Attribute} {as : List Attribute} {t : TypeExpr} {ts ts₁ ts₂ rest : List Token} :
      Attribute.Spelled ts a ts₁ → Attribute.AllSpelled ts₁ as ts₂ → Spells (.operand t) ts₂ rest →
      Spells (.primary (.attributed ((a :: as).map (·.name)) t)) ts rest
  | prefixed {t : TypeExpr} {u : Token} {ts rest : List Token} :
      u.kind = .ident → operandKeywords.contains u.text = true → startsOperand ts = true →
      Spells (.operand t) ts rest → Spells (.primary (.prefixed u.text t)) (u :: ts) rest
  /-- A name that is a keyword is a type name where no type follows. -/
  | named {s : PathSegment} {u : Token} {ts rest : List Token} :
      u.kind = .ident → (operandKeywords.contains u.text = true → startsOperand ts = false) →
      Spells (.segment s) (u :: ts) rest → Spells (.primary (.named [s])) (u :: ts) rest
  | array {t : TypeExpr} {u v : Token} {ts rest : List Token} :
      u.kind = .opening .square → Spells (.type t) ts (v :: rest) → v.kind = .closing .square →
      Spells (.primary (.array t)) (u :: ts) rest
  | dictionary {key value : TypeExpr} {u v w : Token} {ts mid rest : List Token} :
      u.kind = .opening .square → Spells (.type key) ts (v :: mid) → v.kind = .colon →
      Spells (.type value) mid (w :: rest) → w.kind = .closing .square →
      Spells (.primary (.dictionary key value)) (u :: ts) rest
  | parenthesized {t : TypeExpr} {u : Token} {ts rest : List Token} :
      u.kind = .opening .parenthesis → Spells (.parenthesized t) ts rest →
      Spells (.primary t) (u :: ts) rest
  | plainSegment {n : Token} {rest : List Token} :
      n.kind = .ident → ¬ StartsGenerics rest → Spells (.segment (.mk n.text [])) (n :: rest) rest
  | genericSegment {as : List TypeExpr} {n u : Token} {ts rest : List Token} :
      n.kind = .ident → u.kind = .less → u.touches = true → Spells (.arguments as) ts rest →
      Spells (.segment (.mk n.text as)) (n :: u :: ts) rest
  | lastArgument {t : TypeExpr} {u : Token} {ts rest : List Token} :
      Spells (.type t) ts (u :: rest) → u.kind = .greater → Spells (.arguments [t]) ts rest
  | argument {t : TypeExpr} {others : List TypeExpr} {u : Token} {ts more rest : List Token} :
      Spells (.type t) ts (u :: more) → u.kind = .comma → Spells (.arguments others) more rest →
      Spells (.arguments (t :: others)) ts rest
  /-- Elements without effects, and no arrow behind them. -/
  | tuple {es : List TupleElement} {ts mid rest : List Token} :
      Spells (.elements es) ts mid → Spells (.effects []) mid rest →
      (∀ u ∈ rest.head?, u.kind ≠ .arrow) → Spells (.parenthesized (.tuple es)) ts rest
  | function {es : List TupleElement} {fx : List String} {result : TypeExpr} {u : Token}
      {ts mid more rest : List Token} :
      Spells (.elements es) ts mid → Spells (.effects fx) mid (u :: more) → u.kind = .arrow →
      Spells (.type result) more rest → Spells (.parenthesized (.function es fx result)) ts rest
  | noElement {u : Token} {rest : List Token} :
      u.kind = .closing .parenthesis → Spells (.elements []) (u :: rest) rest
  | lastElement {label : Option String} {t : TypeExpr} {u v : Token}
      {ts ts₁ ts₂ rest : List Token} :
      u.kind ≠ .closing .parenthesis → Label (u :: ts) label ts₁ → Spells (.type t) ts₁ ts₂ →
      Dots ts₂ (v :: rest) → v.kind = .closing .parenthesis →
      Spells (.elements [.mk label t]) (u :: ts) rest
  | element {label : Option String} {t : TypeExpr} {others : List TupleElement} {u v : Token}
      {ts ts₁ ts₂ more rest : List Token} :
      u.kind ≠ .closing .parenthesis → Label (u :: ts) label ts₁ → Spells (.type t) ts₁ ts₂ →
      Dots ts₂ (v :: more) → v.kind = .comma → Spells (.elements others) more rest →
      Spells (.elements (.mk label t :: others)) (u :: ts) rest
  | noEffect {ts : List Token} :
      (∀ u ∈ ts.head?, u.isWordIn effectWords = false) → Spells (.effects []) ts ts
  | effect {es : List String} {u : Token} {ts rest : List Token} :
      u.isWordIn effectWords = true → ¬ Group.StartsArguments ts → Spells (.effects es) ts rest →
      Spells (.effects (u.text :: es)) (u :: ts) rest
  /-- An effect with a type in parentheses, which is kept as text. -/
  | typedEffect {error : TypeExpr} {es : List String} {u v w : Token} {ts mid rest : List Token} :
      u.isWordIn effectWords = true → v.kind = .opening .parenthesis → v.touches = true →
      Spells (.type error) ts (w :: mid) → w.kind = .closing .parenthesis →
      Spells (.effects es) mid rest →
      Spells (.effects ((u.text ++ "(" ++ error.render ++ ")") :: es)) (u :: v :: ts) rest

/-! ### The readers follow the grammar

First the readers that cannot fail, then the others, each under the assumption that those it calls
follow the grammar. -/

/-- The label that the reader gives is the one that the tokens begin with, if any. -/
theorem label_readLabel (ts : List Token) : Label ts (readLabel ts).value (readLabel ts).rest := by
  rw [readLabel.eq_def]
  split
  · next a b c rest =>
    split
    · next one =>
      simp only [Bool.and_eq_true, decide_eq_true_eq] at one
      exact .one one.1 one.2
    · next notOne =>
      simp only [Bool.and_eq_true, decide_eq_true_eq, not_and] at notOne
      split
      · next two =>
        simp only [Bool.and_eq_true, decide_eq_true_eq] at two
        exact .two two.1.1 two.1.2 two.2
      · next notTwo =>
        simp only [Bool.and_eq_true, decide_eq_true_eq, not_and] at notTwo
        refine .none ?_
        rintro (⟨_, _, _, ⟨⟩, ident, colon⟩ | ⟨_, _, _, _, ⟨⟩, ident, ident', colon⟩)
        · exact notOne ident colon
        · exact notTwo ⟨ident, ident'⟩ colon
  · next a b =>
    split
    · next one =>
      simp only [Bool.and_eq_true, decide_eq_true_eq] at one
      exact .one one.1 one.2
    · next notOne =>
      simp only [Bool.and_eq_true, decide_eq_true_eq, not_and] at notOne
      refine .none ?_
      rintro (⟨_, _, _, ⟨⟩, ident, colon⟩ | ⟨_, _, _, _, ⟨⟩, -⟩)
      exact notOne ident colon
  · exact .none (by rintro (⟨_, _, _, ⟨⟩, -⟩ | ⟨_, _, _, _, ⟨⟩, -⟩))
  · exact .none (by rintro (⟨_, _, _, ⟨⟩, -⟩ | ⟨_, _, _, _, ⟨⟩, -⟩))

theorem Label.unique {ts rest₁ rest₂ : List Token} {label₁ label₂ : Option String}
    (h₁ : Label ts label₁ rest₁) (h₂ : Label ts label₂ rest₂) :
    label₁ = label₂ ∧ rest₁ = rest₂ := by
  cases h₁ with
  | none absent =>
    cases h₂ with
    | none => exact ⟨rfl, rfl⟩
    | one ident colon => exact absurd (.inl ⟨_, _, _, rfl, ident, colon⟩) absent
    | two ident ident' colon => exact absurd (.inr ⟨_, _, _, _, rfl, ident, ident', colon⟩) absent
  | one ident colon =>
    cases h₂ with
    | none absent => exact absurd (.inl ⟨_, _, _, rfl, ident, colon⟩) absent
    | one => exact ⟨rfl, rfl⟩
    | two _ ident' => rw [colon] at ident'; cases ident'
  | two ident ident' colon =>
    cases h₂ with
    | none absent => exact absurd (.inr ⟨_, _, _, _, rfl, ident, ident', colon⟩) absent
    | one _ colon' => rw [colon'] at ident'; cases ident'
    | two => exact ⟨rfl, rfl⟩

/-- So a label of the tokens is what the reader gives. -/
theorem Label.readLabel_eq {ts rest : List Token} {label : Option String}
    (h : Label ts label rest) :
    ∃ shorter, readLabel ts = ⟨label, rest, shorter⟩ := by
  obtain ⟨rfl, rfl⟩ := h.unique (label_readLabel ts)
  exact ⟨(readLabel ts).shorter, rfl⟩

/-- All dots that touch are skipped. -/
theorem dots_skipDots (ts : List Token) : Dots ts (skipDots ts).rest := by
  induction ts with
  | nil => exact .stop (by simp)
  | cons t ts ih =>
    rw [skipDots]
    split
    · next dot =>
      simp only [Bool.and_eq_true, decide_eq_true_eq] at dot
      exact .dot dot.1 dot.2 ih
    · next stops =>
      simp only [Bool.and_eq_true, decide_eq_true_eq] at stops
      exact .stop (by rintro _ ⟨⟩; exact stops)

theorem Dots.unique {ts rest₁ rest₂ : List Token} (h₁ : Dots ts rest₁) (h₂ : Dots ts rest₂) :
    rest₁ = rest₂ := by
  induction h₁ with
  | stop stops =>
    cases h₂ with
    | stop => rfl
    | dot dot touches => exact absurd ⟨dot, touches⟩ (stops _ rfl)
  | dot dot touches _ ih =>
    cases h₂ with
    | stop stops => exact absurd ⟨dot, touches⟩ (stops _ rfl)
    | dot _ _ h₂ => exact ih h₂

theorem Dots.skipDots_eq {ts rest : List Token} (h : Dots ts rest) :
    ∃ shorter, skipDots ts = ⟨(), rest, shorter⟩ := by
  obtain rfl := h.unique (dots_skipDots ts)
  exact ⟨(skipDots ts).shorter, rfl⟩

namespace Phrase

/-- The reader of a phrase reads it. -/
def Read : Phrase → List Token → List Token → Prop
  | .type t, ts, rest => Reads (TypeExpr.read ts) t rest
  | .parts ps, ts, rest => Reads (readParts ts) ps rest
  | .operand t, ts, rest => Reads (readOperand ts) t rest
  | .marks before after, ts, rest => Reads (readMarks before ts) after rest
  | .primary t, ts, rest => Reads (readPrimary ts) t rest
  | .segment s, ts, rest => Reads (readSegment ts) s rest
  | .arguments as, ts, rest => Reads (readArguments ts) as rest
  | .parenthesized t, ts, rest => Reads (readParenthesized ts) t rest
  | .elements es, ts, rest => Reads (readElements ts) es rest
  | .effects es, ts, rest => Reads (readEffects ts) es rest

/-- The order in which the readers call one another on the same tokens: a reader of higher rank
calls one of lower rank. These are the numbers in the measure that the readers recurse on. -/
def rank : Phrase → Nat
  | .marks .. | .effects _ => 1
  | .segment _ => 2
  | .primary _ => 3
  | .operand _ => 4
  | .type _ | .parts _ => 5
  | .arguments _ | .elements _ => 6
  | .parenthesized _ => 7

theorem rank_le (p : Phrase) : p.rank ≤ 7 := by
  cases p <;> simp [rank]

end Phrase

/-- The readers follow the grammar on phrases of the tokens `ts` below the rank `r`, and on any
phrase of fewer tokens. -/
structure FollowsBelow (ts : List Token) (r : Nat) : Prop where
  /-- Fewer tokens, and any phrase. -/
  shorter : ∀ {p : Phrase} {us rest : List Token},
    us.length < ts.length → p.Read us rest → Spells p us rest
  /-- The same tokens, and a phrase of lower rank. -/
  lower : ∀ {p : Phrase} {rest : List Token}, p.rank < r → p.Read ts rest → Spells p ts rest

namespace FollowsBelow

variable {ts rest : List Token}

theorem type {t : TypeExpr} (ih : FollowsBelow ts 5) (h : Reads (TypeExpr.read ts) t rest) :
    Spells (.type t) ts rest := by
  rw [TypeExpr.read] at h
  obtain ⟨first, mid, lt, operand, h⟩ := h.of_bind
  have operand : Spells (.operand first) ts mid := ih.lower (Nat.lt_add_one _) ⟨lt, operand⟩
  cases mid with
  | nil =>
    obtain ⟨rfl, rfl⟩ := Reads.ok_iff.mp h
    exact .single operand (by simp)
  | cons u more =>
    dsimp only at h
    split at h
    · next ampersand =>
      obtain ⟨others, mid', lt', parts, h⟩ := h.of_bind
      obtain ⟨rfl, rfl⟩ := Reads.ok_iff.mp h
      exact .composition operand ampersand
        (ih.shorter (p := .parts _) (Nat.lt_of_succ_lt lt) ⟨lt', parts⟩)
    · next single =>
      obtain ⟨rfl, rfl⟩ := Reads.ok_iff.mp h
      exact .single operand (by simpa using single)

theorem parts {ps : List TypeExpr} (ih : FollowsBelow ts 5) (h : Reads (readParts ts) ps rest) :
    Spells (.parts ps) ts rest := by
  rw [readParts] at h
  obtain ⟨first, mid, lt, operand, h⟩ := h.of_bind
  have operand : Spells (.operand first) ts mid := ih.lower (Nat.lt_add_one _) ⟨lt, operand⟩
  cases mid with
  | nil =>
    obtain ⟨rfl, rfl⟩ := Reads.ok_iff.mp h
    exact .lastPart operand (by simp)
  | cons u more =>
    dsimp only at h
    split at h
    · next ampersand =>
      obtain ⟨others, mid', lt', parts, h⟩ := h.of_bind
      obtain ⟨rfl, rfl⟩ := Reads.ok_iff.mp h
      exact .part operand ampersand
        (ih.shorter (p := .parts _) (Nat.lt_of_succ_lt lt) ⟨lt', parts⟩)
    · next single =>
      obtain ⟨rfl, rfl⟩ := Reads.ok_iff.mp h
      exact .lastPart operand (by simpa using single)

theorem operand {t : TypeExpr} (ih : FollowsBelow ts 4) (h : Reads (readOperand ts) t rest) :
    Spells (.operand t) ts rest := by
  rw [readOperand] at h
  obtain ⟨before, mid, lt, primary, h⟩ := h.of_bind
  exact .operand (ih.lower (p := .primary _) (Nat.lt_add_one _) ⟨lt, primary⟩)
    (ih.shorter (p := .marks before t) lt h.of_widen)

theorem marks {before t : TypeExpr} (ih : FollowsBelow ts 1)
    (h : Reads (readMarks before ts) t rest) : Spells (.marks before t) ts rest := by
  cases ts with
  | nil =>
    rw [readMarks] at h
    obtain ⟨rfl, rfl⟩ := Reads.ok_iff.mp h
    exact .unmarked (by rintro (⟨_, ⟨⟩, -⟩ | ⟨-, _, _, _, ⟨⟩, -⟩))
  | cons u us =>
    rw [readMarks.eq_def] at h
    dsimp only at h
    split at h
    · next question touches =>
      exact .optional question touches
        (ih.shorter (p := .marks _ _) (Nat.lt_add_one _) h.of_wider)
    · next bang touches =>
      exact .implicitlyUnwrapped bang touches
        (ih.shorter (p := .marks _ _) (Nat.lt_add_one _) h.of_wider)
    · next dot =>
      split at h
      · next path n more =>
        split at h
        · next ident =>
          obtain ⟨s, mid, lt, segment, h⟩ := h.of_bind
          exact .path dot ident (ih.shorter (p := .segment s) (Nat.lt_add_one _) ⟨lt, segment⟩)
            (ih.shorter (p := .marks _ _) (Nat.lt_succ_of_lt lt) h.of_widen)
        · next notIdent =>
          obtain ⟨rfl, rfl⟩ := Reads.ok_iff.mp h
          refine .unmarked ?_
          rintro (⟨_, ⟨⟩, kind, -⟩ | ⟨-, _, _, _, ⟨⟩, -, ident⟩)
          · rw [dot] at kind; simp at kind
          · exact notIdent ident
      · next noSegment =>
        obtain ⟨rfl, rfl⟩ := Reads.ok_iff.mp h
        refine .unmarked ?_
        rintro (⟨_, ⟨⟩, kind, -⟩ | ⟨⟨path, rfl⟩, _, n, more, ⟨⟩, -⟩)
        · rw [dot] at kind; simp at kind
        · exact noSegment path n more rfl rfl
    · next notDot notQuestion notBang =>
      obtain ⟨rfl, rfl⟩ := Reads.ok_iff.mp h
      refine .unmarked ?_
      rintro (⟨_, ⟨⟩, kind | kind, touches⟩ | ⟨-, _, _, _, ⟨⟩, dot, -⟩)
      · exact notQuestion kind touches
      · exact notBang kind touches
      · exact notDot dot

theorem primary {t : TypeExpr} (ih : FollowsBelow ts 3) (h : Reads (readPrimary ts) t rest) :
    Spells (.primary t) ts rest := by
  cases ts with
  | nil => rw [readPrimary] at h; exact absurd h Reads.not_error
  | cons u us =>
    rw [readPrimary.eq_def] at h
    dsimp only at h
    split at h
    · obtain ⟨a, ts₁, lt₁, first, h⟩ := h.of_bind
      obtain ⟨as, ts₂, lt₂, others, h⟩ := h.of_bind
      obtain ⟨operand, ts₃, lt₃, type, h⟩ := h.of_bind
      obtain ⟨rfl, rfl⟩ := Reads.ok_iff.mp h
      refine .attributed (Attribute.reads_read_iff.mp ⟨lt₁, first⟩)
        (Attribute.reads_readAll_iff.mp ⟨lt₂, others⟩)
        (ih.shorter (p := .operand _) ?_ ⟨lt₃, type⟩)
      exact Nat.lt_of_le_of_lt (Nat.le_of_lt_succ lt₂) lt₁
    · next ident =>
      split at h
      · next isPrefix =>
        simp only [Bool.and_eq_true] at isPrefix
        obtain ⟨operand, mid, lt, type, h⟩ := h.of_bind
        obtain ⟨rfl, rfl⟩ := Reads.ok_iff.mp h
        exact .prefixed ident isPrefix.1 isPrefix.2
          (ih.shorter (p := .operand _) (Nat.lt_add_one _) ⟨lt, type⟩)
      · next noPrefix =>
        obtain ⟨s, mid, lt, segment, h⟩ := h.of_bind
        obtain ⟨rfl, rfl⟩ := Reads.ok_iff.mp h
        refine .named ident (fun keyword => ?_)
          (ih.lower (p := .segment s) (Nat.lt_add_one _) ⟨lt, segment⟩)
        rw [keyword] at noPrefix
        simpa using noPrefix
    · next opens =>
      obtain ⟨element, mid, lt, type, h⟩ := h.of_bind
      have type : Spells (.type element) us mid :=
        ih.shorter (p := .type _) (Nat.lt_add_one _) ⟨lt, type⟩
      cases mid with
      | nil => exact absurd h Reads.not_error
      | cons v more =>
        dsimp only at h
        split at h
        · next colon =>
          obtain ⟨value, ts₃, lt₃, valueType, h⟩ := h.of_bind
          obtain ⟨w, ts₄, lt₄, last, h⟩ := h.of_bind
          obtain ⟨rfl, rfl⟩ := Reads.ok_iff.mp h
          dsimp only at last
          obtain ⟨rfl, closes⟩ := Token.reads_expect_iff.mp ⟨lt₄, last⟩
          refine .dictionary opens type colon (ih.shorter (p := .type _) ?_ ⟨lt₃, valueType⟩) closes
          simp only [List.length_cons] at lt ⊢
          omega
        · obtain ⟨w, ts₃, lt₃, last, h⟩ := h.of_bind
          obtain ⟨rfl, rfl⟩ := Reads.ok_iff.mp h
          obtain ⟨⟨⟩, closes⟩ := Token.reads_expect_iff.mp ⟨lt₃, last⟩
          exact .array opens type closes
    · next opens =>
      exact .parenthesized opens (ih.shorter (p := .parenthesized t) (Nat.lt_add_one _) h.of_wider)
    · exact absurd h Reads.not_error

theorem segment {s : PathSegment} (ih : FollowsBelow ts 2) (h : Reads (readSegment ts) s rest) :
    Spells (.segment s) ts rest := by
  rw [readSegment] at h
  obtain ⟨n, mid, lt, name, h⟩ := h.of_bind
  obtain ⟨rfl, ident⟩ := Token.reads_expect_iff.mp ⟨lt, name⟩
  cases mid with
  | nil =>
    obtain ⟨rfl, rfl⟩ := Reads.ok_iff.mp h
    exact .plainSegment ident (by rintro ⟨_, ⟨⟩, -⟩)
  | cons u more =>
    dsimp only at h
    split at h
    · next opens =>
      simp only [Bool.and_eq_true, decide_eq_true_eq] at opens
      obtain ⟨as, mid, lt', arguments, h⟩ := h.of_bind
      obtain ⟨rfl, rfl⟩ := Reads.ok_iff.mp h
      refine .genericSegment ident opens.1 opens.2
        (ih.shorter (p := .arguments as) ?_ ⟨lt', arguments⟩)
      simp only [List.length_cons]
      omega
    · next noArguments =>
      simp only [Bool.and_eq_true, decide_eq_true_eq] at noArguments
      obtain ⟨rfl, rfl⟩ := Reads.ok_iff.mp h
      exact .plainSegment ident (by rintro ⟨_, ⟨⟩, opens⟩; exact noArguments opens)

theorem arguments {as : List TypeExpr} (ih : FollowsBelow ts 6)
    (h : Reads (readArguments ts) as rest) : Spells (.arguments as) ts rest := by
  rw [readArguments] at h
  obtain ⟨t, mid, lt, type, h⟩ := h.of_bind
  have type : Spells (.type t) ts mid := ih.lower (p := .type _) (Nat.lt_add_one _) ⟨lt, type⟩
  cases mid with
  | nil => exact absurd h Reads.not_error
  | cons u more =>
    dsimp only at h
    split at h
    · next comma =>
      obtain ⟨others, mid', lt', more, h⟩ := h.of_bind
      obtain ⟨rfl, rfl⟩ := Reads.ok_iff.mp h
      exact .argument type comma
        (ih.shorter (p := .arguments _) (Nat.lt_of_succ_lt lt) ⟨lt', more⟩)
    · obtain ⟨w, mid', lt', last, h⟩ := h.of_bind
      obtain ⟨rfl, rfl⟩ := Reads.ok_iff.mp h
      obtain ⟨⟨⟩, closes⟩ := Token.reads_expect_iff.mp ⟨lt', last⟩
      exact .lastArgument type closes

theorem parenthesized {t : TypeExpr} (ih : FollowsBelow ts 7)
    (h : Reads (readParenthesized ts) t rest) : Spells (.parenthesized t) ts rest := by
  rw [readParenthesized] at h
  obtain ⟨es, ts₁, lt₁, elements, h⟩ := h.of_bind
  obtain ⟨fx, ts₂, lt₂, effects, h⟩ := h.of_bind
  have elements : Spells (.elements es) ts ts₁ :=
    ih.lower (p := .elements _) (Nat.lt_add_one _) ⟨lt₁, elements⟩
  have effects : Spells (.effects fx) ts₁ ts₂ := ih.shorter (p := .effects _) lt₁ ⟨lt₂, effects⟩
  have none (empty : fx.isEmpty = true) : Spells (.effects []) ts₁ ts₂ := by
    rwa [List.isEmpty_iff.mp empty] at effects
  cases ts₂ with
  | nil =>
    dsimp only at h
    split at h
    · next empty =>
      obtain ⟨rfl, rfl⟩ := Reads.ok_iff.mp h
      exact .tuple elements (none empty) (by simp)
    · exact absurd h Reads.not_error
  | cons u more =>
    dsimp only at h
    split at h
    · next arrow =>
      obtain ⟨result, ts₃, lt₃, type, h⟩ := h.of_bind
      obtain ⟨rfl, rfl⟩ := Reads.ok_iff.mp h
      refine .function elements effects arrow (ih.shorter (p := .type _) ?_ ⟨lt₃, type⟩)
      simp only [List.length_cons] at lt₂
      omega
    · next noArrow =>
      split at h
      · next empty =>
        obtain ⟨rfl, rfl⟩ := Reads.ok_iff.mp h
        exact .tuple elements (none empty) (by simpa using noArrow)
      · exact absurd h Reads.not_error

theorem elements {es : List TupleElement} (ih : FollowsBelow ts 6)
    (h : Reads (readElements ts) es rest) : Spells (.elements es) ts rest := by
  cases ts with
  | nil => rw [readElements] at h; exact absurd h Reads.not_error
  | cons u us =>
    rw [readElements] at h
    split at h
    · next closes =>
      obtain ⟨rfl, rfl⟩ := Reads.ok_iff.mp h
      exact .noElement closes
    · next opens =>
      have label := label_readLabel (u :: us)
      dsimp only at h
      generalize readLabel (u :: us) = step at h label
      obtain ⟨label?, ts₁, lt₁⟩ := step
      dsimp only at label
      obtain ⟨t, ts₂, lt₂, type, h⟩ := h.of_bind
      have type : Spells (.type t) ts₁ ts₂ := by
        rcases Nat.lt_or_eq_of_le (Nat.le_of_lt_succ lt₁) with lt | same
        · exact ih.shorter (p := .type _) lt ⟨lt₂, type⟩
        · cases label with
          | none => exact ih.lower (p := .type _) (Nat.lt_add_one _) ⟨lt₂, type⟩
          | one | two => simp only [List.length_cons] at same; omega
      have dots := dots_skipDots ts₂
      dsimp only at h
      generalize skipDots ts₂ = step at h dots
      obtain ⟨⟨⟩, ts₃, lt₃⟩ := step
      cases ts₃ with
      | nil => exact absurd h Reads.not_error
      | cons v more =>
        dsimp only at h
        split at h
        · next comma =>
          obtain ⟨others, mid, lt₄, elements, h⟩ := h.of_bind
          obtain ⟨rfl, rfl⟩ := Reads.ok_iff.mp h
          refine .element opens label type dots comma
            (ih.shorter (p := .elements _) ?_ ⟨lt₄, elements⟩)
          simp only [List.length_cons] at lt₁ lt₂ lt₃ ⊢
          omega
        · split at h
          · next closes =>
            obtain ⟨rfl, rfl⟩ := Reads.ok_iff.mp h
            exact .lastElement opens label type dots closes
          · exact absurd h Reads.not_error

theorem effects {es : List String} (ih : FollowsBelow ts 1) (h : Reads (readEffects ts) es rest) :
    Spells (.effects es) ts rest := by
  match ts with
  | [] =>
    rw [readEffects] at h
    obtain ⟨rfl, rfl⟩ := Reads.ok_iff.mp h
    exact .noEffect (by simp)
  | u :: us =>
    rw [readEffects.eq_def] at h
    dsimp only at h
    split at h
    · next effect =>
      split at h
      · obtain ⟨rfl, rfl⟩ := Reads.ok_iff.mp h
        exact .effect effect (by rintro ⟨_, ⟨⟩, -⟩) (.noEffect (by simp))
      · next v more =>
        split at h
        · next opens =>
          simp only [Bool.and_eq_true, decide_eq_true_eq] at opens
          obtain ⟨error, ts₁, lt₁, type, h⟩ := h.of_bind
          obtain ⟨w, ts₂, lt₂, last, h⟩ := h.of_bind
          obtain ⟨es', ts₃, lt₃, effects, h⟩ := h.of_bind
          obtain ⟨rfl, rfl⟩ := Reads.ok_iff.mp h
          obtain ⟨rfl, closes⟩ := Token.reads_expect_iff.mp ⟨lt₂, last⟩
          refine .typedEffect effect opens.1 opens.2 (ih.shorter (p := .type _) ?_ ⟨lt₁, type⟩)
            closes (ih.shorter (p := .effects _) ?_ ⟨lt₃, effects⟩)
          · simp only [List.length_cons]
            omega
          · simp only [List.length_cons] at lt₁ lt₂ ⊢
            omega
        · next noArguments =>
          simp only [Bool.and_eq_true, decide_eq_true_eq] at noArguments
          obtain ⟨es', ts₁, lt₁, effects, h⟩ := h.of_bind
          obtain ⟨rfl, rfl⟩ := Reads.ok_iff.mp h
          exact .effect effect (by rintro ⟨_, ⟨⟩, opens⟩; exact noArguments opens)
            (ih.shorter (p := .effects _) (Nat.lt_add_one _) ⟨lt₁, effects⟩)
    · next noEffect =>
      obtain ⟨rfl, rfl⟩ := Reads.ok_iff.mp h
      exact .noEffect (by simpa using noEffect)

end FollowsBelow

/-- What a reader reads is a phrase of its kind. Each reader calls others on fewer tokens, or on the
same tokens for a phrase of lower rank. -/
theorem spells_of_read {p : Phrase} {ts rest : List Token} (h : p.Read ts rest) :
    Spells p ts rest := by
  induction hn : 8 * ts.length + p.rank using Nat.strongRecOn generalizing p ts rest with
  | ind n ih =>
    have below : FollowsBelow ts p.rank :=
      { shorter := fun {q _ _} lt read => ih _ (by have := q.rank_le; omega) read rfl
        lower := fun lt read => ih _ (by omega) read rfl }
    cases p with
    | type t => exact below.type h
    | parts ps => exact below.parts h
    | operand t => exact below.operand h
    | marks before after => exact below.marks h
    | primary t => exact below.primary h
    | segment s => exact below.segment h
    | arguments as => exact below.arguments h
    | parenthesized t => exact below.parenthesized h
    | elements es => exact below.elements h
    | effects es => exact below.effects h

/-- Every phrase of the grammar is read, and by the reader of its kind. Case by case the reader is
unfolded once, and the side conditions of the constructor decide its branches. -/
theorem Spells.read {p : Phrase} {ts rest : List Token} (h : Spells p ts rest) :
    p.Read ts rest := by
  induction h with
  | @single t ts rest _ ends operand =>
    rw [Phrase.Read, TypeExpr.read.eq_def]
    refine operand.bind fun _ => ?_
    cases rest with
    | nil => exact Reads.ok
    | cons u more =>
      dsimp only
      rw [if_neg (ends u rfl)]
      exact Reads.ok
  | composition _ ampersand _ operand parts =>
    rw [Phrase.Read, TypeExpr.read.eq_def]
    refine operand.bind fun _ => ?_
    dsimp only
    rw [if_pos ampersand]
    exact parts.bind fun _ => Reads.ok
  | @lastPart t ts rest _ ends operand =>
    rw [Phrase.Read, readParts.eq_def]
    refine operand.bind fun _ => ?_
    cases rest with
    | nil => exact Reads.ok
    | cons u more =>
      dsimp only
      rw [if_neg (ends u rfl)]
      exact Reads.ok
  | part _ ampersand _ operand parts =>
    rw [Phrase.Read, readParts.eq_def]
    refine operand.bind fun _ => ?_
    dsimp only
    rw [if_pos ampersand]
    exact parts.bind fun _ => Reads.ok
  | operand _ _ primary marks =>
    rw [Phrase.Read, readOperand.eq_def]
    exact primary.bind fun _ => marks.widen
  | @unmarked t ts ends =>
    rw [Phrase.Read, readMarks.eq_def]
    cases ts with
    | nil => exact Reads.ok
    | cons u more =>
      dsimp only
      split
      · next question touches => exact absurd (.inl ⟨u, rfl, .inl question, touches⟩) ends
      · next bang touches => exact absurd (.inl ⟨u, rfl, .inr bang, touches⟩) ends
      · next dot =>
        split
        · next path n more =>
          split
          · next ident => exact absurd (.inr ⟨⟨path, rfl⟩, u, n, more, rfl, dot, ident⟩) ends
          · exact Reads.ok
        · exact Reads.ok
      · exact Reads.ok
  | optional question touches _ marks =>
    rw [Phrase.Read, readMarks.eq_def]
    dsimp only
    rw [question, touches]
    exact marks.wider
  | implicitlyUnwrapped bang touches _ marks =>
    rw [Phrase.Read, readMarks.eq_def]
    dsimp only
    rw [bang, touches]
    exact marks.wider
  | path dot ident _ _ segment marks =>
    rw [Phrase.Read, readMarks.eq_def]
    dsimp only
    rw [dot]
    dsimp only
    rw [if_pos ident]
    exact segment.bind fun _ => marks.widen
  | attributed first others _ operand =>
    obtain ⟨sign, us, rfl, kind, -⟩ := first.head
    rw [Phrase.Read, readPrimary.eq_def]
    dsimp only
    rw [kind]
    refine (Attribute.reads_read_iff.mpr first).bind fun _ => ?_
    refine (Attribute.reads_readAll_iff.mpr others).bind fun _ => ?_
    exact operand.bind fun _ => Reads.ok
  | prefixed ident keyword starts _ operand =>
    rw [Phrase.Read, readPrimary.eq_def]
    dsimp only
    rw [ident]
    dsimp only
    rw [if_pos (by rw [keyword, starts]; rfl)]
    exact operand.bind fun _ => Reads.ok
  | named ident noPrefix _ segment =>
    rw [Phrase.Read, readPrimary.eq_def]
    dsimp only
    rw [ident]
    dsimp only
    rw [if_neg (by simpa using noPrefix)]
    exact segment.bind fun _ => Reads.ok
  | array opens _ closes element =>
    rw [Phrase.Read, readPrimary.eq_def]
    dsimp only
    rw [opens]
    refine element.bind fun _ => ?_
    dsimp only
    rw [if_neg (by rw [closes]; simp)]
    exact (Token.reads_expect_iff.mpr ⟨rfl, closes⟩).bind fun _ => Reads.ok
  | dictionary opens _ colon _ closes key value =>
    rw [Phrase.Read, readPrimary.eq_def]
    dsimp only
    rw [opens]
    refine key.bind fun _ => ?_
    dsimp only
    rw [if_pos colon]
    refine value.bind fun _ => ?_
    exact (Token.reads_expect_iff.mpr ⟨rfl, closes⟩).bind fun _ => Reads.ok
  | parenthesized opens _ inner =>
    rw [Phrase.Read, readPrimary.eq_def]
    dsimp only
    rw [opens]
    exact inner.wider
  | @plainSegment n rest ident noArguments =>
    rw [Phrase.Read, readSegment.eq_def]
    refine (Token.reads_expect_iff.mpr ⟨rfl, ident⟩).bind fun _ => ?_
    cases rest with
    | nil => exact Reads.ok
    | cons u more =>
      dsimp only
      rw [if_neg]
      · exact Reads.ok
      · simp only [Bool.and_eq_true, decide_eq_true_eq]
        rintro ⟨less, touches⟩
        exact noArguments ⟨u, rfl, less, touches⟩
  | genericSegment ident less touches _ arguments =>
    rw [Phrase.Read, readSegment.eq_def]
    refine (Token.reads_expect_iff.mpr ⟨rfl, ident⟩).bind fun _ => ?_
    dsimp only
    rw [if_pos (by simp [less, touches])]
    exact arguments.bind fun _ => Reads.ok
  | lastArgument _ greater type =>
    rw [Phrase.Read, readArguments.eq_def]
    refine type.bind fun _ => ?_
    dsimp only
    rw [if_neg (by rw [greater]; simp)]
    exact (Token.reads_expect_iff.mpr ⟨rfl, greater⟩).bind fun _ => Reads.ok
  | argument _ comma _ type arguments =>
    rw [Phrase.Read, readArguments.eq_def]
    refine type.bind fun _ => ?_
    dsimp only
    rw [if_pos comma]
    exact arguments.bind fun _ => Reads.ok
  | @tuple es ts mid rest _ _ noArrow elements effects =>
    rw [Phrase.Read, readParenthesized.eq_def]
    refine elements.bind fun _ => effects.bind fun _ => ?_
    cases rest with
    | nil => exact Reads.ok
    | cons u more =>
      dsimp only
      rw [if_neg (noArrow u rfl)]
      exact Reads.ok
  | function _ _ arrow _ elements effects result =>
    rw [Phrase.Read, readParenthesized.eq_def]
    refine elements.bind fun _ => effects.bind fun _ => ?_
    dsimp only
    rw [if_pos arrow]
    exact result.bind fun _ => Reads.ok
  | noElement closes =>
    rw [Phrase.Read, readElements.eq_def]
    dsimp only
    rw [if_pos closes]
    exact Reads.ok
  | @lastElement label t u v ts ts₁ ts₂ rest opens named _ dots closes type =>
    rw [Phrase.Read, readElements.eq_def]
    dsimp only
    rw [if_neg opens]
    obtain ⟨_, label_eq⟩ := named.readLabel_eq
    obtain ⟨_, dots_eq⟩ := dots.skipDots_eq
    rw [label_eq]
    refine type.bind fun _ => ?_
    dsimp only
    rw [dots_eq]
    dsimp only
    rw [if_neg (by rw [closes]; simp), if_pos closes]
    exact Reads.ok
  | @element label t others u v ts ts₁ ts₂ more rest opens named _ dots comma _ type elements =>
    rw [Phrase.Read, readElements.eq_def]
    dsimp only
    rw [if_neg opens]
    obtain ⟨_, label_eq⟩ := named.readLabel_eq
    obtain ⟨_, dots_eq⟩ := dots.skipDots_eq
    rw [label_eq]
    refine type.bind fun _ => ?_
    dsimp only
    rw [dots_eq]
    dsimp only
    rw [if_pos comma]
    exact elements.bind fun _ => Reads.ok
  | @noEffect ts ends =>
    rw [Phrase.Read, readEffects.eq_def]
    cases ts with
    | nil => exact Reads.ok
    | cons u more =>
      dsimp only
      rw [if_neg (by rw [ends u rfl]; simp)]
      exact Reads.ok
  | @effect es u ts rest effect noArguments _ effects =>
    rw [Phrase.Read, readEffects.eq_def]
    dsimp only
    rw [if_pos effect]
    -- The reader looks at the token behind the effect; without one there are no further effects.
    cases ts with
    | nil =>
      obtain ⟨rfl, rfl⟩ := Reads.ok_iff.mp (show Reads (.ok (.stay [] [])) es rest by
        simpa [Phrase.Read, readEffects] using effects)
      exact Reads.ok
    | cons v more =>
      dsimp only
      rw [if_neg]
      · exact effects.bind fun _ => Reads.ok
      · simp only [Bool.and_eq_true, decide_eq_true_eq]
        rintro ⟨opens, touches⟩
        exact noArguments ⟨v, rfl, opens, touches⟩
  | typedEffect effect opens touches _ closes _ error effects =>
    rw [Phrase.Read, readEffects.eq_def]
    dsimp only
    rw [if_pos effect, if_pos (by simp [opens, touches])]
    refine error.bind fun _ => ?_
    refine (Token.reads_expect_iff.mpr ⟨rfl, closes⟩).bind fun _ => ?_
    exact effects.bind fun _ => Reads.ok

/-- Each reader of types reads exactly the phrases of its kind. -/
theorem Phrase.read_iff {p : Phrase} {ts rest : List Token} : p.Read ts rest ↔ Spells p ts rest :=
  ⟨spells_of_read, Spells.read⟩

/-- The reader of types reads exactly the types of the grammar. -/
theorem reads_read_iff {t : TypeExpr} {ts rest : List Token} :
    Reads (TypeExpr.read ts) t rest ↔ Spells (.type t) ts rest :=
  Phrase.read_iff (p := .type t)

/-- A type that is one name, in front of a token that does not go on with it. This is how simple
declarations are shown to be readable without unfolding the grammar. -/
theorem spells_name {n u : Token} {ts : List Token} (ident : n.kind = .ident)
    (plain : operandKeywords.contains n.text = false)
    (ends : u.kind = .equals ∨ u.kind = .opening .brace ∨ u.kind = .comma) :
    Spells (.type (.simple n.text)) (n :: u :: ts) (u :: ts) := by
  have other {kind : TokenKind} (h : u.kind = kind) :
      kind = .equals ∨ kind = .opening .brace ∨ kind = .comma := h ▸ ends
  refine .single (.operand (.named ident ?_ (.plainSegment ident ?_)) (.unmarked ?_)) ?_
  · rw [plain]
    nofun
  · rintro ⟨_, ⟨⟩, less, -⟩
    exact absurd (other less) (by decide)
  · rintro (⟨_, ⟨⟩, mark | mark, -⟩ | ⟨-, _, _, _, ⟨⟩, dot, -⟩)
    · exact absurd (other mark) (by decide)
    · exact absurd (other mark) (by decide)
    · exact absurd (other dot) (by decide)
  · rintro _ ⟨⟩ ampersand
    exact absurd (other ampersand) (by decide)

end CodableSynthesis.TypeExpr
