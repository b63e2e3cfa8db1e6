import CodableSynthesis.Declaration.Property
import CodableSynthesis.Proofs.Grammar.Skipped
import CodableSynthesis.Proofs.Grammar.Types

/-!
The grammar of variable declarations.

* `Pattern.reads_read_iff`: a pattern is a name, or patterns in parentheses.
* `AccessorBlock.reads_read_iff`: a block is a group in braces; what it is made into depends on its
  tokens alone (`ofTokens`).
* `Binding.reads_read_iff`: a binding is a pattern, a type, an initializer and a block of accessors,
  each but the first perhaps absent.
* `Variable.reads_read_iff`: a variable declaration is bindings with commas between them.

An absent part is a case of its own, and says that the next token does not begin the part. So a
binding is spelled in one way only: what is not read as its type cannot be read as its initializer.
-/

namespace CodableSynthesis

namespace Pattern

/-- What the readers of patterns read. -/
inductive Phrase where
  | pattern (p : Pattern)
  /-- The parts of a tuple behind its opening parenthesis. -/
  | items (ps : List Pattern)

/-- The pattern that a name stands for. -/
def ofName (name : String) : Pattern :=
  if name = "_" then .wildcard else .identifier name

/-- `Spells p ts rest`: the tokens `ts` begin with the phrase `p`, and `rest` is left. -/
inductive Spells : Phrase → List Token → List Token → Prop
  | name {t : Token} {rest : List Token} :
      t.kind = .ident → Spells (.pattern (ofName t.text)) (t :: rest) rest
  | tuple {ps : List Pattern} {t : Token} {ts rest : List Token} :
      t.kind = .opening .parenthesis → Spells (.items ps) ts rest →
      Spells (.pattern (.tuple ps)) (t :: ts) rest
  | noItem {t : Token} {rest : List Token} :
      t.kind = .closing .parenthesis → Spells (.items []) (t :: rest) rest
  | lastItem {p : Pattern} {t u : Token} {ts rest : List Token} :
      t.kind ≠ .closing .parenthesis → Spells (.pattern p) (t :: ts) (u :: rest) →
      u.kind = .closing .parenthesis → Spells (.items [p]) (t :: ts) rest
  | item {p : Pattern} {ps : List Pattern} {t u : Token} {ts more rest : List Token} :
      t.kind ≠ .closing .parenthesis → Spells (.pattern p) (t :: ts) (u :: more) →
      u.kind = .comma → Spells (.items ps) more rest → Spells (.items (p :: ps)) (t :: ts) rest

/-- The reader of a phrase reads it. -/
def Phrase.Read : Phrase → List Token → List Token → Prop
  | .pattern p, ts, rest => Reads (Pattern.read ts) p rest
  | .items ps, ts, rest => Reads (readItems ts) ps rest

/-- The order in which the readers call one another on the same tokens. -/
def Phrase.rank : Phrase → Nat
  | .pattern _ => 0
  | .items _ => 1

/-- What the readers of patterns read is a phrase of their kind, by the measure they recurse on. -/
theorem spells_of_read {p : Phrase} {ts rest : List Token} (h : p.Read ts rest) :
    Spells p ts rest := by
  induction hn : 2 * ts.length + p.rank using Nat.strongRecOn generalizing p ts rest with
  | ind n ih =>
    cases ts with
    | nil =>
      cases p with
      | pattern p => rw [Phrase.Read, Pattern.read] at h; exact absurd h Reads.not_error
      | items ps => rw [Phrase.Read, readItems] at h; exact absurd h Reads.not_error
    | cons t ts =>
      cases p with
      | pattern p =>
        rw [Phrase.Read, Pattern.read.eq_def] at h
        dsimp only [Phrase.rank] at h hn
        split at h
        · next ident =>
          obtain ⟨rfl, rfl⟩ := Reads.ok_iff.mp h
          exact .name ident
        · next opens =>
          obtain ⟨ps, mid, shorter, items, h⟩ := h.of_bind
          obtain ⟨rfl, rfl⟩ := Reads.ok_iff.mp h
          refine .tuple opens (ih _ ?_ (p := .items ps) ⟨shorter, items⟩ rfl)
          simp only [Phrase.rank, List.length_cons] at hn ⊢
          omega
        · exact absurd h Reads.not_error
      | items ps =>
        rw [Phrase.Read, readItems.eq_def] at h
        dsimp only [Phrase.rank] at h hn
        split at h
        · next closes =>
          obtain ⟨rfl, rfl⟩ := Reads.ok_iff.mp h
          exact .noItem closes
        · next opens =>
          obtain ⟨p, mid, shorter, pattern, h⟩ := h.of_bind
          have pattern : Spells (.pattern p) (t :: ts) mid :=
            ih _ (by simp only [Phrase.rank]; omega) (p := .pattern p) ⟨shorter, pattern⟩ rfl
          cases mid with
          | nil => exact absurd h Reads.not_error
          | cons u more =>
            dsimp only at h
            split at h
            · next comma =>
              obtain ⟨others, mid', shorter', items, h⟩ := h.of_bind
              obtain ⟨rfl, rfl⟩ := Reads.ok_iff.mp h
              refine .item opens pattern comma
                (ih _ ?_ (p := .items others) ⟨shorter', items⟩ rfl)
              simp only [Phrase.rank, List.length_cons] at hn shorter ⊢
              omega
            · split at h
              · next closes =>
                obtain ⟨rfl, rfl⟩ := Reads.ok_iff.mp h
                exact .lastItem opens pattern closes
              · exact absurd h Reads.not_error

/-- Every pattern of the grammar is read. -/
theorem Spells.read {p : Phrase} {ts rest : List Token} (h : Spells p ts rest) :
    p.Read ts rest := by
  induction h with
  | name ident =>
    rw [Phrase.Read, Pattern.read.eq_def]
    dsimp only
    rw [ident]
    exact Reads.ok
  | tuple opens _ items =>
    rw [Phrase.Read, Pattern.read.eq_def]
    dsimp only
    rw [opens]
    exact items.bind fun _ => Reads.ok
  | noItem closes =>
    rw [Phrase.Read, readItems.eq_def]
    dsimp only
    rw [if_pos closes]
    exact Reads.ok
  | lastItem opens _ closes pattern =>
    rw [Phrase.Read, readItems.eq_def]
    dsimp only
    rw [if_neg opens]
    refine pattern.bind fun _ => ?_
    dsimp only
    rw [if_neg (by rw [closes]; simp), if_pos closes]
    exact Reads.ok
  | item opens _ comma _ pattern items =>
    rw [Phrase.Read, readItems.eq_def]
    dsimp only
    rw [if_neg opens]
    refine pattern.bind fun _ => ?_
    dsimp only
    rw [if_pos comma]
    exact items.bind fun _ => Reads.ok

/-- The reader of patterns reads exactly the patterns of the grammar. -/
theorem reads_read_iff {p : Pattern} {ts rest : List Token} :
    Reads (Pattern.read ts) p rest ↔ Spells (.pattern p) ts rest :=
  ⟨spells_of_read (p := .pattern p), Spells.read⟩

end Pattern

namespace AccessorBlock

/-- The tokens begin with an opening brace. -/
def StartsBlock (ts : List Token) : Prop :=
  ∃ t ∈ ts.head?, t.kind = .opening .brace

/-- What the tokens of a block behind its opening brace make it. -/
def ofTokens (ts : List Token) : AccessorBlock :=
  if startsAccessor ts then .accessors (keywordsAt 0 ts) else .getter

/-- The block in braces behind a property, if there is one. -/
inductive Spelled : List Token → Option AccessorBlock → List Token → Prop
  | none {ts : List Token} : ¬ StartsBlock ts → Spelled ts none ts
  | some {t u : Token} {ts rest : List Token} :
      t.kind = .opening .brace → Group.Closes .brace [] ts u rest →
      Spelled (t :: ts) (some (ofTokens ts)) rest

/-- A block behind a property is read exactly if its braces are closed. -/
theorem reads_read_iff {ts rest : List Token} {block? : Option AccessorBlock} :
    Reads (read? ts) block? rest ↔ Spelled ts block? rest := by
  cases ts with
  | nil =>
    rw [read?, Reads.ok_iff]
    constructor
    · rintro ⟨rfl, rfl⟩
      exact .none (by rintro ⟨_, ⟨⟩, -⟩)
    · rintro ⟨⟩
      exact ⟨rfl, rfl⟩
  | cons t ts =>
    rw [read?]
    by_cases opens : t.kind = .opening .brace
    · rw [if_pos opens]
      constructor
      · intro h
        obtain ⟨u, mid, shorter, closes, h⟩ := h.of_bind
        obtain ⟨rfl, rfl⟩ := Reads.ok_iff.mp h
        exact .some opens (Group.reads_close_iff.mp ⟨shorter, closes⟩)
      · rintro (absent | ⟨-, closes⟩)
        · exact absurd ⟨t, rfl, opens⟩ absent
        · exact (Group.reads_close_iff.mpr closes).bind fun _ => Reads.ok
    · rw [if_neg opens, Reads.ok_iff]
      constructor
      · rintro ⟨rfl, rfl⟩
        exact .none (by rintro ⟨_, ⟨⟩, kind⟩; exact opens kind)
      · rintro (- | ⟨kind, -⟩)
        · exact ⟨rfl, rfl⟩
        · exact absurd kind opens

end AccessorBlock

namespace Binding

/-- A type behind a colon, if there is one. -/
inductive TypeSpelled : List Token → Option TypeExpr → List Token → Prop
  | none {ts : List Token} : (∀ t ∈ ts.head?, t.kind ≠ .colon) → TypeSpelled ts none ts
  | some {type : TypeExpr} {t : Token} {ts rest : List Token} :
      t.kind = .colon → TypeExpr.Spells (.type type) ts rest →
      TypeSpelled (t :: ts) (some type) rest

/-- A type is read behind a colon, and nothing without one. -/
theorem reads_readType_iff {ts rest : List Token} {type? : Option TypeExpr} :
    Reads (readType? ts) type? rest ↔ TypeSpelled ts type? rest := by
  cases ts with
  | nil =>
    rw [readType?, Reads.ok_iff]
    constructor
    · rintro ⟨rfl, rfl⟩
      exact .none (by simp)
    · rintro ⟨⟩
      exact ⟨rfl, rfl⟩
  | cons t ts =>
    rw [readType?]
    by_cases colon : t.kind = .colon
    · rw [if_pos colon]
      constructor
      · intro h
        obtain ⟨type, mid, shorter, spelled, h⟩ := h.of_bind
        obtain ⟨rfl, rfl⟩ := Reads.ok_iff.mp h
        exact .some colon (TypeExpr.reads_read_iff.mp ⟨shorter, spelled⟩)
      · rintro (absent | ⟨-, spelled⟩)
        · exact absurd colon (absent t rfl)
        · exact (TypeExpr.reads_read_iff.mpr spelled).bind fun _ => Reads.ok
    · rw [if_neg colon, Reads.ok_iff]
      constructor
      · rintro ⟨rfl, rfl⟩
        exact .none (by rintro _ ⟨⟩; exact colon)
      · rintro (- | ⟨kind, -⟩)
        · exact ⟨rfl, rfl⟩
        · exact absurd kind colon

/-- An initializer behind an equals sign; the value tells whether there is one. -/
inductive Initializer : List Token → Bool → List Token → Prop
  | none {ts : List Token} : (∀ t ∈ ts.head?, t.kind ≠ .equals) → Initializer ts false ts
  | some {t : Token} {ts rest : List Token} :
      t.kind = .equals → Skipping.Expression false ts rest → Initializer (t :: ts) true rest

/-- An initializer is skipped behind an equals sign, and nothing without one. -/
theorem reads_skipInitializer_iff {ts rest : List Token} {present : Bool} :
    Reads (skipInitializer ts) present rest ↔ Initializer ts present rest := by
  cases ts with
  | nil =>
    rw [skipInitializer, Reads.ok_iff]
    constructor
    · rintro ⟨rfl, rfl⟩
      exact .none (by simp)
    · rintro ⟨⟩
      exact ⟨rfl, rfl⟩
  | cons t ts =>
    rw [skipInitializer]
    by_cases equals : t.kind = .equals
    · rw [if_pos equals]
      constructor
      · intro h
        obtain ⟨_, mid, shorter, expression, h⟩ := h.of_bind
        obtain ⟨rfl, rfl⟩ := Reads.ok_iff.mp h
        exact .some equals (Skipping.reads_expression_iff.mp ⟨shorter, expression⟩)
      · rintro (absent | ⟨-, expression⟩)
        · exact absurd equals (absent t rfl)
        · exact expression.reads.bind fun _ => Reads.ok
    · rw [if_neg equals, Reads.ok_iff]
      constructor
      · rintro ⟨rfl, rfl⟩
        exact .none (by rintro _ ⟨⟩; exact equals)
      · rintro (- | ⟨kind, -⟩)
        · exact ⟨rfl, rfl⟩
        · exact absurd kind equals

/-- One binding. -/
inductive Spelled : List Token → Binding → List Token → Prop
  | mk {pattern : Pattern} {type? : Option TypeExpr} {hasInitializer : Bool}
      {accessors? : Option AccessorBlock} {t : Token} {ts ts₁ ts₂ ts₃ rest : List Token} :
      Pattern.Spells (.pattern pattern) (t :: ts) ts₁ → TypeSpelled ts₁ type? ts₂ →
      Initializer ts₂ hasInitializer ts₃ → AccessorBlock.Spelled ts₃ accessors? rest →
      Spelled (t :: ts) ⟨pattern, type?, hasInitializer, accessors?, t.span⟩ rest

/-- The reader of bindings reads its four parts in order. -/
theorem reads_read_iff {ts rest : List Token} {b : Binding} :
    Reads (read ts) b rest ↔ Spelled ts b rest := by
  cases ts with
  | nil =>
    constructor
    · intro h
      exact absurd h Reads.not_error
    · rintro ⟨⟩
  | cons t ts =>
    constructor
    · intro h
      obtain ⟨pattern, ts₁, lt₁, hp, h⟩ := h.of_bind
      obtain ⟨type?, ts₂, lt₂, ht, h⟩ := h.of_bind
      obtain ⟨hasInitializer, ts₃, lt₃, hi, h⟩ := h.of_bind
      obtain ⟨accessors?, ts₄, lt₄, ha, h⟩ := h.of_bind
      obtain ⟨rfl, rfl⟩ := Reads.ok_iff.mp h
      exact .mk (Pattern.reads_read_iff.mp ⟨lt₁, hp⟩) (reads_readType_iff.mp ⟨lt₂, ht⟩)
        (reads_skipInitializer_iff.mp ⟨lt₃, hi⟩) (AccessorBlock.reads_read_iff.mp ⟨lt₄, ha⟩)
    · rintro ⟨pattern, type, initializer, accessors⟩
      refine (Pattern.reads_read_iff.mpr pattern).bind fun _ => ?_
      refine (reads_readType_iff.mpr type).bind fun _ => ?_
      refine (reads_skipInitializer_iff.mpr initializer).bind fun _ => ?_
      exact (AccessorBlock.reads_read_iff.mpr accessors).bind fun _ => Reads.ok

/-- Further bindings, each behind a comma. -/
inductive MoreSpelled : List Token → List Binding → List Token → Prop
  | nil {ts : List Token} : (∀ t ∈ ts.head?, t.kind ≠ .comma) → MoreSpelled ts [] ts
  | cons {b : Binding} {bs : List Binding} {t : Token} {ts mid rest : List Token} :
      t.kind = .comma → Spelled ts b mid → MoreSpelled mid bs rest →
      MoreSpelled (t :: ts) (b :: bs) rest

theorem moreSpelled_of_reads {ts rest : List Token} {bs : List Binding}
    (h : Reads (readMore ts) bs rest) : MoreSpelled ts bs rest := by
  induction hn : ts.length using Nat.strongRecOn generalizing ts bs with
  | ind n ih =>
    subst hn
    cases ts with
    | nil =>
      rw [readMore] at h
      obtain ⟨rfl, rfl⟩ := Reads.ok_iff.mp h
      exact .nil (by simp)
    | cons t ts =>
      rw [readMore] at h
      split at h
      · next comma =>
        obtain ⟨b, mid, lt, hb, h⟩ := h.of_bind
        obtain ⟨others, mid', lt', more, h⟩ := h.of_bind
        obtain ⟨rfl, rfl⟩ := Reads.ok_iff.mp h
        exact .cons comma (reads_read_iff.mp ⟨lt, hb⟩)
          (ih _ (Nat.lt_succ_of_lt lt) ⟨lt', more⟩ rfl)
      · next noComma =>
        obtain ⟨rfl, rfl⟩ := Reads.ok_iff.mp h
        exact .nil (by rintro _ ⟨⟩; exact noComma)

/-- All bindings behind commas are read. -/
theorem MoreSpelled.reads {ts rest : List Token} {bs : List Binding}
    (h : MoreSpelled ts bs rest) : Reads (readMore ts) bs rest := by
  induction h with
  | @nil ts noComma =>
    cases ts with
    | nil => rw [readMore]; exact Reads.ok
    | cons t ts =>
      rw [readMore, if_neg (noComma t rfl)]
      exact Reads.ok
  | cons comma spelled _ ih =>
    rw [readMore, if_pos comma]
    exact (reads_read_iff.mpr spelled).bind fun _ => ih.bind fun _ => Reads.ok

end Binding

namespace Variable

/-- The bindings of a variable declaration. -/
inductive Spelled : List Token → Binding → List Binding → List Token → Prop
  | mk {b : Binding} {bs : List Binding} {ts mid rest : List Token} :
      Binding.Spelled ts b mid → Binding.MoreSpelled mid bs rest → Spelled ts b bs rest

/-- A variable declaration is read as its bindings, of which there is at least one. -/
theorem reads_read_iff {attributes : List Attribute} {modifiers : List String}
    {specifier : Specifier} {keyword : Token} {ts rest : List Token} {v : Variable} :
    Reads (read attributes modifiers specifier keyword ts) v rest ↔
      ∃ b bs, Spelled ts b bs rest ∧
        v = ⟨attributes, modifiers, specifier, b, bs, keyword.span⟩ := by
  constructor
  · intro h
    obtain ⟨b, mid, lt, first, h⟩ := h.of_bind
    obtain ⟨bs, mid', lt', more, h⟩ := h.of_bind
    obtain ⟨rfl, rfl⟩ := Reads.ok_iff.mp h
    exact ⟨b, bs, .mk (Binding.reads_read_iff.mp ⟨lt, first⟩)
      (Binding.moreSpelled_of_reads ⟨lt', more⟩), rfl⟩
  · rintro ⟨b, bs, ⟨first, more⟩, rfl⟩
    exact (Binding.reads_read_iff.mpr first).bind fun _ => more.reads.bind fun _ => Reads.ok

end Variable

end CodableSynthesis
