import CodableSynthesis.Proofs.Joining.Grafts

/-!
What stands in front of a declaration or of an accessor, as a sequence of attributes and modifiers
in any order.

* `FrontItem.WellFormed`: an attribute as it is read on its own, or a modifier with its detail.
* `FrontItem.exists_head`: what a sequence of items begins with.
* `Attribute.Spelled.in_front`: an attribute is read alike in front of a name or of another
  attribute.

`parse_attributes` and `parse_modifiers` read such a sequence in two parts, attributes first. Items
are the shape of a sequence before any such decision is made: `Interleaved` says what is read of it
in front of a declaration, and `Nesting.Observers` what is made of it in front of an accessor.

An attribute is well-formed if it is read from its tokens alone. `Attribute.Spelled.in_front` is the
step from there to a sequence: behind an attribute stands a word or a sign, and neither goes on with
its name or opens arguments.
-/

namespace CodableSynthesis

/-- One of the things in front of a declaration, with its tokens. -/
inductive FrontItem where
  /-- The tokens of an attribute, and what is read of them. -/
  | attr (tokens : List Token) (a : Attribute)
  /-- A keyword and the tokens of its detail. -/
  | modifier (word : Token) (detail : List Token)

namespace FrontItem

/-- The tokens of an item. -/
def tokens : FrontItem → List Token
  | .attr ts _ => ts
  | .modifier word detail => word :: detail

/-- The attribute that an item is. -/
def attribute? : FrontItem → Option Attribute
  | .attr _ a => some a
  | .modifier .. => none

/-- The keyword of a modifier. -/
def word? : FrontItem → Option Token
  | .attr .. => none
  | .modifier word _ => some word

/-- Whether an item is an attribute. -/
def isAttribute (i : FrontItem) : Bool :=
  i.attribute?.isSome

/-- The tokens are those of an attribute, or of a modifier with a detail such as `(set)`, if it has
one. -/
inductive WellFormed : FrontItem → Prop
  /-- The tokens are read as the attribute, and none is left. -/
  | attr {ts : List Token} {a : Attribute} :
      Attribute.Spelled ts a [] → WellFormed (.attr ts a)
  /-- A keyword, and between parentheses any tokens that are balanced, or nothing. -/
  | keyword {word : Token} {detail : List Token} :
      word.isWordIn Modifier.keywords = true → Modifier.Detail detail [] →
      WellFormed (.modifier word detail)
  /-- The word `class` in front of a member of the type. -/
  | classWord {word : Token} : word.isWord "class" = true → WellFormed (.modifier word [])

/-- The tokens of some items, one behind the other. -/
def allTokens (items : List FrontItem) : List Token :=
  items.flatMap tokens

theorem allTokens_cons (i : FrontItem) (items : List FrontItem) :
    allTokens (i :: items) = i.tokens ++ allTokens items :=
  rfl

/-- The attributes among some items, in order. These are what `parse_attributes` would read if
nothing stood between them. -/
def attributes (items : List FrontItem) : List Attribute :=
  items.filterMap attribute?

/-- The words of the modifiers among some items, in order, without their details. A declaration
keeps the words only. -/
def modifiers (items : List FrontItem) : List String :=
  items.filterMap fun i => i.word?.map (·.text)

end FrontItem

/-- The token is a name or keyword, or the sign of an attribute: nothing that an attribute or a
modifier goes on with. All items begin with such a token, and so does what they stand in front
of. -/
def Token.BeginsFront (t : Token) : Prop :=
  t.kind = .ident ∨ t.kind = .atSign

namespace FrontItem

/-- In front of a word, items begin with the sign of an attribute or with the first word. -/
theorem exists_head {items : List FrontItem} (wellFormed : ∀ i ∈ items, i.WellFormed) {t : Token}
    (ident : t.kind = .ident) (ts : List Token) :
    ∃ u us, allTokens items ++ t :: ts = u :: us ∧
      ((u.kind = .atSign ∧ ∃ a ∈ attributes items, u.span = a.first) ∨
        (u.kind = .ident ∧ u ∈ (items.filterMap word? ++ [t]).head?)) := by
  cases items with
  | nil => exact ⟨t, ts, rfl, .inr ⟨ident, rfl⟩⟩
  | cons i items =>
    cases wellFormed i (.head _) with
    | attr spelled =>
      obtain ⟨sign, us, rfl, kind, place⟩ := spelled.head
      exact ⟨sign, _, rfl, .inl ⟨kind, _, .head _, place⟩⟩
    | keyword known => exact ⟨_, _, rfl, .inr ⟨Token.kind_of_isWordIn known, rfl⟩⟩
    | classWord word => exact ⟨_, _, rfl, .inr ⟨Token.kind_of_isWord word, rfl⟩⟩

end FrontItem

/-! ### Attributes in front of others -/

namespace Attribute

variable {t : Token} {ts mid : List Token} (more : List Token)

/-- The name of an attribute is read alike in front of anything that is no further segment of it. -/
theorem Path.in_front {name name' : String} {last last' : Text.Span}
    (h : Path name last ts name' last' mid) (stops : ¬ StartsSegment (mid ++ more)) :
    Path name last (ts ++ more) name' last' (mid ++ more) := by
  induction h with
  | stop => exact .stop stops
  | segment dot ident _ ih => exact .segment dot ident (ih stops)

/-- An attribute that is read on its own is read alike in front of a word or of a sign. -/
theorem Spelled.in_front {a : Attribute} (h : Spelled ts a []) (begins : t.BeginsFront) :
    Spelled (ts ++ t :: more) a (t :: more) := by
  obtain ⟨sign, ident, path, arguments⟩ := h
  cases arguments with
  | none =>
    refine .mk sign ident (path.in_front (t :: more) ?_) (.none ?_)
    · rintro ⟨u, n, us, made, dot, -⟩
      obtain ⟨rfl, -⟩ := List.cons.inj made
      rcases begins with kind | kind <;> simp [kind] at dot
    · rintro ⟨_, ⟨⟩, opens, -⟩
      rcases begins with kind | kind <;> simp [kind] at opens
  | some opens touches closes =>
    refine .mk sign ident (path.in_front (t :: more) ?_)
      (.some opens touches (closes.followed (t :: more)))
    rintro ⟨u, n, us, made, dot, -⟩
    obtain ⟨rfl, -⟩ := List.cons.inj made
    simp [opens] at dot

end Attribute

end CodableSynthesis
