import CodableSynthesis.Declaration.Basic
import CodableSynthesis.Token.Reading
import Mathlib.Data.List.Forall2

/-!
The places a tree carries, and trees that differ in nothing else. `mapSpans` applies a function to
every span of a tree. Two texts are compared through a function for each of them: their tokens, and
their trees, are the same if the images are.

* `Comparison`: how the places of two texts are compared.
* `SameTokens`, `SameBehind`: token lists that differ only in their places; in the second the first
  token may also differ in what stands before it.

One notion serves two uses. With functions that forget everything (`Comparison.blind`), trees are
compared up to places, as layout and comments may change those. With a shift on one side, the places
themselves are compared, as for a text that stands behind another. A pair of functions, and not a
relation on spans, makes sameness of trees an equation of their images, which needs no induction to
be reflexive or to be taken apart.
-/

namespace CodableSynthesis

open Text (Span)

/-! ### The places of a tree -/

/-- The attribute with its places changed. -/
def Attribute.mapSpans (f : Span → Span) (a : Attribute) : Attribute :=
  ⟨a.name, f a.first, f a.last⟩

/-- The binding with its place changed. -/
def Binding.mapSpans (f : Span → Span) (b : Binding) : Binding :=
  { b with span := f b.span }

/-- The variable declaration with its places changed. -/
def Variable.mapSpans (f : Span → Span) (v : Variable) : Variable where
  attributes := v.attributes.map (·.mapSpans f)
  modifiers := v.modifiers
  specifier := v.specifier
  first := v.first.mapSpans f
  others := v.others.map (·.mapSpans f)
  span := f v.span

/-- The heading with its places changed. -/
def Heading.mapSpans (f : Span → Span) (h : Heading) : Heading :=
  { h with attributes := h.attributes.map (·.mapSpans f), keyword := f h.keyword }

mutual

/-- The type declaration with its places changed, those of its members included. -/
def Declaration.mapSpans (f : Span → Span) : Declaration → Declaration
  | ⟨heading, members, opener, closer⟩ =>
    ⟨heading.mapSpans f, Member.mapAllSpans f members, f opener, f closer⟩

/-- The member with its places changed. -/
def Member.mapSpans (f : Span → Span) : Member → Member
  | .variable v => .variable (v.mapSpans f)
  | .type d => .type (d.mapSpans f)
  | .other keyword span => .other keyword (f span)

/-- The members with their places changed. -/
def Member.mapAllSpans (f : Span → Span) : List Member → List Member
  | [] => []
  | m :: ms => m.mapSpans f :: Member.mapAllSpans f ms

end

/-- The members are changed one by one. The definition spells the recursion out since members
contain declarations again. -/
@[simp] theorem Member.mapAllSpans_eq_map (f : Span → Span) (ms : List Member) :
    mapAllSpans f ms = ms.map (·.mapSpans f) := by
  induction ms with
  | nil => rw [mapAllSpans, List.map_nil]
  | cons m ms ih => rw [mapAllSpans, ih, List.map_cons]

/-! ### Comparing two texts -/

/-- How the places in two texts are compared: through what these functions make of them. -/
structure Comparison where
  /-- What is made of a place in the one text. -/
  left : Span → Span
  /-- What is made of a place in the other. -/
  right : Span → Span

variable (σ : Comparison)

/-- Two tokens are one word at corresponding places. -/
structure Token.SameWord (t t' : Token) : Prop where
  kind : t.kind = t'.kind
  text : t.text = t'.text
  span : σ.left t.span = σ.right t'.span

/-- Two tokens are one word at corresponding places, set apart alike from the tokens before them. -/
structure Token.Same (t t' : Token) : Prop extends t.SameWord σ t' where
  newlineBefore : t.newlineBefore = t'.newlineBefore
  touches : t.touches = t'.touches

/-- Token lists that differ only in places. -/
abbrev SameTokens : List Token → List Token → Prop :=
  List.Forall₂ (Token.Same σ)

/-- Token lists that differ only in places and in what stands before their first tokens. -/
inductive SameBehind : List Token → List Token → Prop
  | nil : SameBehind [] []
  | cons {t t' : Token} {ts ts' : List Token} :
      t.SameWord σ t' → SameTokens σ ts ts' → SameBehind (t :: ts) (t' :: ts')

variable {σ}

/-- Lists that differ only in places differ in no more than what stands before their first tokens as
well. -/
theorem SameTokens.behind {ts ts' : List Token} (h : SameTokens σ ts ts') :
    SameBehind σ ts ts' := by
  cases h with
  | nil => exact .nil
  | cons same rest => exact .cons same.toSameWord rest

/-- Such lists are equally long, so that readers recurse alike on them. -/
theorem SameBehind.length_eq {ts ts' : List Token} (h : SameBehind σ ts ts') :
    ts.length = ts'.length := by
  cases h with
  | nil => rfl
  | cons _ later => rw [List.length_cons, List.length_cons, later.length_eq]

namespace Token.SameWord

variable {t t' : Token}

theorem isWord (h : t.SameWord σ t') (word : String) : t.isWord word = t'.isWord word := by
  rw [Token.isWord, Token.isWord, h.kind, h.text]

theorem isWordIn (h : t.SameWord σ t') (words : List String) :
    t.isWordIn words = t'.isWordIn words := by
  rw [Token.isWordIn, Token.isWordIn, h.kind, h.text]

end Token.SameWord

/-- Two faults name the same expectation and stand at corresponding tokens. -/
inductive ReadFault.Same : ReadFault → ReadFault → Prop
  | unexpected {expected : Expectation} {t t' : Token} :
      t.SameWord σ t' → Same (.unexpected expected t) (.unexpected expected t')
  | endOfInput {expected : Expectation} : Same (.endOfInput expected) (.endOfInput expected)

end CodableSynthesis
