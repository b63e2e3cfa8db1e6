import CodableSynthesis.Proofs.Grammar.Types
import CodableSynthesis.Proofs.Nesting.Balanced
import CodableSynthesis.Proofs.Respelling.Respelled

/-!
Types leave no bracket open. This is shown for the tokens that a canonical text is cut into, and
used where a type stands within something else that has to be balanced.

* `Level`: some tokens leave the same brackets open that were open in front of them.
* `TypeExpr.Spells.levels`: everything that is read of a type is so.
* `TypeExpr.Canonical.balanced`: the tokens of a type are balanced.

`Level` is stated between what stands before a reading and what is left by it, since that is how the
grammar of types speaks. The elements of a tuple are read up to and with the parenthesis that closes
it, so there the tokens close one bracket that is open around them.
-/

namespace CodableSynthesis

open CodableSynthesis.Group
  (opened opened_plain opened_opening opened_closing opened_append opened_within)

/-- Whether a token opens or closes a group. -/
def TokenKind.isBracket : TokenKind → Bool
  | .opening _ | .closing _ => true
  | _ => false

theorem TokenKind.not_bracket {k : TokenKind} (other : k.isBracket = false) :
    (∀ b, k ≠ .opening b) ∧ ∀ b, k ≠ .closing b := by
  constructor <;> (rintro b rfl; cases other)

/-- What stands in front of `rest` in some tokens leaves the same brackets open that were open in
front of it. -/
def Level (ts rest : List Token) : Prop :=
  ∀ stack, opened stack ts = opened stack rest

namespace Level

variable {ts mid rest : List Token} {t u : Token} {b : Bracket}

theorem refl (ts : List Token) : Level ts ts := fun _ => rfl

theorem trans (h : Level ts mid) (later : Level mid rest) : Level ts rest :=
  fun stack => (h stack).trans (later stack)

theorem plain {k : TokenKind} (kind : t.kind = k) (other : k.isBracket = false)
    (later : Level ts rest) : Level (t :: ts) rest := fun stack => by
  obtain ⟨opens, closes⟩ := TokenKind.not_bracket (kind ▸ other)
  rw [opened_plain opens closes, later]

/-- A group with something level in it. -/
theorem group (opens : t.kind = .opening b) (inner : Level ts (u :: mid))
    (closes : u.kind = .closing b)
    (later : Level mid rest) : Level (t :: ts) rest := fun stack => by
  rw [opened_opening opens, inner, opened_closing closes, later]

/-- What is level in front of a token that is no bracket is balanced. -/
theorem balanced {us : List Token} {k : TokenKind} (h : Level (us ++ [t]) [t]) (kind : t.kind = k)
    (other : k.isBracket = false) : Group.Balanced us := by
  have single (stack : List Bracket) : opened stack [t] = some stack :=
    Level.plain kind other (.refl []) stack
  have level := h []
  rw [opened_append, single] at level
  obtain ⟨stack, inner, same⟩ := Option.bind_eq_some_iff.mp level
  rw [single] at same
  cases same
  exact Group.balanced_iff.mpr inner

end Level

theorem Group.Closes.level {b : Bracket} {ts rest : List Token} {t u : Token}
    (opens : t.kind = .opening b) (h : Closes b [] ts u rest) : Level (t :: ts) rest := by
  obtain ⟨inner, rfl, within, closes⟩ := closes_iff.mp h
  intro stack
  rw [opened_opening opens, opened_append, within.opened_eq, Option.bind_some,
    opened_closing closes]

theorem Group.Arguments.level {ts rest : List Token} {closer? : Option Token}
    (h : Arguments ts closer? rest) : Level ts rest := by
  cases h with
  | none => exact .refl _
  | some opens _ closes => exact closes.level opens

namespace Attribute

variable {ts rest : List Token}

theorem Path.level {name name' : String} {last last' : Text.Span}
    (h : Path name last ts name' last' rest) : Level ts rest := by
  induction h with
  | stop => exact .refl _
  | segment dot ident _ ih => exact .plain dot rfl (.plain ident rfl ih)

theorem Spelled.level {a : Attribute} (h : Spelled ts a rest) : Level ts rest := by
  obtain ⟨sign, ident, path, arguments⟩ := h
  exact .plain sign rfl (.plain ident rfl (path.level.trans arguments.level))

theorem AllSpelled.level {as : List Attribute} (h : AllSpelled ts as rest) : Level ts rest := by
  induction h with
  | nil => exact .refl _
  | cons spelled _ ih => exact spelled.level.trans ih

end Attribute

namespace TypeExpr

variable {p : Phrase} {ts rest : List Token}

theorem Label.level {label : Option String} (h : Label ts label rest) : Level ts rest := by
  cases h with
  | none => exact .refl _
  | one ident colon => exact .plain ident rfl (.plain colon rfl (.refl _))
  | two ident ident' colon =>
    exact .plain ident rfl (.plain ident' rfl (.plain colon rfl (.refl _)))

theorem Dots.level (h : Dots ts rest) : Level ts rest := by
  induction h with
  | stop => exact .refl _
  | dot dot _ _ ih => exact .plain dot rfl ih

/-- What a phrase of a type consists of; elements and what follows them are in a parenthesis. -/
def Phrase.Levels (ts rest : List Token) : Phrase → Prop
  | .parenthesized _ | .elements _ => ∀ stack, opened (.parenthesis :: stack) ts = opened stack rest
  | _ => Level ts rest

/-- All that is read of a type is level. The induction is on the reading, phrase by phrase. -/
theorem Spells.levels (h : Spells p ts rest) : p.Levels ts rest := by
  induction h with
  | single _ _ ih | lastPart _ _ ih => exact ih
  | composition _ ampersand _ ih ih' | part _ ampersand _ ih ih' =>
    exact Level.trans ih (.plain ampersand rfl ih')
  | operand _ _ ih ih' => exact Level.trans ih ih'
  | unmarked => exact Level.refl _
  | optional kind _ _ ih | implicitlyUnwrapped kind _ _ ih => exact Level.plain kind rfl ih
  | path dot ident _ _ ih ih' => exact Level.plain dot rfl (Level.trans ih ih')
  | attributed first others _ ih => exact first.level.trans (others.level.trans ih)
  | prefixed ident _ _ _ ih => exact Level.plain ident rfl ih
  | named _ _ _ ih => exact ih
  | array opens _ closes ih => exact Level.group opens ih closes (.refl _)
  | dictionary opens _ colon _ closes ih ih' =>
    exact Level.group opens (Level.trans ih (.plain colon rfl ih')) closes (.refl _)
  | parenthesized opens _ ih =>
    intro stack
    rw [opened_opening opens]
    exact ih stack
  | plainSegment ident => exact Level.plain ident rfl (.refl _)
  | genericSegment ident less _ _ ih => exact Level.plain ident rfl (.plain less rfl ih)
  | lastArgument _ greater ih => exact Level.trans ih (.plain greater rfl (.refl _))
  | argument _ comma _ ih ih' => exact Level.trans ih (.plain comma rfl ih')
  | tuple _ _ _ ih ih' => exact fun stack => (ih stack).trans (ih' stack)
  | function _ _ arrow _ ih ih' ih'' =>
    exact fun stack => (ih stack).trans (Level.trans ih' (.plain arrow rfl ih'') stack)
  | noElement closes => exact fun stack => opened_closing closes
  | lastElement _ label _ dots closes ih =>
    intro stack
    rw [label.level, ih, dots.level, opened_closing closes]
  | element _ label _ dots comma _ ih ih' =>
    intro stack
    rw [label.level, ih, dots.level]
    exact (Level.plain comma rfl (.refl _) _).trans (ih' stack)
  | noEffect => exact Level.refl _
  | effect word _ _ ih => exact Level.plain (Token.kind_of_isWordIn word) rfl ih
  | typedEffect word opens _ _ closes _ ih ih' =>
    exact Level.plain (Token.kind_of_isWordIn word) rfl (Level.group opens ih closes ih')

/-- The tokens of a type are balanced. -/
theorem Canonical.balanced {t : TypeExpr} {text : String} {us : List Token}
    (h : Canonical (.type t) text us) (b : Bool) : Group.Balanced (lead b us) := by
  have spells := @Canonical.spells _ _ _ h b [.laid true .colon ":"] (.cons rfl)
  exact Level.balanced spells.levels rfl rfl

end TypeExpr

end CodableSynthesis
