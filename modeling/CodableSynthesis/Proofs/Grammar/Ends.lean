import CodableSynthesis.Proofs.Grammar.Declarations

/-!
What every reader leaves is the end of what it was given, and the token it read last is one that a
member can end with: that of a type wherever it stands, that of a member wherever an attribute
follows on the same line.

This matters where an attribute is taken out of a source. What stood before it and what stood behind
it come to stand side by side, and they may become one token only if both are made of the same
characters. A removed attribute never stands directly behind a number, an operator or a string
literal on its line: an initializer goes on over it, and a declaration that is skipped ends in front
of it only behind a closing brace. What is left is what `Token.EndsMember` lists.

* `Consumes`, `Leaves`: a reader read at least one token, or perhaps none, and if what is left looks
  a certain way, the last one read may end a member.
* `LeafSpelled.consumes`, `OpeningSpelled.consumes`: the case of members and of headings.

Both relations compose (`Consumes.trans`, `Leaves.trans` and between them), so each grammar has one
short lemma.
-/

namespace CodableSynthesis

/-- A token that a member may end with, or begin behind, in front of an attribute on its line: a
name, a bracket, a mark behind a type, a semicolon. No number, operator or literal is among them. -/
def Token.EndsMember (t : Token) : Prop :=
  t.kind = .ident ∨ (∃ b, t.kind = .closing b) ∨ t.kind = .question ∨ t.kind = .bang ∨
    t.kind = .greater ∨ t.kind = .semicolon ∨ t.kind = .opening .brace

/-- The tokens begin with an attribute that no line break separates from what stands before it. -/
def AtAttribute (ts : List Token) : Prop :=
  ∃ t ∈ ts.head?, t.kind = .atSign ∧ t.newlineBefore = false

/-- `rest` is what is left of `ts` behind at least one token, the last of which may end a member if
what is left looks like that. The condition is a parameter: types need none, members look for an
attribute. -/
def Consumes (look : List Token → Prop) (ts rest : List Token) : Prop :=
  ∃ front last, ts = front ++ last :: rest ∧ (look rest → last.EndsMember)

/-- Nothing, or some tokens, were consumed. -/
def Leaves (look : List Token → Prop) (ts rest : List Token) : Prop :=
  ts = rest ∨ Consumes look ts rest

variable {t : Token} {ts mid rest : List Token} {look : List Token → Prop}

namespace Consumes

theorem cons (h : Consumes look ts rest) : Consumes look (t :: ts) rest := by
  obtain ⟨front, last, rfl, ends⟩ := h
  exact ⟨t :: front, last, rfl, ends⟩

/-- A single token, if it may end a member where that matters. -/
theorem token (h : look rest → t.EndsMember) : Consumes look (t :: rest) rest :=
  ⟨[], t, rfl, h⟩

theorem ident (h : t.kind = .ident) : Consumes look (t :: rest) rest :=
  token fun _ => .inl h

theorem closing {b : Bracket} (h : t.kind = .closing b) : Consumes look (t :: rest) rest :=
  token fun _ => .inr (.inl ⟨b, h⟩)

theorem plain (h : ¬ look rest) : Consumes look (t :: rest) rest :=
  token fun at_ => absurd at_ h

theorem leaves (h : Consumes look ts rest) : Leaves look ts rest :=
  .inr h

/-- What is consumed of an end of some tokens is consumed of them all. -/
theorem behind (suffix : mid <:+ ts) (h : Consumes look mid rest) : Consumes look ts rest := by
  obtain ⟨skipped, rfl⟩ := suffix
  obtain ⟨front, last, rfl, ends⟩ := h
  exact ⟨skipped ++ front, last, by simp, ends⟩

/-- Consuming and then consuming again: the last token is that of the second. -/
theorem trans (h : Consumes look ts mid) (h' : Consumes look mid rest) : Consumes look ts rest := by
  obtain ⟨front, last, rfl, -⟩ := h
  obtain ⟨front', last', rfl, ends⟩ := h'
  exact ⟨front ++ last :: front', last', by simp, ends⟩

/-- Consuming and then perhaps nothing: the last token is that of the first, or of the second. -/
theorem leave (h : Consumes look ts mid) (h' : Leaves look mid rest) : Consumes look ts rest := by
  rcases h' with rfl | h'
  · exact h
  · exact h.trans h'

end Consumes

namespace Leaves

theorem refl : Leaves look ts ts :=
  .inl rfl

theorem consume (h : Leaves look ts mid) (h' : Consumes look mid rest) : Consumes look ts rest := by
  rcases h with rfl | h
  · exact h'
  · exact h.trans h'

theorem trans (h : Leaves look ts mid) (h' : Leaves look mid rest) : Leaves look ts rest := by
  rcases h' with rfl | h'
  · exact h
  · exact .inr (h.consume h')

theorem suffix (h : Leaves look ts rest) : rest <:+ ts := by
  rcases h with rfl | ⟨front, last, rfl, -⟩
  · exact List.suffix_refl _
  · exact (List.suffix_cons _ _).trans (List.suffix_append _ _)

end Leaves

/-! ### Groups and what stands in front of declarations -/

namespace Group

/-- A group ends with the bracket that closes it. -/
theorem Closes.consumes {b : Bracket} {outer : List Bracket} {u : Token}
    (h : Closes b outer ts u rest) : Consumes look ts rest := by
  induction h with
  | last closes => exact .closing closes
  | outer _ _ ih | inner _ _ ih | plain _ _ _ ih => exact ih.cons

/-- Where only the suffix matters, what is left may look like anything. -/
theorem Closes.suffix {b : Bracket} {outer : List Bracket} {u : Token}
    (h : Closes b outer ts u rest) : rest <:+ ts :=
  (show Leaves AtAttribute ts rest from h.consumes.leaves).suffix

theorem Arguments.leaves {closer? : Option Token} (h : Arguments ts closer? rest) :
    Leaves look ts rest := by
  cases h with
  | none => exact .refl
  | some _ _ closes => exact closes.consumes.cons.leaves

theorem ClosesAngle.consumes {depth : Nat} (h : ClosesAngle depth ts rest) :
    Consumes look ts rest := by
  induction h with
  | last greater => exact .token fun _ => .inr (.inr (.inr (.inr (.inl greater))))
  | outer _ _ ih | inner _ _ ih | plain _ _ _ _ ih => exact ih.cons
  | group _ _ closes _ ih => exact (closes.consumes.trans ih).cons

theorem ClosesArguments.consumes {depth : Nat} (h : ClosesArguments depth ts rest) :
    Consumes look ts rest := by
  induction h with
  | last greater => exact .token fun _ => .inr (.inr (.inr (.inr (.inl greater))))
  | outer _ _ ih | inner _ _ ih | plain _ _ ih => exact ih.cons

end Group

namespace Attribute

theorem Path.leaves {name name' : String} {last last' : Text.Span}
    (h : Path name last ts name' last' rest) : Leaves look ts rest := by
  induction h with
  | stop => exact .refl
  | segment _ ident _ ih => exact ((Consumes.ident ident).cons.leave ih).leaves

theorem Spelled.consumes {a : Attribute} (h : Spelled ts a rest) : Consumes look ts rest := by
  obtain ⟨-, ident, path, arguments⟩ := h
  exact ((Consumes.ident ident).leave (path.leaves.trans arguments.leaves)).cons

theorem Spelled.suffix {a : Attribute} (h : Spelled ts a rest) : rest <:+ ts :=
  (show Leaves AtAttribute ts rest from h.consumes.leaves).suffix

theorem AllSpelled.leaves {as : List Attribute} (h : AllSpelled ts as rest) :
    Leaves look ts rest := by
  induction h with
  | nil => exact .refl
  | cons spelled _ ih => exact (spelled.consumes.leave ih).leaves

theorem AllSpelled.suffix {as : List Attribute} (h : AllSpelled ts as rest) : rest <:+ ts :=
  (show Leaves AtAttribute ts rest from h.leaves).suffix

end Attribute

namespace Modifier

theorem kind_of_isModifier {t n : Token} (h : isModifier t n = true) : t.kind = .ident := by
  rw [isModifier] at h
  split at h
  · next isClass =>
    simp only [Token.isWord, Bool.and_eq_true, beq_iff_eq] at isClass
    exact isClass.1
  · simp only [Token.isWordIn, Bool.and_eq_true, beq_iff_eq] at h
    exact h.1.1

theorem Detail.leaves (h : Detail ts rest) : Leaves look ts rest := by
  cases h with
  | none => exact .refl
  | some _ _ closes => exact (Consumes.closing closes).cons.cons.leaves

theorem Detail.suffix (h : Detail ts rest) : rest <:+ ts :=
  (show Leaves AtAttribute ts rest from h.leaves).suffix

theorem AllSpelled.leaves {words : List String} (h : AllSpelled ts words rest) :
    Leaves look ts rest := by
  induction h with
  | nil => exact .refl
  | cons starts detail _ ih =>
    exact ((Consumes.ident (kind_of_isModifier starts)).leave (detail.leaves.trans ih)).leaves

theorem AllSpelled.suffix {words : List String} (h : AllSpelled ts words rest) : rest <:+ ts :=
  (show Leaves AtAttribute ts rest from h.leaves).suffix

end Modifier

/-! ### Types -/

namespace TypeExpr

theorem Label.suffix {label : Option String} (h : Label ts label rest) : rest <:+ ts := by
  cases h with
  | none => exact List.suffix_refl _
  | one => exact (List.suffix_cons _ _).trans (List.suffix_cons _ _)
  | two =>
    exact ((List.suffix_cons _ _).trans (List.suffix_cons _ _)).trans (List.suffix_cons _ _)

theorem Dots.suffix (h : Dots ts rest) : rest <:+ ts := by
  induction h with
  | stop => exact List.suffix_refl _
  | dot _ _ _ ih => exact ih.trans (List.suffix_cons _ _)

/-- The phrases that may be empty. -/
def Phrase.IsOptional : Phrase → Prop
  | .marks .. | .effects _ => True
  | _ => False

/-- A phrase of a type ends with a token that may end a member; only marks and effects may be
empty. -/
theorem Spells.leaves {p : Phrase} (h : Spells p ts rest) :
    Leaves look ts rest ∧ (¬ p.IsOptional → Consumes look ts rest) := by
  have strict {us left : List Token} {q : Phrase} (c : Consumes look us left) :
      Leaves look us left ∧ (¬ q.IsOptional → Consumes look us left) := ⟨c.leaves, fun _ => c⟩
  induction h with
  | single _ _ operand | lastPart _ _ operand => exact strict (operand.2 id)
  | composition _ _ _ operand parts | part _ _ _ operand parts =>
    exact strict ((operand.2 id).trans (parts.2 id).cons)
  | operand _ _ primary marks => exact strict ((primary.2 id).leave marks.1)
  | unmarked | noEffect => exact ⟨.refl, fun strict => absurd trivial strict⟩
  | optional question _ _ marks =>
    exact strict ((Consumes.token fun _ => .inr (.inr (.inl question))).leave marks.1)
  | implicitlyUnwrapped bang _ _ marks =>
    exact strict ((Consumes.token fun _ => .inr (.inr (.inr (.inl bang)))).leave marks.1)
  | path _ _ _ _ segment marks => exact strict ((segment.2 id).leave marks.1).cons
  | attributed first others _ operand =>
    exact strict (first.consumes.trans (others.leaves.consume (operand.2 id)))
  | prefixed _ _ _ _ operand => exact strict (operand.2 id).cons
  | named _ _ _ segment => exact strict (segment.2 id)
  | array _ _ closes element => exact strict ((element.2 id).trans (.closing closes)).cons
  | dictionary _ _ _ _ closes key value =>
    exact strict ((key.2 id).trans ((value.2 id).trans (.closing closes)).cons).cons
  | parenthesized _ _ inner => exact strict (inner.2 id).cons
  | plainSegment ident => exact strict (.ident ident)
  | genericSegment _ _ _ _ arguments => exact strict (arguments.2 id).cons.cons
  | lastArgument _ greater type =>
    exact strict ((type.2 id).trans (.token fun _ => .inr (.inr (.inr (.inr (.inl greater))))))
  | argument _ _ _ type arguments => exact strict ((type.2 id).trans (arguments.2 id).cons)
  | tuple _ _ _ elements effects => exact strict ((elements.2 id).leave effects.1)
  | function _ _ _ _ elements effects result =>
    exact strict (((elements.2 id).leave effects.1).trans (result.2 id).cons)
  | noElement closes => exact strict (.closing closes)
  | lastElement _ label _ dots closes type =>
    exact strict (((type.2 id).trans ((Consumes.closing closes).behind dots.suffix)).behind
      label.suffix)
  | element _ label _ dots _ _ type elements =>
    exact strict (((type.2 id).trans ((elements.2 id).cons.behind dots.suffix)).behind
      label.suffix)
  | effect isEffect _ _ effects =>
    have ident : _ = TokenKind.ident := Token.kind_of_isWordIn isEffect
    exact strict ((Consumes.ident ident).leave effects.1)
  | typedEffect _ _ _ _ closes _ error effects =>
    exact strict (((error.2 id).trans (.closing closes)).leave effects.1).cons.cons

theorem Spells.suffix {p : Phrase} (h : Spells p ts rest) : rest <:+ ts :=
  (show Leaves AtAttribute ts rest from h.leaves.1).suffix

theorem Spells.consumes {t : TypeExpr} (h : Spells (.type t) ts rest) : Consumes look ts rest :=
  h.leaves.2 id

end TypeExpr

/-! ### What is skipped -/

namespace Skipping

/-- An initializer goes on over an attribute on its line. -/
theorem EndsExpression.not_atAttribute {started : Bool} (h : EndsExpression started ts) :
    ¬ AtAttribute ts := by
  rintro ⟨t, head, sign, sameLine⟩
  cases h with
  | nil => cases head
  | declaration _ newline => cases head; rw [sameLine] at newline; cases newline
  | comma kind | semicolon kind | closing kind | observers kind =>
    cases head
    rw [kind] at sign
    cases sign

theorem Expression.ends {started : Bool} (h : Expression started ts rest) :
    ∃ started', EndsExpression started' rest := by
  induction h with
  | stop ends => exact ⟨_, ends⟩
  | group _ _ _ _ ih | arguments _ _ _ ih | plain _ _ _ _ ih => exact ih

/-- So what stands before an attribute on its line is not the end of an initializer. -/
theorem Expression.leaves {started : Bool} (h : Expression started ts rest) :
    Leaves AtAttribute ts rest := by
  induction h with
  | stop => exact .refl
  | group _ _ closes _ ih => exact (closes.consumes.leave ih).cons.leaves
  | arguments _ opens _ ih => exact (opens.2.2.consumes.leave ih).cons.leaves
  | plain _ _ _ expression ih =>
    obtain ⟨_, ends⟩ := expression.ends
    rcases ih with rfl | ih
    · exact (Consumes.plain ends.not_atAttribute).leaves
    · exact ih.cons.leaves

/-- In front of an attribute on its line a declaration that is skipped ends behind a group in braces
or a semicolon only. -/
theorem DeclarationRest.leaves {afterBlock : Bool} (h : DeclarationRest afterBlock ts rest) :
    Consumes AtAttribute ts rest ∨ ts = rest ∧ (AtAttribute rest → afterBlock = true) := by
  induction h with
  | stop ends =>
    refine .inr ⟨rfl, ?_⟩
    rintro ⟨t, head, sign, sameLine⟩
    cases ends with
    | nil => cases head
    | declaration place =>
      cases head
      rw [sameLine] at place
      exact place.resolve_left (by simp)
    | closing kind => cases head; rw [kind] at sign; cases sign
  | semicolon kind => exact .inl (.token fun _ => .inr (.inr (.inr (.inr (.inr (.inl kind))))))
  | group _ _ closes _ ih =>
    rcases ih with ih | ⟨rfl, -⟩
    · exact .inl (closes.consumes.trans ih).cons
    · exact .inl closes.consumes.cons
  | plain _ _ _ _ _ ih =>
    rcases ih with ih | ⟨rfl, notBlock⟩
    · exact .inl ih.cons
    · exact .inl (.plain fun at_ => by cases notBlock at_)

theorem DeclarationRest.suffix {afterBlock : Bool} (h : DeclarationRest afterBlock ts rest) :
    rest <:+ ts := by
  rcases h.leaves with consumes | ⟨rfl, -⟩
  · exact consumes.leaves.suffix
  · exact List.suffix_refl _

theorem Other.consumes {first : Token} (h : Other first ts rest) :
    Consumes AtAttribute (first :: ts) rest := by
  cases h with
  | semicolon kind => exact .token fun _ => .inr (.inr (.inr (.inr (.inr (.inl kind)))))
  | group _ closes more =>
    rcases more.leaves with consumes | ⟨rfl, -⟩
    · exact (closes.consumes.trans consumes).cons
    · exact closes.consumes.cons
  | plain _ _ _ more =>
    rcases more.leaves with consumes | ⟨rfl, notBlock⟩
    · exact consumes.cons
    · exact .plain fun at_ => by cases notBlock at_

theorem Conditional.consumes {depth : Nat} (h : Conditional depth ts rest) :
    Consumes AtAttribute ts rest := by
  induction h with
  | last _ ends => exact (Consumes.ident (Token.kind_of_isWord ends)).cons
  | outer _ _ _ ih | inner _ _ _ ih | plain _ _ ih => exact ih.cons

theorem Directive.consumes {m : Member} (h : Directive ts m rest) :
    Consumes AtAttribute ts rest := by
  cases h with
  | conditional _ _ _ block => exact block.consumes.cons.cons
  | simple _ ident _ arguments => exact ((Consumes.ident ident).leave arguments.leaves).cons

end Skipping

/-! ### Properties -/

namespace Pattern

theorem Spells.consumes {p : Phrase} (h : Spells p ts rest) : Consumes AtAttribute ts rest := by
  induction h with
  | name ident => exact .ident ident
  | tuple _ _ ih => exact ih.cons
  | noItem closes => exact .closing closes
  | lastItem _ _ closes ih => exact ih.trans (.closing closes)
  | item _ _ _ _ pattern items => exact pattern.trans items.cons

end Pattern

theorem AccessorBlock.Spelled.leaves {block? : Option AccessorBlock} (h : Spelled ts block? rest) :
    Leaves AtAttribute ts rest := by
  cases h with
  | none => exact .refl
  | some _ closes => exact closes.consumes.cons.leaves

namespace Binding

theorem TypeSpelled.leaves {type? : Option TypeExpr} (h : TypeSpelled ts type? rest) :
    Leaves AtAttribute ts rest := by
  cases h with
  | none => exact .refl
  | some _ type => exact type.consumes.cons.leaves

theorem Initializer.leaves {present : Bool} (h : Initializer ts present rest) :
    Leaves AtAttribute ts rest := by
  cases h with
  | none => exact .refl
  | some _ expression =>
    obtain ⟨_, ends⟩ := expression.ends
    rcases expression.leaves with rfl | consumes
    · exact (Consumes.plain ends.not_atAttribute).leaves
    · exact consumes.cons.leaves

theorem Spelled.consumes {b : Binding} (h : Spelled ts b rest) : Consumes AtAttribute ts rest := by
  obtain ⟨pattern, type, initializer, accessors⟩ := h
  exact pattern.consumes.leave (type.leaves.trans (initializer.leaves.trans accessors.leaves))

theorem MoreSpelled.leaves {bs : List Binding} (h : MoreSpelled ts bs rest) :
    Leaves AtAttribute ts rest := by
  induction h with
  | nil => exact .refl
  | cons _ spelled _ ih => exact (spelled.consumes.leave ih).cons.leaves

end Binding

theorem Variable.Spelled.consumes {b : Binding} {bs : List Binding}
    (h : Spelled ts b bs rest) : Consumes AtAttribute ts rest := by
  obtain ⟨first, more⟩ := h
  exact first.consumes.leave more.leaves

/-! ### Declarations -/

namespace Heading

theorem TypesSpelled.consumes {types : List TypeExpr} (h : TypesSpelled ts types rest) :
    Consumes AtAttribute ts rest := by
  induction h with
  | last type => exact type.consumes
  | cons type _ _ ih => exact type.consumes.trans ih.cons

theorem InheritedSpelled.leaves {types : List TypeExpr} (h : InheritedSpelled ts types rest) :
    Leaves AtAttribute ts rest := by
  cases h with
  | none => exact .refl
  | some _ types => exact types.consumes.cons.leaves

theorem Generics.leaves (h : Generics ts rest) : Leaves AtAttribute ts rest := by
  cases h with
  | none => exact .refl
  | some _ closes => exact closes.consumes.cons.leaves

theorem ToBrace.suffix (h : ToBrace ts rest) : rest <:+ ts := by
  induction h with
  | stop => exact List.suffix_refl _
  | group _ _ closes _ ih =>
    exact (ih.trans closes.suffix).trans (List.suffix_cons _ _)
  | plain _ _ ih => exact ih.trans (List.suffix_cons _ _)

theorem Requirements.suffix (h : Requirements ts rest) : rest <:+ ts := by
  cases h with
  | none => exact List.suffix_refl _
  | some _ toBrace => exact toBrace.suffix.trans (List.suffix_cons _ _)

theorem NameSpelled.consumes {kind : DeclarationKind} {name : String}
    (h : NameSpelled kind ts name rest) : Consumes AtAttribute ts rest := by
  cases h with
  | extended type => exact type.consumes
  | name _ ident => exact .ident ident

theorem Spelled.suffix {kind : DeclarationKind} {name : String} {inherited : List TypeExpr}
    (h : Spelled kind ts name inherited rest) : rest <:+ ts := by
  obtain ⟨name, generics, inherited, requirements⟩ := h
  exact requirements.suffix.trans
    (name.consumes.leave (generics.leaves.trans inherited.leaves)).leaves.suffix

end Heading

theorem PrefixSpelled.leaves {attributes : List Attribute} {modifiers : List String}
    (h : PrefixSpelled ts attributes modifiers rest) : Leaves AtAttribute ts rest := by
  obtain ⟨attributes, modifiers⟩ := h
  exact attributes.leaves.trans modifiers.leaves

/-- A heading consumes tokens, the last of which is its brace. -/
theorem OpeningSpelled.consumes {heading : Heading} {opener : Token}
    (h : OpeningSpelled ts heading opener rest) : Consumes AtAttribute ts rest := by
  obtain ⟨-, front, -, spelled, opens⟩ := h
  have opener : Consumes AtAttribute (_ :: rest) rest :=
    .token fun _ => .inr (.inr (.inr (.inr (.inr (.inr opens)))))
  exact ((opener.behind spelled.suffix).cons).behind front.leaves.suffix

/-- A member that is no type declaration consumes tokens, and the last of them may end it. -/
theorem LeafSpelled.consumes {m : Member} (h : LeafSpelled ts m rest) :
    Consumes AtAttribute ts rest := by
  cases h with
  | directive directive => exact directive.consumes
  | property _ front _ spelled => exact spelled.consumes.cons.behind front.leaves.suffix
  | dangling _ front closes shorter =>
    rcases front.leaves with same | consumes
    · cases same
      exact absurd shorter (Nat.lt_irrefl _)
    · exact consumes
  | other _ front _ _ other => exact other.consumes.behind front.leaves.suffix

end CodableSynthesis
