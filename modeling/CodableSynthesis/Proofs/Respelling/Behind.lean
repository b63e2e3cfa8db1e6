import CodableSynthesis.Proofs.Grammar.Types

/-!
What may stand behind a type, and what cannot. A reader of types takes all it can get, so what it
leaves does not go on with the type; conversely a few kinds of tokens never go on with one.

* `TypeExpr.behindPrimary`, `TypeExpr.behindOperand`, `TypeExpr.behindType`: tokens that do not go
  on with a type.
* `Spells.not_marked`, `Spells.leavesNoAmpersand`: what readers do not leave.
* `Spells.not_startsLabel`: a type in front of a comma or a bracket does not look like a label.

What belongs to a type depends on what stands last in it. A question mark behind a path belongs to
the path, but behind a function type it belongs to the result; an ampersand behind a function type
is read as part of the result as well; and a keyword that stands last would take a name behind it
for the type it asks for. The functions `endsInType`, `endsInFunction` and `endsInKeyword` tell
these cases apart, and each step from a type to an operand to a primary type admits one more kind of
token behind it.

The same functions serve the way back. A type that was read cannot end in a function and go on with
an ampersand, because the reader of the function would have taken it.
-/

namespace CodableSynthesis.TypeExpr

/-- The kinds of tokens that end a type. -/
def stopsType : TokenKind → Bool
  | .closing _ | .greater | .colon | .comma => true
  | _ => false

/-- The kinds of tokens that belong to the type in front of them. -/
def isMark : TokenKind → Bool
  | .question | .bang | .dot => true
  | _ => false

mutual

/-- Whether a keyword stands last in the type, which would take a type behind it for its own. -/
def endsInKeyword : TypeExpr → Bool
  | .named [.mk name []] => operandKeywords.contains name
  | .function _ _ result => result.endsInKeyword
  | .composition parts => lastEndsInKeyword parts
  | .prefixed _ operand | .attributed _ operand => operand.endsInKeyword
  | _ => false

/-- Whether a keyword stands last in the last of some types. -/
def lastEndsInKeyword : List TypeExpr → Bool
  | [] => false
  | [t] => t.endsInKeyword
  | _ :: ts => lastEndsInKeyword ts

end

/-- Whether what stands last in the type is the result of a function. -/
def endsInFunction : TypeExpr → Bool
  | .function .. => true
  | .prefixed _ operand | .attributed _ operand => operand.endsInFunction
  | _ => false

/-- Whether the type ends with another one, to which marks behind it belong. -/
def endsInType : TypeExpr → Bool
  | .function .. | .prefixed .. | .attributed .. => true
  | _ => false

/-- Whether a token is a name, but no effect of a function. -/
def isPlainName (u : Token) : Bool :=
  u.kind == .ident && !u.isWordIn effectWords

/-- The tokens that may stand behind a type and do not belong to it. -/
def behindType (t : TypeExpr) (u : Token) : Bool :=
  stopsType u.kind || isPlainName u && !t.endsInKeyword

/-- The tokens that may stand behind an operand and do not belong to it. -/
def behindOperand (t : TypeExpr) (u : Token) : Bool :=
  t.behindType u || u.kind == .ampersand && !t.endsInFunction

/-- The tokens that may stand behind a primary type and do not belong to it. -/
def behindPrimary (t : TypeExpr) (u : Token) : Bool :=
  t.behindOperand u || isMark u.kind && !t.endsInType

/-- The tokens that may stand behind a segment of a path. -/
def behindSegment (u : Token) : Bool :=
  stopsType u.kind || isPlainName u || u.kind == .ampersand || isMark u.kind

/-- The tokens begin, if at all, with one of a kind. -/
def Before (kind : Token → Bool) (ts : List Token) : Prop :=
  ∀ t ∈ ts.head?, kind t = true

variable {t : TypeExpr} {ts rest : List Token} {u : Token}

namespace Before

variable {kind wider : Token → Bool}

theorem cons (h : kind u = true) : Before kind (u :: ts) := by
  rintro _ ⟨⟩
  exact h

theorem mono (h : Before kind ts) (wide : ∀ u, kind u = true → wider u = true) :
    Before wider ts :=
  fun t head => wide _ (h t head)

end Before

/-- What may stand behind a composition is what may stand behind its last part. -/
theorem behindType_composition {others : List TypeExpr} (more : others ≠ []) :
    (composition (t :: others)).behindType = (composition others).behindType := by
  obtain ⟨next, others, rfl⟩ := List.exists_cons_of_ne_nil more
  rfl

theorem behindType_of_stopsType (h : stopsType u.kind = true) : t.behindType u = true := by
  rw [behindType, h, Bool.true_or]

theorem behindOperand_of_behindType (h : t.behindType u = true) : t.behindOperand u = true := by
  rw [behindOperand, h, Bool.true_or]

theorem behindPrimary_of_behindOperand (h : t.behindOperand u = true) :
    t.behindPrimary u = true := by
  rw [behindPrimary, h, Bool.true_or]

/-- Behind a type that ends with its result, only what may stand behind that may stand. -/
theorem behindType_of_behindOperand (function : t.endsInFunction = true)
    (h : t.behindOperand u = true) : t.behindType u = true := by
  simpa [behindOperand, function] using h

/-- Behind a type that ends with another one, marks do not belong to the whole. -/
theorem behindOperand_of_behindPrimary (ends : t.endsInType = true)
    (h : t.behindPrimary u = true) : t.behindOperand u = true := by
  simpa [behindPrimary, ends] using h

theorem behindSegment_of_behindPrimary (h : t.behindPrimary u = true) : behindSegment u = true := by
  simp only [behindPrimary, behindOperand, behindType, Bool.or_eq_true, Bool.and_eq_true] at h
  rcases h with ((stops | ⟨name, -⟩) | ⟨ampersand, -⟩) | ⟨mark, -⟩
  · simp only [behindSegment, stops, Bool.true_or]
  · simp only [behindSegment, name, Bool.or_true, Bool.true_or]
  · simp only [behindSegment, ampersand, Bool.or_true, Bool.true_or]
  · simp only [behindSegment, mark, Bool.or_true]

/-- What may stand behind a segment begins no generic arguments, no effects and no arrow. -/
theorem Before.segment (h : Before behindSegment rest) :
    ¬ StartsGenerics rest ∧ (∀ u ∈ rest.head?, u.isWordIn effectWords = false) ∧
      ∀ u ∈ rest.head?, u.kind ≠ .arrow := by
  cases rest with
  | nil => exact ⟨by rintro ⟨_, ⟨⟩, -⟩, nofun, nofun⟩
  | cons u rest =>
    have allowed := h u rfl
    refine ⟨?_, ?_, ?_⟩
    · rintro ⟨_, ⟨⟩, less, -⟩
      simp [behindSegment, isPlainName, less, stopsType, isMark] at allowed
    · rintro _ ⟨⟩
      cases isWord : u.isWordIn effectWords with
      | false => rfl
      | true =>
        simp [behindSegment, isPlainName, isWord, Token.kind_of_isWordIn isWord, stopsType,
          isMark] at allowed
    · rintro _ ⟨⟩ arrow
      simp [behindSegment, isPlainName, arrow, stopsType, isMark] at allowed

/-- What may stand behind a primary type does not begin one, unless no keyword stands before it. -/
theorem Before.not_startsOperand (h : Before t.behindPrimary rest)
    (keyword : t.endsInKeyword = true) : startsOperand rest = false := by
  cases rest with
  | nil => rfl
  | cons u rest =>
    have allowed := h u rfl
    simp only [behindPrimary, behindOperand, behindType, keyword, Bool.not_true, Bool.and_false,
      Bool.or_false] at allowed
    rw [startsOperand]
    cases kind : u.kind with
    | ident | opening _ | atSign => simp [kind, stopsType, isMark] at allowed
    | _ => rfl

/-- What may stand behind an operand does not go on with it. -/
theorem Before.not_goesOn (h : Before t.behindOperand rest) : ¬ GoesOn t rest := by
  rintro (⟨u, head, mark | mark, -⟩ | ⟨-, u, _, _, rfl, dot, -⟩)
  · have allowed := h u head
    simp [behindOperand, behindType, isPlainName, mark, stopsType] at allowed
  · have allowed := h u head
    simp [behindOperand, behindType, isPlainName, mark, stopsType] at allowed
  · have allowed := h u rfl
    simp [behindOperand, behindType, isPlainName, dot, stopsType] at allowed

theorem Before.not_ampersand (h : Before t.behindType rest) :
    ∀ u ∈ rest.head?, u.kind ≠ .ampersand := by
  intro u head ampersand
  have allowed := h u head
  simp [behindType, isPlainName, ampersand, stopsType] at allowed

/-! ### What readers of types do not leave -/

/-- The tokens begin with a question or exclamation mark that touches what stands before it. -/
def Marked (ts : List Token) : Prop :=
  ∃ t ∈ ts.head?, (t.kind = .question ∨ t.kind = .bang) ∧ t.touches = true

/-- Whether the readers of a phrase take all marks behind it. -/
def Phrase.takesMarks : Phrase → Bool
  | .type _ | .parts _ | .operand _ | .marks .. => true
  | .primary t | .parenthesized t => t.endsInType
  | _ => false

/-- No mark that belongs to a type is left behind it. -/
theorem Spells.not_marked {p : Phrase} (h : Spells p ts rest) (takes : p.takesMarks = true) :
    ¬ Marked rest := by
  induction h with
  | single _ _ ih | lastPart _ _ ih => exact ih rfl
  | composition _ _ _ _ ih | part _ _ _ _ ih => exact ih rfl
  | operand _ _ _ ih => exact ih rfl
  | unmarked stops => exact fun marked => stops (.inl marked)
  | optional _ _ _ ih | implicitlyUnwrapped _ _ _ ih => exact ih rfl
  | path _ _ _ _ _ ih => exact ih rfl
  | attributed _ _ _ ih => exact ih rfl
  | prefixed _ _ _ _ ih => exact ih rfl
  | parenthesized _ _ ih => exact ih takes
  | function _ _ _ _ _ _ ih => exact ih rfl
  | _ => cases takes

/-- The tokens do not begin with an ampersand. -/
def NoAmpersand (ts : List Token) : Prop :=
  ∀ t ∈ ts.head?, t.kind ≠ .ampersand

/-- Behind a whole type no ampersand is left, nor behind one that ends with a function's result. -/
def Phrase.LeavesNoAmpersand (ts rest : List Token) : Phrase → Prop
  | .type _ | .parts _ => NoAmpersand rest
  | .operand t | .primary t | .parenthesized t => t.endsInFunction = true → NoAmpersand rest
  | .marks before after =>
    (before.endsInFunction = true → NoAmpersand ts) → after.endsInFunction = true → NoAmpersand rest
  | _ => True

/-- Readers leave no ampersand that they could take. -/
theorem Spells.leavesNoAmpersand {p : Phrase} (h : Spells p ts rest) :
    p.LeavesNoAmpersand ts rest := by
  induction h with
  | single _ stops | lastPart _ stops => exact stops
  | composition _ _ _ _ ih | part _ _ _ _ ih => exact ih
  | operand _ _ ihPrimary ihMarks => exact ihMarks ihPrimary
  | unmarked => exact id
  | optional _ _ _ ih | implicitlyUnwrapped _ _ _ ih | path _ _ _ _ _ ih => exact fun _ => ih nofun
  | attributed _ _ _ ih | prefixed _ _ _ _ ih => exact ih
  | named | array | dictionary | tuple => exact nofun
  | parenthesized _ _ ih => exact ih
  | function _ _ _ _ _ _ ih => exact fun _ => ih
  | _ => trivial

/-- A type in front of an ampersand does not end with a function's result. -/
theorem Spells.not_endsInFunction {more : List Token} (h : Spells (.operand t) ts (u :: more))
    (ampersand : u.kind = .ampersand) : t.endsInFunction = false := by
  cases ends : t.endsInFunction with
  | false => rfl
  | true => exact absurd ampersand (h.leavesNoAmpersand ends u rfl)

/-- Where an operand begins. -/
theorem Spells.startsOperand (h : Spells (.operand t) ts rest) : startsOperand ts = true := by
  cases h with
  | operand primary _ =>
    cases primary with
    | attributed first =>
      obtain ⟨_, _, rfl, sign, -⟩ := first.head
      rw [TypeExpr.startsOperand, sign]
    | prefixed kind | named kind | array kind | dictionary kind | parenthesized kind =>
      rw [TypeExpr.startsOperand, kind]

theorem Spells.type_startsOperand (h : Spells (.type t) ts rest) :
    TypeExpr.startsOperand ts = true := by
  cases h with
  | single operand | composition operand => exact operand.startsOperand

/-- Whether a type begins with an attribute. -/
def startsWithSign : TypeExpr → Bool
  | .attributed .. => true
  | .optional wrapped | .implicitlyUnwrapped wrapped => wrapped.startsWithSign
  | _ => false

theorem Spells.marks_startsWithSign {p : Phrase} (h : Spells p ts rest) :
    match p with
    | .marks before after => before.startsWithSign = after.startsWithSign
    | _ => True := by
  induction h with
  | unmarked => rfl
  | optional _ _ _ ih | implicitlyUnwrapped _ _ _ ih => exact ih
  | path _ _ _ _ _ ih => exact ih
  | _ => trivial

/-- An operand begins with an attribute if and only if its tokens do. -/
theorem Spells.startsWithSign_iff (h : Spells (.operand t) ts rest) :
    t.startsWithSign = true ↔ ∃ u ∈ ts.head?, u.kind = .atSign := by
  cases h with
  | operand primary marks =>
    rw [← marks.marks_startsWithSign]
    cases primary with
    | attributed first =>
      obtain ⟨u, _, rfl, sign, -⟩ := first.head
      exact ⟨fun _ => ⟨u, rfl, sign⟩, fun _ => rfl⟩
    | prefixed kind | named kind | array kind | dictionary kind =>
      refine ⟨nofun, ?_⟩
      rintro ⟨_, ⟨⟩, sign⟩
      rw [kind] at sign
      cases sign
    | parenthesized kind inner =>
      refine ⟨fun sign => ?_, ?_⟩
      · cases inner <;> cases sign
      · rintro ⟨_, ⟨⟩, sign⟩
        rw [kind] at sign
        cases sign

/-! ### Labels -/

section

variable {a b c : Token} {more : List Token}

theorem Spells.marks_stay {before : TypeExpr} (h : Spells (.marks before t) (b :: more) rest)
    (plain : isMark b.kind = false) : rest = b :: more := by
  cases h with
  | unmarked => rfl
  | optional kind | implicitlyUnwrapped kind | path kind =>
    rw [kind] at plain
    cases plain

theorem Spells.segment_of_plain {s : PathSegment} (h : Spells (.segment s) (a :: b :: more) rest)
    (plain : b.kind ≠ .less) : rest = b :: more := by
  cases h with
  | plainSegment => rfl
  | genericSegment _ less => exact absurd less plain

/-- A type that begins with a name in front of a colon is that name. -/
theorem Spells.operand_of_colon (h : Spells (.operand t) (a :: b :: more) rest)
    (ident : a.kind = .ident) (colon : b.kind = .colon) : rest = b :: more := by
  cases h with
  | @operand before _ _ mid _ primary marks =>
    obtain rfl : mid = b :: more := by
      cases primary with
      | attributed first =>
        obtain ⟨_, _, ⟨⟩, sign, -⟩ := first.head
        rw [ident] at sign
        cases sign
      | prefixed _ _ starts =>
        rw [TypeExpr.startsOperand, colon] at starts
        cases starts
      | named _ _ segment => exact segment.segment_of_plain (by simp [colon])
      | array kind | dictionary kind | parenthesized kind =>
        rw [ident] at kind
        cases kind
    exact marks.marks_stay (by rw [colon]; rfl)

/-- A type that begins with two names in front of a colon is one of them or both. -/
theorem Spells.operand_of_names (h : Spells (.operand t) (a :: b :: c :: more) rest)
    (ident : a.kind = .ident) (ident' : b.kind = .ident) (colon : c.kind = .colon) :
    rest = b :: c :: more ∨ rest = c :: more := by
  cases h with
  | @operand before _ _ mid _ primary marks =>
    have read : mid = b :: c :: more ∨ mid = c :: more := by
      cases primary with
      | attributed first =>
        obtain ⟨_, _, ⟨⟩, sign, -⟩ := first.head
        rw [ident] at sign
        cases sign
      | prefixed _ _ _ operand => exact .inr (operand.operand_of_colon ident' colon)
      | named _ _ segment => exact .inl (segment.segment_of_plain (by rw [ident']; nofun))
      | array kind | dictionary kind | parenthesized kind =>
        rw [ident] at kind
        cases kind
    rcases read with rfl | rfl
    · exact .inl (marks.marks_stay (by rw [ident']; rfl))
    · exact .inr (marks.marks_stay (by rw [colon]; rfl))

/-- A type in front of neither a name nor a colon does not look like a label. -/
theorem Spells.not_startsLabel (h : Spells (.type t) ts rest)
    (noName : ∀ u ∈ rest.head?, u.kind ≠ .ident) (noColon : ∀ u ∈ rest.head?, u.kind ≠ .colon) :
    ¬ StartsLabel ts := by
  -- Behind its first operand stands the rest, or an ampersand.
  obtain ⟨first, mid, operand, next⟩ : ∃ first mid, Spells (.operand first) ts mid ∧
      (mid = rest ∨ ∃ u more, mid = u :: more ∧ u.kind = .ampersand) := by
    cases h with
    | single operand => exact ⟨_, _, operand, .inl rfl⟩
    | composition operand ampersand => exact ⟨_, _, operand, .inr ⟨_, _, rfl, ampersand⟩⟩
  have noName : ∀ u ∈ mid.head?, u.kind ≠ .ident := by
    rcases next with rfl | ⟨v, _, rfl, ampersand⟩
    · exact noName
    · rintro _ ⟨⟩
      rw [ampersand]
      nofun
  have noColon : ∀ u ∈ mid.head?, u.kind ≠ .colon := by
    rcases next with rfl | ⟨v, _, rfl, ampersand⟩
    · exact noColon
    · rintro _ ⟨⟩
      rw [ampersand]
      nofun
  rintro (⟨a, b, more, rfl, ident, colon⟩ | ⟨a, b, c, more, rfl, ident, ident', colon⟩)
  · obtain rfl := operand.operand_of_colon ident colon
    exact noColon b rfl colon
  · rcases operand.operand_of_names ident ident' colon with rfl | rfl
    · exact noName b rfl ident'
    · exact noColon c rfl colon

end

end CodableSynthesis.TypeExpr
