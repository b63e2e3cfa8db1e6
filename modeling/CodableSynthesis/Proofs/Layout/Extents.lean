import CodableSynthesis.Proofs.Edits.Frame

/-!
How the spans of a tree of declarations nest. Every span that the tree records is that of a token,
and the tokens of a source follow one another; so the parts of a declaration lie in it in the order
in which they were read.

* `Text.Span.Ordered`: stretches of a text that are not empty and follow one another.
* `Declaration.WellNested`: the attributes, the keyword, the braces and the members of a
  declaration.
* `readSource_extents`: so it is for every declaration of a source, however deep, and for the
  declarations at its top among each other.

Where a declaration begins is not recorded as such; it is its first attribute, or else its keyword
(`Heading.first`). Modifiers are kept without a place, so a declaration without attributes counts
from its keyword on, although modifiers may stand in front of it.

The characters at the ends are part of the statement: an at sign where an attribute begins, and the
two braces. They are known from the kinds of the tokens, since punctuation is its own text
(`Standing`).
-/

namespace CodableSynthesis

namespace Text

/-- The character that a text has behind so many bytes. -/
def StandsAt (source : List Char) (offset : Nat) (c : Char) : Prop :=
  ∃ front back, source = front ++ c :: back ∧ byteLength front = offset

/-- Stretches of a text between two offsets that are not empty and follow one another. -/
structure Span.Ordered (lo hi : Nat) (spans : List Span) : Prop where
  /-- Each lies between the offsets and is not empty. -/
  within : ∀ s ∈ spans, lo ≤ s.start ∧ s.start < s.stop ∧ s.stop ≤ hi
  /-- Each ends before the next begins. -/
  order : spans.Pairwise fun s s' => s.stop ≤ s'.start

namespace Span.Ordered

variable {lo mid hi : Nat} {s : Span} {spans others : List Span}

theorem nil : Ordered lo hi [] :=
  ⟨nofun, .nil⟩

theorem widen {lo' hi' : Nat} (h : Ordered lo hi spans) (before : lo' ≤ lo) (behind : hi ≤ hi') :
    Ordered lo' hi' spans := by
  refine ⟨fun s mem => ?_, h.order⟩
  obtain ⟨start, proper, stop⟩ := h.within s mem
  exact ⟨Nat.le_trans before start, proper, Nat.le_trans stop behind⟩

theorem sublist (h : Ordered lo hi spans) (sub : others.Sublist spans) : Ordered lo hi others :=
  ⟨fun s mem => h.within s (sub.subset mem), h.order.sublist sub⟩

/-- One stretch in front of others. -/
theorem cons (start : lo ≤ s.start) (proper : s.start < s.stop) (stop : s.stop ≤ hi)
    (h : Ordered s.stop hi spans) : Ordered lo hi (s :: spans) := by
  constructor
  · intro s' mem
    rcases List.mem_cons.mp mem with rfl | mem
    · exact ⟨start, proper, stop⟩
    · obtain ⟨start', proper', stop'⟩ := h.within s' mem
      exact ⟨by omega, proper', stop'⟩
  · exact List.pairwise_cons.mpr ⟨fun s' mem => (h.within s' mem).1, h.order⟩

/-- Stretches up to an offset in front of others that begin there. -/
theorem append (front : Ordered lo mid spans) (h : Ordered mid hi others) (before : lo ≤ mid)
    (behind : mid ≤ hi) : Ordered lo hi (spans ++ others) := by
  constructor
  · intro s mem
    rcases List.mem_append.mp mem with mem | mem
    · exact (front.widen (Nat.le_refl _) behind).within s mem
    · exact (h.widen before (Nat.le_refl _)).within s mem
  · refine List.pairwise_append.mpr ⟨front.order, h.order, fun s mem s' mem' => ?_⟩
    exact Nat.le_trans (front.within s mem).2.2 (h.within s' mem').1

theorem tighten (h : Ordered lo hi (s :: spans)) : Ordered s.start hi (s :: spans) := by
  obtain ⟨-, proper, stop⟩ := h.within s (.head _)
  refine cons (Nat.le_refl _) proper stop ⟨fun s' mem => ?_, (List.pairwise_cons.mp h.order).2⟩
  exact ⟨(List.pairwise_cons.mp h.order).1 s' mem, (h.within s' (.tail _ mem)).2⟩

end Span.Ordered

end Text

open Text (Position Span StandsAt byteLength byteLength_append)
open Lexeme (mark?)

/-! ### What a declaration records -/

/-- Where a declaration begins: at its first attribute, or else at its keyword. -/
def Heading.first (h : Heading) : Span :=
  (h.attributes.head?.map (·.first)).getD h.keyword

/-- From where a declaration begins to its closing brace. -/
def Declaration.extent (d : Declaration) : Span :=
  .cover d.heading.first d.closer

/-- What a member records of its place, in order: for a variable declaration its attributes, its
keyword and its bindings, for a type declaration its extent. Of other members only a word is kept,
which for attributes in front of a closing brace is that brace; it counts for nothing. -/
def Member.parts : Member → List Span
  | .variable v => v.attributes.map (·.span) ++ v.span :: v.bindings.map (·.span)
  | .type d => [d.extent]
  | .other .. => []

/-- The parts of a declaration stand in the source one behind another. -/
structure Declaration.WellNested (source : List Char) (d : Declaration) : Prop where
  /-- An attribute begins with its sign. -/
  signs : ∀ a ∈ d.heading.attributes, StandsAt source a.span.start '@'
  /-- The attributes lie in front of the keyword. -/
  attributes : Span.Ordered d.extent.start d.heading.keyword.start
    (d.heading.attributes.map (·.span))
  /-- The keyword lies in front of the opening brace. -/
  keyword : d.heading.keyword.start < d.heading.keyword.stop ∧
    d.heading.keyword.stop ≤ d.opener.start
  /-- The opening brace is one. -/
  opens : StandsAt source d.opener.start '\x7b' ∧ d.opener.stop = d.opener.start + 1
  /-- The closing brace is one, and the declaration ends with it. -/
  closes : StandsAt source d.closer.start '\x7d' ∧ d.stop = d.closer.start + 1
  /-- The opening brace lies in front of the closing one. -/
  body : d.opener.start < d.closer.start
  /-- The members lie between the braces, and each in front of the next. -/
  members : Span.Ordered d.opener.stop d.closer.start (d.members.flatMap Member.parts)

/-! ### Tokens in a source -/

/-- `Standing source o ts`: the tokens stand in the source one behind another from byte `o` on, and
punctuation stands where its character does. -/
inductive Standing (source : List Char) : Nat → List Token → Prop
  | nil {o : Nat} : Standing source o []
  | cons {o : Nat} {t : Token} {ts : List Token} :
      o ≤ t.span.start → t.span.start < t.span.stop →
      (∀ c, mark? t.kind = some c →
        StandsAt source t.span.start c ∧ t.span.stop = t.span.start + c.utf8Size) →
      Standing source t.span.stop ts → Standing source o (t :: ts)

/-- The tokens of a source stand in it. -/
theorem Placed.standing {source text : List Char} {p : Position} {ts : List Token}
    (h : Placed p ts text) (stands : Rest source p text) : Standing source p.offset ts := by
  induction h with
  | done => exact .nil
  | @token p gap t ts rest _ _ sound span _ ih =>
    have start : t.span.start = p.offset + byteLength gap := by
      rw [span, ← Position.offset_advance]
      rfl
    have stop : t.span.stop = p.offset + byteLength (gap ++ t.chars) := by
      rw [span, ← Position.offset_advance]
      rfl
    rw [byteLength_append] at stop
    obtain ⟨c, more, chars, -⟩ := sound.spelled.head
    have proper := Text.byteLength_pos (show t.chars ≠ [] by simp [chars])
    refine .cons (by omega) (by omega) ?_ ?_
    · intro mark isMark
      have one : t.chars = [mark] := sound.spelled.eq_mark isMark
      obtain ⟨before, rfl, rfl⟩ := stands
      refine ⟨⟨before ++ gap, rest, by simp [one], ?_⟩, ?_⟩
      · rw [start, Rest.offset_start, byteLength_append]
      · rw [stop, start, one]
        simp [Nat.add_assoc]
    · have later := ih (by rw [← List.append_assoc] at stands; exact stands.advance)
      rwa [Position.offset_advance, byteLength_append, ← stop] at later

namespace Standing

variable {source : List Char} {o o' : Nat} {t : Token} {ts front rest : List Token}

/-- Behind some tokens the others stand further on. -/
theorem split (h : Standing source o (front ++ rest)) :
    ∃ o', o ≤ o' ∧ Standing source o' rest := by
  induction front generalizing o with
  | nil => exact ⟨o, Nat.le_refl _, h⟩
  | cons t front ih =>
    cases h with
    | cons start proper _ later =>
      obtain ⟨o', after, behind⟩ := ih later
      exact ⟨o', by omega, behind⟩

theorem of_suffix (h : Standing source o ts) (suffix : rest <:+ ts) :
    ∃ o', o ≤ o' ∧ Standing source o' rest := by
  obtain ⟨front, rfl⟩ := suffix
  exact h.split

/-- The first token, and the others behind it. -/
theorem head (h : Standing source o (t :: ts)) :
    o ≤ t.span.start ∧ t.span.start < t.span.stop ∧ Standing source t.span.stop ts := by
  cases h with
  | cons start proper _ later => exact ⟨start, proper, later⟩

/-- What is left behind some tokens stands behind the first of them. -/
theorem consume {look : List Token → Prop} (h : Standing source o (t :: ts))
    (consumes : Consumes look (t :: ts) rest) :
    ∃ o', t.span.stop ≤ o' ∧ Standing source o' rest := by
  obtain ⟨-, -, later⟩ := h.head
  obtain ⟨front, last, made, -⟩ := consumes
  cases front with
  | nil =>
    cases made
    exact ⟨_, Nat.le_refl _, later⟩
  | cons u front =>
    cases made
    exact later.of_suffix ((List.suffix_cons _ _).trans (List.suffix_append _ _))

theorem mark {c : Char} (h : Standing source o (t :: ts)) (isMark : mark? t.kind = some c) :
    StandsAt source t.span.start c ∧ t.span.stop = t.span.start + c.utf8Size := by
  cases h with
  | cons _ _ marks _ => exact marks c isMark

end Standing

/-! ### Members in a source

Each grammar is gone through once, with an offset in front of the tokens and one behind; what is
recorded lies between the two. -/

section Reading

variable {source : List Char} {o : Nat} {ts rest : List Token}

theorem Attribute.Spelled.standing {a : Attribute} (h : Spelled ts a rest)
    (stands : Standing source o ts) :
    o ≤ a.span.start ∧ a.span.start < a.span.stop ∧ StandsAt source a.span.start '@' ∧
      Standing source a.span.stop rest := by
  obtain ⟨sign, front, last, rfl, kind, first, ends⟩ := h.reach
  obtain ⟨start, proper, later⟩ := stands.head
  obtain ⟨at_, -⟩ := stands.mark (c := '@') (by rw [kind]; rfl)
  obtain ⟨o', after, behind⟩ := later.split
  obtain ⟨lastStart, lastProper, left⟩ := behind.head
  change o ≤ a.first.start ∧ a.first.start < a.last.stop ∧ StandsAt source a.first.start '@' ∧
    Standing source a.last.stop rest
  rw [first, ends]
  exact ⟨start, by omega, at_, left⟩

/-- Attributes follow one another. -/
theorem Attribute.AllSpelled.standing {as : List Attribute} (h : AllSpelled ts as rest)
    (stands : Standing source o ts) :
    ∃ o', o ≤ o' ∧ Standing source o' rest ∧ Span.Ordered o o' (as.map (·.span)) ∧
      ∀ a ∈ as, StandsAt source a.span.start '@' := by
  induction h generalizing o with
  | nil => exact ⟨o, Nat.le_refl _, stands, .nil, nofun⟩
  | cons spelled _ ih =>
    obtain ⟨start, proper, sign, behind⟩ := spelled.standing stands
    obtain ⟨o', after, left, ordered, signs⟩ := ih behind
    exact ⟨o', by omega, left, ordered.cons start proper after,
      List.forall_mem_cons.mpr ⟨sign, signs⟩⟩

theorem Binding.Spelled.standing {b : Binding} (h : Spelled ts b rest)
    (stands : Standing source o ts) :
    ∃ o', Standing source o' rest ∧ o ≤ b.span.start ∧ b.span.start < b.span.stop ∧
      b.span.stop ≤ o' := by
  have consumes := h.consumes
  obtain ⟨-, -, -, -⟩ := h
  obtain ⟨start, proper, -⟩ := stands.head
  obtain ⟨o', behind, left⟩ := stands.consume consumes
  exact ⟨o', left, start, proper, behind⟩

theorem Binding.MoreSpelled.standing {bs : List Binding} (h : MoreSpelled ts bs rest)
    (stands : Standing source o ts) :
    ∃ o', o ≤ o' ∧ Standing source o' rest ∧ Span.Ordered o o' (bs.map (·.span)) := by
  induction h generalizing o with
  | nil => exact ⟨o, Nat.le_refl _, stands, .nil⟩
  | cons _ spelled _ ih =>
    obtain ⟨commaStart, commaProper, behindComma⟩ := stands.head
    obtain ⟨mid, behind, start, proper, stop⟩ := spelled.standing behindComma
    obtain ⟨o', after, left, ordered⟩ := ih behind
    refine ⟨o', by omega, left, ?_⟩
    rw [List.map_cons]
    exact (ordered.widen stop (Nat.le_refl _)).cons (by omega) proper (by omega)

/-- A member that is no type declaration: its parts lie where its tokens stand. -/
theorem LeafSpelled.standing {m : Member} (h : LeafSpelled ts m rest)
    (stands : Standing source o ts) :
    ∃ o', o ≤ o' ∧ Standing source o' rest ∧ Span.Ordered o o' m.parts := by
  have moves : ∃ o', o ≤ o' ∧ Standing source o' rest :=
    stands.of_suffix h.consumes.leaves.suffix
  cases h with
  | directive directive =>
    obtain ⟨o', after, left⟩ := moves
    cases directive with
    | conditional | simple => exact ⟨o', after, left, .nil⟩
  | dangling | other =>
    obtain ⟨o', after, left⟩ := moves
    exact ⟨o', after, left, .nil⟩
  | property _ front _ spelled =>
    obtain ⟨attributes, modifiers⟩ := front
    obtain ⟨first, others⟩ := spelled
    obtain ⟨o₁, after₁, behind₁, attributes, -⟩ := attributes.standing stands
    obtain ⟨o₂, after₂, behind₂⟩ := behind₁.of_suffix modifiers.suffix
    obtain ⟨keywordStart, keywordProper, behindKeyword⟩ := behind₂.head
    obtain ⟨o₃, behind₃, start, proper, stop⟩ := first.standing behindKeyword
    obtain ⟨o₄, after₄, left, others⟩ := others.standing behind₃
    have bindings := (others.widen stop (Nat.le_refl _)).cons start proper (by omega)
    have inFront := Nat.le_trans (Nat.le_of_lt (Nat.lt_of_le_of_lt start proper))
      (Nat.le_trans stop after₄)
    refine ⟨o₄, by omega, left, attributes.append ?_ after₁ (by omega)⟩
    exact bindings.cons (Nat.le_trans after₂ keywordStart) keywordProper inFront

/-- A heading from byte `o` on and the brace behind it stand in the source. -/
structure Heading.Standing (source : List Char) (o : Nat) (h : Heading) (opener : Span) :
    Prop where
  start : o ≤ h.first.start
  signs : ∀ a ∈ h.attributes, StandsAt source a.span.start '@'
  attributes : Span.Ordered h.first.start h.keyword.start (h.attributes.map (·.span))
  longer : h.first.start ≤ h.keyword.start
  keyword : h.keyword.start < h.keyword.stop ∧ h.keyword.stop ≤ opener.start
  opens : StandsAt source opener.start '\x7b' ∧ opener.stop = opener.start + 1

theorem OpeningSpelled.standing {heading : Heading} {opener : Token}
    (h : OpeningSpelled ts heading opener rest) (stands : Standing source o ts) :
    heading.Standing source o opener.span ∧ Standing source opener.span.stop rest := by
  obtain @⟨as, _, _, _, _, t, keyword, opener, _, _, _, -, front, -, spelled, opens⟩ := h
  obtain ⟨attributes, modifiers⟩ := front
  obtain ⟨o₁, after₁, behind₁, ordered, signs⟩ := attributes.standing stands
  obtain ⟨o₂, after₂, behind₂⟩ := behind₁.of_suffix modifiers.suffix
  obtain ⟨start, proper, behindKeyword⟩ := behind₂.head
  obtain ⟨o₃, after₃, atOpener⟩ := behindKeyword.of_suffix spelled.suffix
  obtain ⟨openerStart, -, left⟩ := atOpener.head
  have brace := atOpener.mark (c := '\x7b') (by rw [opens]; rfl)
  have inFront := ordered.widen (Nat.le_refl o) (Nat.le_trans after₂ start)
  have behind := Nat.le_trans after₃ openerStart
  refine ⟨?_, left⟩
  cases as with
  | nil =>
    refine ⟨?_, signs, .nil, Nat.le_refl _, ⟨proper, behind⟩, brace⟩
    exact Nat.le_trans after₁ (Nat.le_trans after₂ start)
  | cons a as =>
    obtain ⟨first, longer, stop⟩ := inFront.within a.span (.head _)
    refine ⟨first, signs, inFront.tighten, ?_, ⟨proper, behind⟩, brace⟩
    exact Nat.le_of_lt (Nat.lt_of_lt_of_le longer stop)

/-- What members from byte `o` on come to at byte `o'`: their parts follow one another, and the
declarations among and in them are well nested. -/
structure Member.AllStanding (source : List Char) (o : Nat) (ms : List Member) (o' : Nat) :
    Prop where
  after : o ≤ o'
  parts : Span.Ordered o o' (ms.flatMap Member.parts)
  nested : ∀ d ∈ Declaration.nestedIn ms, d.WellNested source

namespace Member.AllStanding

variable {mid o' : Nat} {m : Member} {ms : List Member}

theorem widen (h : AllStanding source mid ms o') (before : o ≤ mid) :
    AllStanding source o ms o' :=
  ⟨Nat.le_trans before h.after, h.parts.widen before (Nat.le_refl _), h.nested⟩

theorem leaf (h : AllStanding source mid ms o') (none : m.type? = none) (before : o ≤ mid)
    (parts : Span.Ordered o mid m.parts) : AllStanding source o (m :: ms) o' := by
  refine ⟨Nat.le_trans before h.after, ?_, ?_⟩
  · rw [List.flatMap_cons]
    exact parts.append h.parts before h.after
  · cases m with
    | type d => cases none
    | «variable» | other => exact h.nested

/-- A type declaration in front of other members. -/
theorem type {heading : Heading} {inner : List Member} {opener : Span} {closer : Token}
    (h : AllStanding source closer.span.stop ms o') (front : heading.Standing source o opener)
    (body : AllStanding source opener.stop inner mid) (closes : mid ≤ closer.span.start)
    (brace : StandsAt source closer.span.start '\x7d' ∧
      closer.span.stop = closer.span.start + 1) :
    AllStanding source o (.type ⟨heading, inner, opener, closer.span⟩ :: ms) o' := by
  have opened := front.opens.2
  have reached := body.after
  have longer := front.longer
  have keyword := front.keyword
  have start := front.start
  have closed := brace.2
  have here : Declaration.WellNested source ⟨heading, inner, opener, closer.span⟩ := by
    refine ⟨front.signs, front.attributes, keyword, front.opens, brace, ?_, ?_⟩
    · change opener.start < closer.span.start
      omega
    · exact body.parts.widen (Nat.le_refl _) closes
  refine ⟨?_, ?_, ?_⟩
  · have := h.after
    omega
  · refine h.parts.cons start ?_ h.after
    change heading.first.start < closer.span.stop
    omega
  · rw [Declaration.nestedIn, Declaration.withNested]
    exact List.forall_mem_append.mpr ⟨List.forall_mem_cons.mpr ⟨here, body.nested⟩, h.nested⟩

end Member.AllStanding

/-- Members in front of the brace that closes them. -/
theorem Members.standing {ms : List Member} {closer : Token} (h : Members ts ms closer rest)
    (stands : Standing source o ts) :
    ∃ o', Standing source o' (closer :: rest) ∧ Member.AllStanding source o ms o' := by
  induction h generalizing o with
  | close => exact ⟨o, stands, Nat.le_refl _, .nil, nofun⟩
  | semicolon _ _ ih =>
    obtain ⟨start, proper, later⟩ := stands.head
    obtain ⟨o', left, members⟩ := ih later
    exact ⟨o', left, members.widen (Nat.le_trans start (Nat.le_of_lt proper))⟩
  | leaf _ leaf _ ih =>
    obtain ⟨mid, before, behind, parts⟩ := leaf.standing stands
    obtain ⟨o', left, members⟩ := ih behind
    exact ⟨o', left, members.leaf leaf.type?_eq_none before parts⟩
  | type _ opening inner _ innerIh ih =>
    obtain ⟨front, opened⟩ := opening.standing stands
    obtain ⟨mid, atCloser, body⟩ := innerIh opened
    obtain ⟨closes, -, behind⟩ := atCloser.head
    have brace := atCloser.mark (c := '\x7d') (by rw [inner.closes]; rfl)
    obtain ⟨o', left, members⟩ := ih behind
    exact ⟨o', left, members.type front body closes brace⟩

/-- The declarations of a file. -/
theorem FileSpelled.standing {ms : List Member} (h : FileSpelled ts ms)
    (stands : Standing source o ts) : ∃ o', Member.AllStanding source o ms o' := by
  induction h generalizing o with
  | nil => exact ⟨o, Nat.le_refl _, .nil, nofun⟩
  | semicolon _ _ ih =>
    obtain ⟨start, proper, later⟩ := stands.head
    obtain ⟨o', members⟩ := ih later
    exact ⟨o', members.widen (Nat.le_trans start (Nat.le_of_lt proper))⟩
  | leaf _ leaf _ ih =>
    obtain ⟨mid, before, behind, parts⟩ := leaf.standing stands
    obtain ⟨o', members⟩ := ih behind
    exact ⟨o', members.leaf leaf.type?_eq_none before parts⟩
  | type _ opening inner _ ih =>
    obtain ⟨front, opened⟩ := opening.standing stands
    obtain ⟨mid, atCloser, body⟩ := inner.standing opened
    obtain ⟨closes, -, behind⟩ := atCloser.head
    have brace := atCloser.mark (c := '\x7d') (by rw [inner.closes]; rfl)
    obtain ⟨o', members⟩ := ih behind
    exact ⟨o', members.type front body closes brace⟩

end Reading

/-- The extents of the type declarations among some members are parts of these. -/
theorem Member.extents_sublist (ms : List Member) :
    ((ms.filterMap Member.type?).map (·.extent)).Sublist (ms.flatMap Member.parts) := by
  induction ms with
  | nil => exact List.Sublist.refl _
  | cons m ms ih =>
    rw [List.flatMap_cons]
    cases m with
    | type d => exact ih.cons_cons d.extent
    | «variable» | other => exact ih.trans (List.sublist_append_right _ _)

/-- The types in some members are those in the type declarations among them. -/
theorem Declaration.nestedIn_types (ms : List Member) :
    nestedIn ms = (ms.filterMap Member.type?).flatMap withNested := by
  induction ms with
  | nil => rfl
  | cons m ms ih =>
    cases m with
    | type d => rw [nestedIn, ih]; rfl
    | «variable» | other => exact ih

/-- The spans of a tree of declarations nest: every declaration, at any depth, is made of parts that
follow one another, and so are the extents of those at the top. -/
theorem readSource_extents {source : String} {declarations : List Declaration}
    (parsed : readSource source = .ok declarations) :
    (∀ d ∈ declarations, ∀ n ∈ d.withNested, n.WellNested source.toList) ∧
      Span.Ordered 0 (byteLength source.toList) (declarations.map (·.extent)) := by
  obtain ⟨ts, ms, tokens, spelled, rfl⟩ := spelled_of_readSource parsed
  obtain ⟨o, members⟩ := spelled.standing ((placed_of_tokenize tokens).standing .start)
  have nested := members.nested
  rw [Declaration.nestedIn_types] at nested
  have wellNested : ∀ d ∈ ms.filterMap Member.type?, ∀ n ∈ d.withNested,
      n.WellNested source.toList :=
    fun d mem n inner => nested n (List.mem_flatMap.mpr ⟨d, mem, inner⟩)
  have ordered := members.parts.sublist (Member.extents_sublist ms)
  refine ⟨wellNested, fun s mem => ?_, ordered.order⟩
  obtain ⟨start, proper, -⟩ := ordered.within s mem
  refine ⟨start, proper, ?_⟩
  obtain ⟨d, here, rfl⟩ := List.mem_map.mp mem
  -- the closing brace is a character of the source
  obtain ⟨⟨front, back, made, at_⟩, stop⟩ := (wellNested d here d d.mem_withNested_self).closes
  change d.stop ≤ _
  rw [stop, ← at_, made, byteLength_append]
  exact Nat.add_le_add_left (Nat.le_add_right _ _) _

/-- An annotated class behind the properties of one that is annotated itself. -/
theorem readSource_extents_annotated :
    ∃ declarations,
      readSource "@objc @Codable class A \x7b let x, y: Int; @Codable class B \x7b\x7d \x7d"
        = .ok declarations ∧
      (∀ d ∈ declarations, ∀ n ∈ d.withNested, n.WellNested
        "@objc @Codable class A \x7b let x, y: Int; @Codable class B \x7b\x7d \x7d".toList) ∧
      Span.Ordered 0
        (byteLength
          "@objc @Codable class A \x7b let x, y: Int; @Codable class B \x7b\x7d \x7d".toList)
        (declarations.map (·.extent)) := by
  have isOk :
      (readSource
        "@objc @Codable class A \x7b let x, y: Int; @Codable class B \x7b\x7d \x7d").isOk
        = true := by
    decide +kernel
  cases parsed : readSource
      "@objc @Codable class A \x7b let x, y: Int; @Codable class B \x7b\x7d \x7d" with
  | error fault => rw [parsed] at isOk; cases isOk
  | ok declarations => exact ⟨declarations, rfl, readSource_extents parsed⟩

end CodableSynthesis
