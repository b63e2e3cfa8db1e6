import CodableSynthesis.Proofs.Layout.Extents
import Mathlib.Data.List.Flatten
import Mathlib.Data.Prod.Lex

/-!
The order of what a report points at. A report names a place by line and column; places are compared
line first.

* `Placed.places_ordered`: the tokens of a text stand in the order of their places.
* `readSource_bound_ordered`: so do the bindings of all declarations.
* `readSource_bindings_ordered`, `readSource_bindings_distinct`: so do those of one declaration, and
  no two bindings of the source have the same place.
* `readSource_keywords`, `readSource_keywords_distinct`: the keywords of type declarations are
  tokens in order, and no two of them have the same place.

Bindings are collected in two orders. A declaration has its own bindings, and those of the types
nested in it are apart (`Declaration.bindings`); in the source the two are interleaved
(`Declaration.bound`). What is true of the latter is carried over: each list of the former kind is a
part of it (`sublist_bound`), and all of them together are a rearrangement (`perm_bound`).

`Member.TakenInOrder` says once what it takes for a choice of spans to be found among the tokens in
order, and serves bindings and keywords alike.
-/

namespace CodableSynthesis

open Text (Position Span)

namespace Text

/-- The line and the column of a stretch, to be compared line first. -/
def Span.place (s : Span) : Nat ×ₗ Nat :=
  toLex (s.line, s.column)

namespace Position

/-- The line and the column of a position, to be compared line first. -/
def place (p : Position) : Nat ×ₗ Nat :=
  toLex (p.line, p.column)

theorem place_lt_next (p : Position) (c : Char) : p.place < (p.next c).place := by
  rw [place, place, Prod.Lex.toLex_lt_toLex, next]
  split
  · exact .inl (Nat.lt_add_one _)
  · exact .inr ⟨rfl, Nat.lt_add_one _⟩

theorem place_le_advance (p : Position) (cs : List Char) : p.place ≤ (p.advance cs).place := by
  induction cs generalizing p with
  | nil => exact le_refl _
  | cons c cs ih => exact (p.place_lt_next c).le.trans (ih (p.next c))

theorem place_lt_advance {cs : List Char} (nonempty : cs ≠ []) (p : Position) :
    p.place < (p.advance cs).place := by
  cases cs with
  | nil => exact absurd rfl nonempty
  | cons c cs => exact (p.place_lt_next c).trans_le ((p.next c).place_le_advance cs)

end Position

end Text

/-- The tokens of a text stand in the order of their places, the first not in front of the text. -/
theorem Placed.places_ordered {p : Position} {ts : List Token} {cs : List Char}
    (h : Placed p ts cs) :
    (∀ t ∈ ts, p.place ≤ t.span.place) ∧
      (ts.map (·.span)).Pairwise fun s s' => s.place < s'.place := by
  induction h with
  | done => exact ⟨nofun, .nil⟩
  | @token p gap t ts rest _ _ sound span _ ih =>
    obtain ⟨behind, ordered⟩ := ih
    obtain ⟨c, more, chars, -⟩ := sound.spelled.head
    have start : t.span.place = (p.advance gap).place := by
      rw [span]
      rfl
    have first : p.place ≤ t.span.place := start ▸ p.place_le_advance gap
    have later : ∀ u ∈ ts, t.span.place < u.span.place := by
      intro u mem
      refine lt_of_lt_of_le ?_ (behind u mem)
      rw [start, Position.advance_append]
      exact Position.place_lt_advance (by simp [chars]) _
    refine ⟨?_, List.pairwise_cons.mpr ⟨?_, ordered⟩⟩
    · rintro u (_ | ⟨_, mem⟩)
      · exact first
      · exact first.trans (later u mem).le
    · intro s mem
      obtain ⟨u, among, rfl⟩ := List.mem_map.mp mem
      exact later u among

/-! ### Bindings among tokens -/

/-- What a variable declaration among members binds. -/
def Member.bindings : Member → List Binding
  | .variable v => v.bindings
  | .type _ | .other .. => []

/-- What the variable declarations of a type bind, in order. -/
def Declaration.bindings (d : Declaration) : List Binding :=
  d.members.flatMap Member.bindings

namespace Declaration

mutual

/-- What the variable declarations of a type, and of the types in it, bind: in the order of the
source. -/
def bound : Declaration → List Binding
  | ⟨_, members, _, _⟩ => boundIn members

/-- What the variable declarations among some members, and in the types among them, bind. -/
def boundIn : List Member → List Binding
  | [] => []
  | .variable v :: ms => v.bindings ++ boundIn ms
  | .type d :: ms => bound d ++ boundIn ms
  | .other .. :: ms => boundIn ms

end

mutual

/-- What a declaration binds stands in the order in which the whole of it is bound. -/
theorem sublist_bound : ∀ d : Declaration, ∀ n ∈ d.withNested, n.bindings.Sublist d.bound
  | ⟨heading, members, opener, closer⟩, n, mem => by
    rw [withNested] at mem
    rw [bound]
    rcases List.mem_cons.mp mem with rfl | mem
    · exact (sublist_boundIn members).1
    · exact (sublist_boundIn members).2 n mem

theorem sublist_boundIn : ∀ ms : List Member,
    (ms.flatMap Member.bindings).Sublist (boundIn ms) ∧
      ∀ n ∈ nestedIn ms, n.bindings.Sublist (boundIn ms)
  | [] => ⟨List.Sublist.refl _, List.forall_mem_nil _⟩
  | .variable v :: ms => by
    obtain ⟨own, nested⟩ := sublist_boundIn ms
    rw [boundIn, nestedIn]
    exact ⟨own.append_left _,
      fun n mem => (nested n mem).trans (List.sublist_append_right _ _)⟩
  | .type d :: ms => by
    obtain ⟨own, nested⟩ := sublist_boundIn ms
    rw [boundIn, nestedIn]
    exact ⟨own.trans (List.sublist_append_right _ _), List.forall_mem_append.mpr
      ⟨fun n mem => (sublist_bound d n mem).trans (List.sublist_append_left _ _),
        fun n mem => (nested n mem).trans (List.sublist_append_right _ _)⟩⟩
  | .other .. :: ms => by
    rw [boundIn, nestedIn]
    exact sublist_boundIn ms

end

mutual

/-- All that is bound is bound by one of the declarations. -/
theorem perm_bound : ∀ d : Declaration, (d.withNested.flatMap bindings).Perm d.bound
  | ⟨heading, members, opener, closer⟩ => by
    rw [withNested, bound, List.flatMap_cons]
    exact perm_boundIn members

theorem perm_boundIn : ∀ ms : List Member,
    (ms.flatMap Member.bindings ++ (nestedIn ms).flatMap bindings).Perm (boundIn ms)
  | [] => .nil
  | .variable v :: ms => by
    rw [boundIn, nestedIn, List.flatMap_cons, List.append_assoc]
    exact (perm_boundIn ms).append_left _
  | .type d :: ms => by
    rw [boundIn, nestedIn, List.flatMap_append]
    refine List.Perm.trans ?_ ((perm_bound d).append (perm_boundIn ms))
    exact List.perm_append_comm_assoc _ _ _
  | .other .. :: ms => by
    rw [boundIn, nestedIn]
    exact perm_boundIn ms

end

/-- What the type declarations among some members bind is part of what is bound in the members. -/
theorem sublist_types (ms : List Member) :
    ((ms.filterMap Member.type?).flatMap bound).Sublist (boundIn ms) := by
  induction ms with
  | nil => exact List.Sublist.refl _
  | cons m ms ih =>
    cases m with
    | type d => exact ih.append_left _
    | «variable» v => exact ih.trans (List.sublist_append_right _ _)
    | other => exact ih

end Declaration

/-- The spans are those of tokens between `ts` and what is left of them, in their order. -/
def ReadAt (spans : List Span) (ts rest : List Token) : Prop :=
  ∃ front, ts = front ++ rest ∧ spans.Sublist (front.map (·.span))

namespace ReadAt

variable {spans spans' : List Span} {ts mid rest : List Token}

theorem of_suffix (h : rest <:+ ts) : ReadAt [] ts rest := by
  obtain ⟨front, rfl⟩ := h
  exact ⟨front, rfl, List.nil_sublist _⟩

/-- Spans of two stretches of tokens. -/
theorem append (h : ReadAt spans ts mid) (h' : ReadAt spans' mid rest) :
    ReadAt (spans ++ spans') ts rest := by
  obtain ⟨front, rfl, among⟩ := h
  obtain ⟨front', rfl, among'⟩ := h'
  refine ⟨front ++ front', by simp, ?_⟩
  rw [List.map_append]
  exact among.append among'

theorem behind (h : ReadAt spans mid rest) (suffix : mid <:+ ts) : ReadAt spans ts rest :=
  (of_suffix suffix).append h

theorem sublist (h : ReadAt spans ts rest) : spans.Sublist (ts.map (·.span)) := by
  obtain ⟨front, rfl, among⟩ := h
  rw [List.map_append]
  exact among.trans (List.sublist_append_left _ _)

end ReadAt

section Reading

variable {ts rest : List Token}

/-- A binding is found at its first token. -/
theorem Binding.Spelled.readAt {b : Binding} (h : Spelled ts b rest) : ReadAt [b.span] ts rest := by
  obtain ⟨front, last, made, -⟩ := h.consumes
  cases h with
  | @mk _ _ _ _ t =>
    refine ⟨front ++ [last], by simp [made], ?_⟩
    rw [List.singleton_sublist]
    cases front with
    | nil => cases made; exact .head _
    | cons u front => cases made; exact .head _

theorem Binding.MoreSpelled.readAt {bs : List Binding} (h : MoreSpelled ts bs rest) :
    ReadAt (bs.map (·.span)) ts rest := by
  induction h with
  | nil => exact .of_suffix (List.suffix_refl _)
  | cons _ spelled _ ih => exact (spelled.readAt.append ih).behind (List.suffix_cons _ _)

/-- The bindings of a member that is no type declaration. -/
theorem LeafSpelled.readAt {m : Member} (h : LeafSpelled ts m rest) :
    ReadAt (m.bindings.map (·.span)) ts rest := by
  have suffix := h.consumes.leaves.suffix
  cases h with
  | directive directive => cases directive <;> exact .of_suffix suffix
  | dangling | other => exact .of_suffix suffix
  | property _ front _ spelled =>
    obtain ⟨first, others⟩ := spelled
    exact (first.readAt.append others.readAt).behind
      ((List.suffix_cons _ _).trans front.leaves.suffix)

theorem OpeningSpelled.keyword_readAt {heading : Heading} {opener : Token}
    (h : OpeningSpelled ts heading opener rest) : ReadAt [heading.keyword] ts rest := by
  obtain @⟨_, _, _, _, _, _, keyword, _, _, mid, _, -, front, -, spelled, -⟩ := h
  have here : ReadAt [keyword.span] (keyword :: mid) mid :=
    ⟨[keyword], rfl, List.Sublist.refl _⟩
  have behind := (List.suffix_cons _ _).trans spelled.suffix
  exact (here.behind front.leaves.suffix).append (.of_suffix behind)

/-- A member that is no type declaration binds what it binds by itself. -/
theorem LeafSpelled.boundIn_cons {m : Member} (h : LeafSpelled ts m rest) (ms : List Member) :
    Declaration.boundIn (m :: ms) = m.bindings ++ Declaration.boundIn ms := by
  cases m with
  | type => exact nomatch h.type?_eq_none
  | «variable» | other => rfl

theorem LeafSpelled.nestedIn_cons {m : Member} (h : LeafSpelled ts m rest) (ms : List Member) :
    Declaration.nestedIn (m :: ms) = Declaration.nestedIn ms := by
  cases m with
  | type => exact nomatch h.type?_eq_none
  | «variable» | other => rfl

/-- Spans of members are taken one member behind another, those of a type declaration from its
heading and then from its members, and those of a heading or of a leaf from its own tokens. -/
structure Member.TakenInOrder (spans : List Member → List Span) : Prop where
  nil : spans [] = []
  /-- A leaf is in front of what is taken from later members. -/
  leaf {m : Member} {ts rest : List Token} : LeafSpelled ts m rest →
    ∃ own, ReadAt own ts rest ∧ ∀ ms, spans (m :: ms) = own ++ spans ms
  /-- So is a type declaration: its heading, then its members, then later ones. -/
  type {heading : Heading} {opener : Token} {ts body : List Token} :
    OpeningSpelled ts heading opener body → ∃ own, ReadAt own ts body ∧ ∀ inner closer ms,
      spans (.type ⟨heading, inner, opener.span, closer⟩ :: ms) = own ++ (spans inner ++ spans ms)

section Members

variable {spans : List Member → List Span}

/-- What is taken from members in order stands among the tokens that they are read from. -/
theorem Members.readAt {ms : List Member} {closer : Token} (h : Members ts ms closer rest)
    (taken : Member.TakenInOrder spans) : ReadAt (spans ms) ts (closer :: rest) := by
  induction h with
  | close => exact taken.nil ▸ .of_suffix (List.suffix_refl _)
  | semicolon _ _ ih => exact ih.behind (List.suffix_cons _ _)
  | leaf _ leaf _ ih =>
    obtain ⟨own, here, cons⟩ := taken.leaf leaf
    exact cons _ ▸ here.append ih
  | type _ opening _ _ inner ih =>
    obtain ⟨own, here, cons⟩ := taken.type opening
    exact cons .. ▸ here.append (inner.append (ih.behind (List.suffix_cons _ _)))

/-- What is taken from the members of a file in order stands among its tokens. -/
theorem FileSpelled.readAt {ms : List Member} (h : FileSpelled ts ms)
    (taken : Member.TakenInOrder spans) : ReadAt (spans ms) ts [] := by
  induction h with
  | nil => exact taken.nil ▸ .of_suffix (List.suffix_refl _)
  | semicolon _ _ ih => exact ih.behind (List.suffix_cons _ _)
  | leaf _ leaf _ ih =>
    obtain ⟨own, here, cons⟩ := taken.leaf leaf
    exact cons _ ▸ here.append ih
  | type _ opening body _ ih =>
    obtain ⟨own, here, cons⟩ := taken.type opening
    exact cons .. ▸ here.append ((body.readAt taken).append (ih.behind (List.suffix_cons _ _)))

end Members

theorem Declaration.boundIn_taken :
    Member.TakenInOrder fun ms => (boundIn ms).map (·.span) where
  nil := rfl
  leaf h := ⟨_, h.readAt, fun ms => by rw [h.boundIn_cons, List.map_append]⟩
  type h := ⟨[], .of_suffix h.consumes.leaves.suffix, fun inner closer ms => by
    rw [boundIn, bound, List.map_append, List.nil_append]⟩

theorem Declaration.nestedIn_taken :
    Member.TakenInOrder fun ms => (nestedIn ms).map (·.heading.keyword) where
  nil := rfl
  leaf h := ⟨[], .of_suffix h.consumes.leaves.suffix, fun ms => by
    rw [h.nestedIn_cons, List.nil_append]⟩
  type h := ⟨_, h.keyword_readAt, fun inner closer ms => by
    rw [nestedIn, withNested, List.map_append]
    rfl⟩

end Reading

variable {source : String} {declarations : List Declaration}

/-- The bindings of all declarations of a source stand in the order of their places. -/
theorem readSource_bound_ordered (parsed : readSource source = .ok declarations) :
    (declarations.flatMap Declaration.bound).Pairwise fun b b' => b.span.place < b'.span.place := by
  obtain ⟨ts, ms, tokens, spelled, rfl⟩ := spelled_of_readSource parsed
  have among := (spelled.readAt Declaration.boundIn_taken).sublist
  have ordered := (placed_of_tokenize tokens).places_ordered.2.sublist among
  exact (List.pairwise_map.mp ordered).sublist (Declaration.sublist_types ms)

/-- In every declaration of a source, however deep, the bindings stand in the order of their
places. -/
theorem readSource_bindings_ordered (parsed : readSource source = .ok declarations)
    {d : Declaration} (inTree : d ∈ declarations.flatMap Declaration.withNested) :
    d.bindings.Pairwise fun b b' => b.span.place < b'.span.place := by
  obtain ⟨top, among, inTree⟩ := List.mem_flatMap.mp inTree
  refine (readSource_bound_ordered parsed).sublist ?_
  have here := (List.singleton_sublist.mpr among).flatMap Declaration.bound
  rw [List.flatMap_singleton] at here
  exact (top.sublist_bound d inTree).trans here

/-- The keywords of the type declarations of a source are tokens of it, in order. -/
theorem readSource_keywords (parsed : readSource source = .ok declarations) :
    ∃ ts, tokenize source = .ok ts ∧
      ((declarations.flatMap Declaration.withNested).map (·.heading.keyword)).Sublist
        (ts.map (·.span)) := by
  obtain ⟨ts, ms, tokens, spelled, rfl⟩ := spelled_of_readSource parsed
  refine ⟨ts, tokens, ?_⟩
  rw [← Declaration.nestedIn_types]
  exact (spelled.readAt Declaration.nestedIn_taken).sublist

/-- No two type declarations of a source have their keywords at the same place. -/
theorem readSource_keywords_distinct (parsed : readSource source = .ok declarations) :
    ((declarations.flatMap Declaration.withNested).map (·.heading.keyword.place)).Nodup := by
  obtain ⟨ts, tokens, among⟩ := readSource_keywords parsed
  have ordered := (placed_of_tokenize tokens).places_ordered.2.sublist among
  exact List.pairwise_map.mpr ((List.pairwise_map.mp ordered).imp fun before => before.ne)

/-- No two bindings of a source have the same place. -/
theorem readSource_bindings_distinct (parsed : readSource source = .ok declarations) :
    (((declarations.flatMap Declaration.withNested).flatMap (·.bindings)).map
      (·.span.place)).Nodup := by
  have distinct : ((declarations.flatMap Declaration.bound).map (·.span.place)).Nodup :=
    (List.pairwise_map.mpr (readSource_bound_ordered parsed)).imp fun before => before.ne
  refine ((List.Perm.map _ ?_).nodup_iff).mpr distinct
  rw [List.flatMap_assoc]
  exact List.Perm.flatMap_left _ fun d _ => d.perm_bound

end CodableSynthesis
