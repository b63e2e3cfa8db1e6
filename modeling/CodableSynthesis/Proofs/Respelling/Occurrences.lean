import CodableSynthesis.Proofs.Edits.Frame
import CodableSynthesis.Proofs.Respelling.Respelled

/-!
The types that occur in the declarations of a source, and where its tokens spell them.

* `TypeExpr.OccursIn`: a type is written in a declaration, or is part of one that is.
* `Declaration.WrittenIn`: the opening of a declaration and the bindings of its members stand in
  tokens.
* `writtenIn_of_readSource`: so do those of every declaration that is read, at any depth.
* `TypeExpr.OccursIn.buildable`: what occurs in a source is spelled by its canonical text.

The places where types are written are the inheritance clause of a heading and the annotations of
bindings. The name of an extension is a type as well, but it is kept as text and not as a type, so
it is not among them.
-/

namespace CodableSynthesis

/-- The types written in a member: the annotations of its bindings. -/
def Member.types : Member → List TypeExpr
  | .variable v => v.bindings.filterMap (·.type?)
  | .type _ | .other .. => []

/-- The types written in a declaration, those of nested declarations left out: the types it inherits
from and the annotations of its properties. -/
def Declaration.types (d : Declaration) : List TypeExpr :=
  d.heading.inherited ++ d.members.flatMap Member.types

/-- A type occurs in declarations: it is written in one of them or in one nested there, or stands in
a part of such a type. -/
def TypeExpr.OccursIn (s : TypeExpr) (ds : List Declaration) : Prop :=
  ∃ d ∈ ds.flatMap Declaration.withNested, ∃ t ∈ d.types, Within s t

theorem TypeExpr.occursIn_of_annotated {ds : List Declaration} {d : Declaration} {v : Variable}
    {b : Binding} {t : TypeExpr} (top : d ∈ ds) (member : .variable v ∈ d.members)
    (binding : b ∈ v.bindings) (annotated : b.type? = some t) : t.OccursIn ds := by
  refine ⟨d, List.mem_flatMap.mpr ⟨d, top, d.mem_withNested_self⟩, t, ?_, .self⟩
  exact List.mem_append_right _ (List.mem_flatMap.mpr
    ⟨_, member, List.mem_filterMap.mpr ⟨b, binding, annotated⟩⟩)

/-- Some name of a property has an annotation that passes a test. -/
def Member.annotates (p : Binding → TypeExpr → Bool) : Member → Bool
  | .variable v => v.bindings.any fun b => b.type?.any (p b)
  | .type _ | .other .. => false

/-- An annotation that passes a test is found by evaluating the test on what is read, which is how a
fixed source is shown to have one. -/
theorem annotated_of_any {source : String} {p : Binding → TypeExpr → Bool}
    (h : (readSource source).toOption.any (·.any (·.members.any (Member.annotates p))) = true) :
    ∃ ds d v b t, readSource source = .ok ds ∧ d ∈ ds ∧ .variable v ∈ d.members ∧
      b ∈ v.bindings ∧ b.type? = some t ∧ p b t = true := by
  obtain ⟨ds, read, h⟩ := ok_of_any h
  obtain ⟨d, top, h⟩ := List.any_eq_true.mp h
  obtain ⟨m, member, h⟩ := List.any_eq_true.mp h
  cases m with
  | «variable» v =>
    obtain ⟨b, binding, h⟩ := List.any_eq_true.mp h
    obtain ⟨t, isTyped, passes⟩ := (Option.any_eq_true _ _).mp h
    exact ⟨ds, d, v, b, t, read, top, member, binding, isTyped, passes⟩
  | type => cases h
  | other => cases h

/-- A binding stands in the tokens. -/
def Binding.WrittenIn (ts : List Token) (b : Binding) : Prop :=
  ∃ us rest, us <:+ ts ∧ Spelled us b rest

/-- The bindings of a member stand in the tokens. -/
def Member.WrittenIn (ts : List Token) : Member → Prop
  | .variable v => ∀ b ∈ v.bindings, b.WrittenIn ts
  | .type _ | .other .. => True

/-- The opening of a declaration and the bindings of its members stand in the tokens. -/
structure Declaration.WrittenIn (ts : List Token) (d : Declaration) : Prop where
  /-- Its heading stands in the tokens. -/
  opening : ∃ us opener body, us <:+ ts ∧ OpeningSpelled us d.heading opener body
  /-- So do the bindings of its members. -/
  members : ∀ m ∈ d.members, m.WrittenIn ts

section

variable {all ts rest : List Token}

theorem Binding.MoreSpelled.writtenIn {bs : List Binding} (h : MoreSpelled ts bs rest)
    (suffix : ts <:+ all) : ∀ b ∈ bs, b.WrittenIn all := by
  induction h with
  | nil => nofun
  | cons _ spelled _ ih =>
    have suffix := (List.suffix_cons _ _).trans suffix
    exact List.forall_mem_cons.mpr
      ⟨⟨_, _, suffix, spelled⟩, ih (spelled.consumes.leaves.suffix.trans suffix)⟩

/-- So do those of a member. -/
theorem LeafSpelled.writtenIn {m : Member} (h : LeafSpelled ts m rest) (suffix : ts <:+ all) :
    m.WrittenIn all := by
  cases h with
  | directive directive => cases directive <;> trivial
  | property _ front _ spelled =>
    obtain ⟨first, more⟩ := spelled
    have suffix := (List.suffix_cons _ _).trans (front.leaves.suffix.trans suffix)
    exact List.forall_mem_cons.mpr
      ⟨⟨_, _, suffix, first⟩, more.writtenIn (first.consumes.leaves.suffix.trans suffix)⟩
  | dangling | other => trivial

theorem Heading.TypesSpelled.writtenIn {types : List TypeExpr} (h : TypesSpelled ts types rest)
    (suffix : ts <:+ all) :
    ∀ t ∈ types, ∃ us rest, us <:+ all ∧ TypeExpr.Spells (.type t) us rest := by
  induction h with
  | last type => exact List.forall_mem_singleton.mpr ⟨_, _, suffix, type⟩
  | cons type _ _ ih =>
    exact List.forall_mem_cons.mpr ⟨⟨_, _, suffix, type⟩,
      ih ((List.suffix_cons _ _).trans (type.suffix.trans suffix))⟩

/-- The types that a declaration inherits from stand behind its name. -/
theorem OpeningSpelled.writtenIn {heading : Heading} {opener : Token}
    (h : OpeningSpelled ts heading opener rest) (suffix : ts <:+ all) :
    ∀ t ∈ heading.inherited, ∃ us rest, us <:+ all ∧ TypeExpr.Spells (.type t) us rest := by
  obtain ⟨-, front, -, ⟨name, generics, inherited, -⟩, -⟩ := h
  cases inherited with
  | none => nofun
  | some _ types =>
    have behind := (List.suffix_cons _ _).trans (front.leaves.suffix.trans suffix)
    have clause := generics.leaves.suffix.trans (name.consumes.leaves.suffix.trans behind)
    exact types.writtenIn ((List.suffix_cons _ _).trans clause)

/-- Members stand in the tokens, with those of nested types at every depth. -/
theorem Members.writtenIn {ms : List Member} {closer : Token} (h : Members ts ms closer rest)
    (suffix : ts <:+ all) :
    (∀ m ∈ ms, m.WrittenIn all) ∧ (∀ d ∈ Declaration.nestedIn ms, d.WrittenIn all) ∧
      rest <:+ all := by
  induction h with
  | close => exact ⟨nofun, nofun, (List.suffix_cons _ _).trans suffix⟩
  | semicolon _ _ ih => exact ih ((List.suffix_cons _ _).trans suffix)
  | @leaf m ms _ _ _ _ _ _ leaf _ ih =>
    obtain ⟨members, nested, behind⟩ := ih (leaf.consumes.leaves.suffix.trans suffix)
    refine ⟨List.forall_mem_cons.mpr ⟨leaf.writtenIn suffix, members⟩, ?_, behind⟩
    cases m with
    | type d =>
      have := leaf.type?_eq_none
      cases this
    | «variable» | other => exact nested
  | type _ opening _ _ ihInner ih =>
    obtain ⟨inner, innerNested, behind⟩ := ihInner (opening.consumes.leaves.suffix.trans suffix)
    obtain ⟨members, nested, behind⟩ := ih behind
    refine ⟨List.forall_mem_cons.mpr ⟨trivial, members⟩, ?_, behind⟩
    rw [Declaration.nestedIn, Declaration.withNested]
    exact List.forall_mem_append.mpr
      ⟨List.forall_mem_cons.mpr ⟨⟨⟨_, _, _, suffix, opening⟩, inner⟩, innerNested⟩, nested⟩

/-- So do the declarations of a file. -/
theorem FileSpelled.writtenIn {ms : List Member} (h : FileSpelled ts ms) (suffix : ts <:+ all) :
    ∀ d ∈ (ms.filterMap Member.type?).flatMap Declaration.withNested, d.WrittenIn all := by
  induction h with
  | nil => nofun
  | semicolon _ _ ih => exact ih ((List.suffix_cons _ _).trans suffix)
  | leaf _ leaf _ ih =>
    rw [List.filterMap_cons_none leaf.type?_eq_none]
    exact ih (leaf.consumes.leaves.suffix.trans suffix)
  | type _ opening inner _ ih =>
    obtain ⟨members, nested, behind⟩ :=
      inner.writtenIn (opening.consumes.leaves.suffix.trans suffix)
    simp only [List.filterMap_cons, Member.type?, List.flatMap_cons, Declaration.withNested]
    exact List.forall_mem_append.mpr
      ⟨List.forall_mem_cons.mpr ⟨⟨⟨_, _, _, suffix, opening⟩, members⟩, nested⟩, ih behind⟩

end

/-- What is read from a source stands in its tokens. -/
theorem writtenIn_of_readSource {source : String} {ds : List Declaration}
    (h : readSource source = .ok ds) :
    ∃ ts, tokenize source = .ok ts ∧ ∀ d ∈ ds.flatMap Declaration.withNested, d.WrittenIn ts := by
  obtain ⟨ts, ms, tokens, file, rfl⟩ := spelled_of_readSource h
  exact ⟨ts, tokens, file.writtenIn (List.suffix_refl _)⟩

/-- A type written in a declaration is spelled by some tokens of the source. -/
theorem Declaration.WrittenIn.spells {ts : List Token} {d : Declaration} (h : d.WrittenIn ts)
    {t : TypeExpr} (mem : t ∈ d.types) :
    ∃ us rest, us <:+ ts ∧ TypeExpr.Spells (.type t) us rest := by
  rcases List.mem_append.mp mem with inherited | own
  · obtain ⟨_, _, _, suffix, opening⟩ := h.opening
    exact opening.writtenIn suffix t inherited
  · obtain ⟨m, member, mem⟩ := List.mem_flatMap.mp own
    cases m with
    | type | other => cases mem
    | «variable» v =>
      obtain ⟨b, binding, annotated⟩ := List.mem_filterMap.mp mem
      obtain ⟨us, rest, suffix, spelled⟩ := h.members _ member b binding
      obtain ⟨pattern, type, -, -⟩ := spelled
      cases type with
      | none => cases annotated
      | some _ type =>
        cases annotated
        exact ⟨_, _, (List.suffix_cons _ _).trans
          (pattern.consumes.leaves.suffix.trans suffix), type⟩

/-- Every type that occurs in what is read from a source is spelled by its canonical text. -/
theorem TypeExpr.OccursIn.buildable {source : String} {ds : List Declaration} {t : TypeExpr}
    (h : readSource source = .ok ds) (occurs : t.OccursIn ds) : t.Buildable := by
  obtain ⟨ts, tokens, written⟩ := writtenIn_of_readSource h
  obtain ⟨d, mem, whole, types, within⟩ := occurs
  obtain ⟨us, rest, suffix, spells⟩ := (written d mem).spells types
  have spelt : Spelt us := fun u mem => (placed_of_tokenize tokens).spelled u (suffix.subset mem)
  obtain ⟨all, -⟩ := spells.respelled spelt
  exact all t within

end CodableSynthesis
