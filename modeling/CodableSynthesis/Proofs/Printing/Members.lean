import CodableSynthesis.Proofs.Edits.Announced
import CodableSynthesis.Proofs.Printing.Artifacts

/-!
What is generated for declarations that were read lexes: their names are those of tokens, and their
types were spelled by tokens.

* `Declaration.Printed`: the names and types in a declaration are made of blanks, names and marks.
* `FileSpelled.printed`: so are those in the declarations of a file.
* `Declaration.Printed.sound`: the field model of such a declaration is sound.
* `Declaration.Printed.generatedMembers`, `Declaration.Printed.generatedExtensions`: what is
  generated from it is printed.

This joins the grammar to the printing. `Spelt` is the one fact about tokens that is used: each has
a text that its kind may have. It is passed along the tokens, through headings, members and nested
types, and comes out as a statement about the names in the tree.
-/

namespace CodableSynthesis

open Lexeme (Spelling)

/-- A binding whose name and type are made of blanks, names and marks. -/
structure Binding.Printed (b : Binding) : Prop where
  /-- The name is, if the pattern is one name. -/
  name : ∀ n, b.pattern = .identifier n → CodableSynthesis.Printed n
  /-- The type is, if there is one. -/
  type : ∀ t ∈ b.type?, t.Printed

/-- A member whose first binding is made so. -/
def Member.Printed : Member → Prop
  | .variable v => v.first.Printed
  | .type _ | .other .. => True

/-- The names and types in a declaration, those of nested types left out. Nested declarations are
asked the same on their own, by way of `Declaration.withNested`. -/
structure Declaration.Printed (d : Declaration) : Prop where
  name : CodableSynthesis.Printed d.heading.name
  modifiers : ∀ m ∈ d.heading.modifiers, CodableSynthesis.Printed m
  members : ∀ m ∈ d.members, m.Printed

/-! ### Tokens that spell declarations -/

variable {ts rest : List Token}

theorem Pattern.Spells.printed {p : Pattern} {ts rest : List Token}
    (h : Spells (.pattern p) ts rest) (spelt : Spelt ts) {n : String} (named : p = .identifier n) :
    Printed n := by
  cases h with
  | name ident =>
    rw [ofName] at named
    split at named
    · cases named
    · cases named
      exact spelt.name ident
  | tuple => cases named

theorem Binding.Spelled.printed {b : Binding} (h : Spelled ts b rest) (spelt : Spelt ts) :
    b.Printed := by
  obtain ⟨pattern, type, -, -⟩ := h
  refine ⟨fun n named => pattern.printed spelt named, ?_⟩
  cases type with
  | none => nofun
  | some _ type =>
    rintro _ ⟨⟩
    exact type.printed ((spelt.of_suffix pattern.consumes.leaves.suffix).of_suffix
      (List.suffix_cons _ _))

theorem LeafSpelled.printed {m : Member} (h : LeafSpelled ts m rest) (spelt : Spelt ts) :
    m.Printed := by
  cases h with
  | directive directive => cases directive <;> trivial
  | property _ front _ spelled =>
    obtain ⟨first, -⟩ := spelled
    exact first.printed ((spelt.of_suffix front.leaves.suffix).of_suffix (List.suffix_cons _ _))
  | dangling | other => trivial

theorem Modifier.AllSpelled.printed {words : List String} (h : AllSpelled ts words rest)
    (spelt : Spelt ts) : ∀ m ∈ words, Printed m := by
  induction h with
  | nil => nofun
  | cons starts detail _ ih =>
    refine List.forall_mem_cons.mpr ⟨spelt.name (kind_of_isModifier starts), ih ?_⟩
    exact (spelt.of_suffix (List.suffix_cons _ _)).of_suffix detail.suffix

theorem Heading.NameSpelled.printed {kind : DeclarationKind} {name : String}
    (h : NameSpelled kind ts name rest) (spelt : Spelt ts) : Printed name := by
  cases h with
  | extended type => exact (type.printed spelt).whole
  | name _ ident => exact spelt.name ident

/-- The names in a heading, and the tokens behind it. -/
theorem OpeningSpelled.printed {heading : Heading} {opener : Token}
    (h : OpeningSpelled ts heading opener rest) (spelt : Spelt ts) :
    Printed heading.name ∧ (∀ m ∈ heading.modifiers, Printed m) ∧ Spelt rest := by
  have behind := spelt.of_suffix h.consumes.leaves.suffix
  obtain ⟨-, ⟨attributes, modifiers⟩, -, spelled, -⟩ := h
  have spelt := spelt.of_suffix attributes.suffix
  have words := modifiers.printed spelt
  obtain ⟨name, -, -, -⟩ := spelled
  have spelt := (spelt.of_suffix modifiers.suffix).of_suffix (List.suffix_cons _ _)
  exact ⟨name.printed spelt, words, behind⟩

/-- The names and types in members and in the types nested in them. The induction is on the
members. -/
theorem Members.printed {ms : List Member} {closer : Token} (h : Members ts ms closer rest)
    (spelt : Spelt ts) :
    (∀ m ∈ ms, m.Printed) ∧ (∀ d ∈ Declaration.nestedIn ms, d.Printed) ∧ Spelt rest := by
  induction h with
  | close => exact ⟨nofun, nofun, spelt.of_suffix (List.suffix_cons _ _)⟩
  | semicolon _ _ ih => exact ih (spelt.of_suffix (List.suffix_cons _ _))
  | @leaf m ms _ _ _ _ _ _ leaf _ ih =>
    obtain ⟨members, nested, behind⟩ := ih (spelt.of_suffix leaf.consumes.leaves.suffix)
    refine ⟨List.forall_mem_cons.mpr ⟨leaf.printed spelt, members⟩, ?_, behind⟩
    cases m with
    | type d =>
      have := leaf.type?_eq_none
      cases this
    | «variable» | other => exact nested
  | type _ opening _ _ ihInner ih =>
    obtain ⟨name, modifiers, spelt⟩ := opening.printed spelt
    obtain ⟨inner, innerNested, spelt⟩ := ihInner spelt
    obtain ⟨members, nested, behind⟩ := ih spelt
    refine ⟨List.forall_mem_cons.mpr ⟨trivial, members⟩, ?_, behind⟩
    rw [Declaration.nestedIn, Declaration.withNested]
    exact List.forall_mem_append.mpr
      ⟨List.forall_mem_cons.mpr ⟨⟨name, modifiers, inner⟩, innerNested⟩, nested⟩

/-- The names and types in the declarations of a file are made of blanks, names and marks. -/
theorem FileSpelled.printed {ms : List Member} (h : FileSpelled ts ms) (spelt : Spelt ts) :
    ∀ d ∈ ms.filterMap Member.type?, ∀ n ∈ d.withNested, n.Printed := by
  induction h with
  | nil => nofun
  | semicolon _ _ ih => exact ih (spelt.of_suffix (List.suffix_cons _ _))
  | leaf _ leaf _ ih =>
    rw [List.filterMap_cons_none leaf.type?_eq_none]
    exact ih (spelt.of_suffix leaf.consumes.leaves.suffix)
  | type _ opening inner _ ih =>
    obtain ⟨name, modifiers, spelt⟩ := opening.printed spelt
    obtain ⟨members, nested, spelt⟩ := inner.printed spelt
    simp only [List.filterMap_cons, Member.type?]
    refine List.forall_mem_cons.mpr ⟨?_, ih spelt⟩
    rw [Declaration.withNested]
    exact List.forall_mem_cons.mpr ⟨⟨name, modifiers, members⟩, nested⟩

/-! ### What is generated -/

/-- A binding that becomes a field has the name and the type of the field. -/
theorem MemberClass.ofBinding_field {b : Binding} {f : Field} (h : ofBinding b = .field f) :
    b.pattern = .identifier f.identifier ∧ b.type? = some f.declaredType := by
  rw [ofBinding] at h
  split at h
  · split at h <;> cases h
  · cases h
  · split at h
    · next name type pattern type' =>
      cases h
      exact ⟨pattern, type'⟩
    · cases h
    · cases h

theorem MemberClass.ofVariable_field {v : Variable} {f : Field} (h : ofVariable v = .field f) :
    ofBinding v.first = .field f := by
  rw [ofVariable] at h
  split at h
  · cases h
  · split at h
    · split at h <;> cases h
    · exact h

/-- A member that adds a field is a variable declaration with its name and its type. -/
theorem Contribution.variable_of_field {m : Member} {f : Field}
    (h : Contribution.field f ∈ ofMember m) : ∃ v, m = .variable v ∧
      v.first.pattern = .identifier f.identifier ∧ v.first.type? = some f.declaredType := by
  cases m with
  | type | other => cases h
  | «variable» v =>
    have first : MemberClass.ofVariable v = .field f := by
      rw [ofMember, ofVariable] at h
      rcases List.mem_append.mp h with own | others
      · cases known : MemberClass.ofVariable v with
        | field g =>
          rw [known, ofFirst] at own
          split at own <;> simp at own
          · rw [own]
          · rw [own]
        | computed | observed | typeLevel | unmodelable =>
          rw [known] at own
          cases List.mem_singleton.mp own
        | notAProperty =>
          rw [known] at own
          cases own
      · split at others
        · cases others
        · obtain ⟨b, -, same⟩ := List.mem_map.mp others
          cases same
    exact ⟨v, rfl, MemberClass.ofBinding_field (MemberClass.ofVariable_field first)⟩

/-- A member that adds a field holds its name and its type. -/
theorem Contribution.sound {m : Member} {f : Field} (printed : m.Printed)
    (h : Contribution.field f ∈ ofMember m) : f.Sound := by
  obtain ⟨v, rfl, pattern, type⟩ := variable_of_field h
  exact ⟨printed.name _ pattern, printed.type _ type⟩

namespace Declaration

variable {d : Declaration} {name : String} {model : FieldModel}

/-- A declaration with printed names has a sound model. -/
theorem Printed.sound (h : d.Printed) (named : CodableSynthesis.Printed name)
    (extracted : FieldModel.extract name d = .ok model) : model.Sound := by
  rw [FieldModel.extract] at extracted
  split at extracted
  · cases extracted
    refine ⟨named, ?_, ?_⟩
    · cases first : d.firstModifier? with
      | none => exact printed_empty
      | some m => exact h.modifiers m (List.mem_of_mem_head? first)
    · intro f mem
      obtain ⟨c, contributed, known⟩ := List.mem_filterMap.mp mem
      obtain ⟨m, member, contributes⟩ := List.mem_flatMap.mp contributed
      cases c with
      | field g =>
        cases known
        exact Contribution.sound (h.members m member) contributes
      | skipped | constant => cases known
  · cases extracted

/-- The members generated for a declaration are declarations made of blanks, names and marks. -/
theorem Printed.generatedMembers (h : d.Printed) (named : CodableSynthesis.Printed name)
    (w : Writer) :
    ∀ text ∈ d.generatedMembers w name, ∃ a : Artifact, a.IsPrinted ∧ text = w.render a := by
  rw [Declaration.generatedMembers]
  cases extracted : FieldModel.extract name d with
  | error => exact List.forall_mem_nil _
  | ok model =>
    intro text mem
    obtain ⟨_, -, mem⟩ := List.mem_flatMap.mp mem
    obtain ⟨a, member, rfl⟩ := List.mem_map.mp mem
    exact ⟨a, (h.sound named extracted).printed a (List.mem_append_left _ member), rfl⟩

/-- So are the extensions. -/
theorem Printed.generatedExtensions (h : d.Printed) (named : CodableSynthesis.Printed name)
    (w : Writer) :
    ∀ text ∈ d.generatedExtensions w name, ∃ a : Artifact, a.IsPrinted ∧ text = w.render a := by
  rw [Declaration.generatedExtensions]
  cases extracted : FieldModel.extract name d with
  | error => exact List.forall_mem_nil _
  | ok model =>
    intro text mem
    obtain ⟨_, -, rfl⟩ := List.mem_map.mp mem
    exact ⟨_, (h.sound named extracted).printed _ (List.mem_append_right _ (.head _)), rfl⟩

/-- Annotated declarations and their dotted names are made of blanks, names and marks. -/
theorem annotated_printed (printed : ∀ n ∈ d.withNested, n.Printed) :
    ∀ entry ∈ d.annotated, CodableSynthesis.Printed entry.1 ∧ entry.2.Printed := fun entry mem =>
  ⟨annotated_fst (fun h h' => h.join .dot h') (fun n nested => (printed n nested).name) entry mem,
    printed _ (mem_withNested_of_annotated mem)⟩

end Declaration

end CodableSynthesis
