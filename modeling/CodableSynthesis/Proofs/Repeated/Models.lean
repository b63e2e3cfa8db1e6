import CodableSynthesis.Proofs.Respelling.Occurrences
import CodableSynthesis.Proofs.Repeated.Generated

/-!
What is generated for classes that were read is read again: their fields have the names and the
types of tokens, and a modifier of theirs is one.

* `Field.Respelled`, `FieldModel.Respelled`: names that are one token, and types that their
  canonical texts spell.
* `FieldModel.respelled`: the model of a class that was read.
* `FieldModel.Respelled.typeset`: the members that are generated from it.

`Printing` asks less: there a name or a type only has to be made of tokens. To be read again each
name has to be one token, and each type has to be read as a type, which the types of a source are:
their canonical texts spell them.
-/

namespace CodableSynthesis

open Lexeme (Spelling)

/-! ### What is generated from a field model -/

/-- A field whose name is one, and whose types are. -/
structure Field.Respelled (f : Field) : Prop where
  /-- Its name is one token. -/
  identifier : Spelling .ident f.identifier.toList
  /-- The type that is decoded is read from its text. -/
  decodedType : f.decodedType.Buildable

/-- A model whose modifier and fields are those of a declaration that was read. -/
structure FieldModel.Respelled (m : FieldModel) : Prop where
  /-- The modifier is one, if there is any. -/
  modifier : m.modifier = "" ∨ m.modifier ∈ headModifiers
  /-- All fields are such. -/
  fields : ∀ f ∈ m.fields, f.Respelled

/-- The members generated from a model are read as members. -/
theorem FieldModel.Respelled.typeset {m : FieldModel} (h : m.Respelled) (sound : m.Sound)
    (w : Writer) :
    ∀ a ∈ m.members.toList, ∃ us, Typeset (w.render a) us ∧ Formed us := by
  have printed : ∀ a ∈ m.members.toList, a.IsPrinted := fun a mem =>
    sound.printed a (List.mem_append_left _ mem)
  intro a mem
  have printed := printed a mem
  simp only [FieldModel.members, MemberArtifacts.toList, MemberArtifacts.ofFields, List.mem_cons,
    List.not_mem_nil, or_false] at mem
  rcases mem with rfl | rfl | rfl
  · refine KeyEnum.typeset printed fun key mem => ?_
    obtain ⟨f, field, rfl⟩ := List.mem_map.mp mem
    exact (h.fields f field).identifier
  · obtain ⟨hs, header⟩ := Laying.initializer h.modifier
    refine Laying.Heads.typeset header printed
      (List.forall_mem_cons.mpr ⟨BodyLine.decoder, fun line mem => ?_⟩)
    obtain ⟨_, within, rfl⟩ := List.mem_map.mp mem
    obtain ⟨f, field, rfl⟩ := List.mem_map.mp within
    have field := h.fields f field
    exact BodyLine.decode field.identifier field.identifier field.decodedType
  · obtain ⟨hs, header⟩ := Laying.encoder h.modifier
    refine Laying.Heads.typeset header printed
      (List.forall_mem_cons.mpr ⟨BodyLine.encoder, fun line mem => ?_⟩)
    obtain ⟨_, within, rfl⟩ := List.mem_map.mp mem
    obtain ⟨f, field, rfl⟩ := List.mem_map.mp within
    have field := h.fields f field
    exact BodyLine.encode field.identifier field.identifier

/-! ### What is read -/

/-- The name that a pattern is was a token. -/
theorem Pattern.Spells.spelling {p : Pattern} {ts rest : List Token}
    (h : Spells (.pattern p) ts rest) (spelt : Spelt ts) {n : String} (named : p = .identifier n) :
    Spelling .ident n.toList := by
  cases h with
  | name ident =>
    rw [ofName] at named
    split at named
    · cases named
    · cases named
      exact spelt.ident ident
  | tuple => cases named

/-- Modifiers that were read are among the known ones. -/
theorem Modifier.AllSpelled.known {ts rest : List Token} {words : List String}
    (h : AllSpelled ts words rest) : ∀ m ∈ words, m ∈ headModifiers := by
  induction h with
  | nil => nofun
  | @cons t n _ _ _ _ starts _ _ ih =>
    refine List.forall_mem_cons.mpr ⟨?_, ih⟩
    rw [isModifier] at starts
    split at starts
    · next isClass =>
      simp only [Token.isWord, Bool.and_eq_true, beq_iff_eq] at isClass
      exact isClass.2 ▸ .head _
    · simp only [Token.isWordIn, Bool.and_eq_true, List.contains_iff_mem] at starts
      exact .tail _ starts.1.2

/-- The model of a class that was read. Its fields come from bindings, and the modifier is one of
the class. -/
theorem FieldModel.respelled {source : String} {ds : List Declaration} {d : Declaration}
    {name : String} {model : FieldModel} (read : readSource source = .ok ds)
    (nested : d ∈ ds.flatMap Declaration.withNested)
    (extracted : FieldModel.extract name d = .ok model) : model.Respelled := by
  obtain ⟨ts, ms, tokens, file, rfl⟩ := spelled_of_readSource read
  have written := file.writtenIn (List.suffix_refl _) d nested
  obtain ⟨_, _, _, _, opening⟩ := written.opening
  obtain ⟨_, _, _, _, modifiers, -⟩ := opening.parts
  rw [FieldModel.extract] at extracted
  split at extracted
  · cases extracted
    refine ⟨?_, fun f mem => ?_⟩
    · cases first : d.firstModifier? with
      | none => exact .inl rfl
      | some m => exact .inr (modifiers.known m (List.mem_of_mem_head? first))
    · obtain ⟨c, contributed, known⟩ := List.mem_filterMap.mp mem
      obtain ⟨m, member, contributes⟩ := List.mem_flatMap.mp contributed
      cases c with
      | field g =>
        cases known
        obtain ⟨v, rfl, pattern, type⟩ := Contribution.variable_of_field contributes
        have binding : v.first ∈ v.bindings := .head _
        constructor
        · obtain ⟨us, rest, suffix, spelled⟩ := written.members _ member _ binding
          have spelt : Spelt us := fun u mem =>
            (placed_of_tokenize tokens).spelled u (suffix.subset mem)
          generalize v.first = b at spelled pattern
          obtain ⟨spelled, -, -, -⟩ := spelled
          exact spelled.spelling spelt pattern
        · have whole : f.declaredType ∈ d.types := List.mem_append_right _ (List.mem_flatMap.mpr
            ⟨_, member, List.mem_filterMap.mpr ⟨_, binding, type⟩⟩)
          refine TypeExpr.OccursIn.buildable read ⟨d, nested, _, whole, ?_⟩
          rw [Field.decodedType]
          cases f.declaredType with
          | optional t => exact .optional .self
          | _ => exact .self
      | skipped | constant => cases known
  · cases extracted

end CodableSynthesis
