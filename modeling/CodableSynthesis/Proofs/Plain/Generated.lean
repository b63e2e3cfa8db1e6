import CodableSynthesis.Proofs.Edits.Announced
import CodableSynthesis.Proofs.Plain.Reading

/-!
What is generated for a plain class. Its fields are its stored properties, so the generated
declarations are known line by line.

* `PlainClass.fields`: the fields, told from the members as they are written.
* `PlainClass.Becomes.extract`: the field model of the class.
* `PlainClass.memberText_members`: the text that is put into the class, line by line.
* `PlainClass.render_conformance`: the text of the extension.

The lines of `PlainClass.generatedLines` are compared with those that the writer gives. `keyLines`,
`decodeLines` and `encodeLines` do so for the three bodies. The decoding line is the one with
something to show: the program takes a question mark off the declared type, where the specification
never put one on.
-/

namespace CodableSynthesis

/-! ### The field model -/

namespace PlainMember

/-- The field of a stored property. -/
def field? : PlainMember → Option Field
  | stored _ name type optional => some ⟨name, if optional then .optional type else type⟩
  | constant _ | computed _ | inferred _ => none

theorem contribution_field (m : PlainMember) : m.contribution.field? = m.field? := by
  cases m <;> rfl

/-- What is left out of a plain class was no part of a declaration of several properties. -/
theorem contribution_skipped {m : PlainMember} {s : SkippedMember}
    (h : m.contribution.skipped? = some s) : s.reason.isLostBinding = false := by
  cases m <;> cases h <;> rfl

theorem contribution_constant (m : PlainMember) : m.contribution.constant? = none := by
  cases m <;> rfl

end PlainMember

namespace PlainClass

variable {c : PlainClass} {d : Declaration} {ms : List Member}

/-- The fields of a plain class. -/
def fields (c : PlainClass) : List Field :=
  c.members.filterMap (·.field?)

namespace Members

theorem contributions (h : c.Members ms) :
    List.Forall₂ (Contribution.Same fun _ _ => True) (c.members.map (·.contribution))
      (ms.flatMap Contribution.ofMember) := by
  obtain ⟨vs, rfl, contributed⟩ := h
  rw [List.flatMap_map]
  exact contributed

theorem fields (h : c.Members ms) :
    (ms.flatMap Contribution.ofMember).filterMap Contribution.field? = c.fields := by
  have same : (c.members.map (·.contribution)).filterMap Contribution.field? =
      (ms.flatMap Contribution.ofMember).filterMap Contribution.field? := by
    rw [← List.forall₂_eq_eq_eq]
    refine List.rel_filterMap (fun _ _ same => ?_) h.contributions
    cases same with
    | field => exact .some rfl
    | skipped | constant => exact .none
  rw [← same, PlainClass.fields, List.filterMap_map]
  exact List.filterMap_congr fun m _ => m.contribution_field

/-- No binding of a plain class is lost, as each declares one property. -/
theorem noLoss (h : c.Members ms) :
    ∀ s ∈ (ms.flatMap Contribution.ofMember).filterMap Contribution.skipped?,
      s.reason.isLostBinding = false := by
  have skipped : List.Forall₂ (SkippedMember.Same fun _ _ => True)
      ((c.members.map (·.contribution)).filterMap Contribution.skipped?)
      ((ms.flatMap Contribution.ofMember).filterMap Contribution.skipped?) := by
    refine List.rel_filterMap (fun _ _ same => ?_) h.contributions
    cases same with
    | skipped same => exact .some same
    | field | constant => exact .none
  have same : ((c.members.map (·.contribution)).filterMap Contribution.skipped?).map
        SkippedMember.reason =
      ((ms.flatMap Contribution.ofMember).filterMap Contribution.skipped?).map
        SkippedMember.reason := by
    rw [← List.forall₂_eq_eq_eq]
    exact List.rel_map (fun _ _ same => SkippedMember.Same.reason same) skipped
  intro s mem
  have reason := List.mem_map_of_mem (f := SkippedMember.reason) mem
  rw [← same] at reason
  obtain ⟨s', mem', same⟩ := List.mem_map.mp reason
  obtain ⟨_, made, skipped⟩ := List.mem_filterMap.mp mem'
  obtain ⟨m, -, rfl⟩ := List.mem_map.mp made
  rw [← same]
  exact PlainMember.contribution_skipped skipped

/-- No field of a plain class has a value already. -/
theorem noConstant (h : c.Members ms) :
    (ms.flatMap Contribution.ofMember).filterMap Contribution.constant? = [] := by
  have none_ : (c.members.map (·.contribution)).filterMap Contribution.constant? = [] := by
    rw [List.filterMap_map, List.filterMap_eq_nil_iff]
    exact fun m _ => m.contribution_constant
  have same : List.Forall₂ (InitializedConstant.Same fun _ _ => True)
      ((c.members.map (·.contribution)).filterMap Contribution.constant?)
      ((ms.flatMap Contribution.ofMember).filterMap Contribution.constant?) := by
    refine List.rel_filterMap (fun _ _ same => ?_) h.contributions
    cases same with
    | constant same => exact .some same
    | field | skipped => exact .none
  rw [none_] at same
  exact List.forall₂_nil_left_iff.mp same

theorem annotatedIn (h : c.Members ms) (name : String) : Declaration.annotatedIn name ms = [] := by
  obtain ⟨vs, rfl, -⟩ := h
  induction vs with
  | nil => rfl
  | cons v vs ih => exact ih

theorem editsIn (h : c.Members ms) (source : List Char) (w : Writer) (name : String) :
    Declaration.editsIn source w name ms = [] := by
  obtain ⟨vs, rfl, -⟩ := h
  induction vs with
  | nil => rfl
  | cons v vs ih => exact ih

end Members

/-- The field model of a plain class, and nothing to warn about. -/
theorem Becomes.extract (h : c.Becomes d) : ∃ model, FieldModel.extract c.name d = .ok model ∧
    model.typeName = c.name ∧ model.modifier = c.modifier.getD "" ∧ model.fields = c.fields ∧
    model.diagnostics = [] := by
  refine ⟨_, by rw [FieldModel.extract, if_pos h.kind], rfl, ?_, h.members.fields, ?_⟩
  · dsimp only
    rw [Declaration.firstModifier?, h.modifiers]
    cases c.modifier <;> rfl
  · rw [FieldModel.diagnostics]
    dsimp only
    rw [h.members.noConstant,
      List.filter_eq_nil_iff.mpr fun s mem => by simp [h.members.noLoss s mem]]
    rfl

/-! ### The generated lines -/

theorem lineFeed_joinLines {ls : List (List Char)} (nonempty : ls ≠ []) :
    '\n' :: joinLines ls = ls.flatMap ('\n' :: ·) := by
  obtain ⟨l, ls, rfl⟩ := List.exists_cons_of_ne_nil nonempty
  rw [joinLines_cons]
  rfl

theorem atDepth_one (indentWidth : Nat) (line : String) :
    (atDepth indentWidth 1 line).toList = List.replicate indentWidth ' ' ++ line.toList := by
  simp [atDepth, Writer.blanks]

theorem atDepth_two (indentWidth : Nat) (line : String) :
    (atDepth indentWidth 2 line).toList =
      List.replicate indentWidth ' ' ++ (List.replicate indentWidth ' ' ++ line.toList) := by
  simp [atDepth, Writer.blanks, Nat.two_mul, ← List.replicate_append_replicate]

/-- A generated declaration in the body of a class, line by line. -/
theorem indentLines_render {a : Artifact} (h : a.IsPrinted) (indentWidth : Nat) :
    '\n' :: Text.indentLines (List.replicate indentWidth ' ')
        ((Writer.new indentWidth).render a).toList =
      (declarationLines indentWidth a.header a.body).flatMap fun l => '\n' :: l.toList := by
  have nonempty : a.lines indentWidth ≠ [] := List.cons_ne_nil _ _
  have plain : ∀ l ∈ a.lines indentWidth, PlainLine l := fun l mem => by
    obtain ⟨⟨_, printed⟩, some_⟩ := h.lines indentWidth l mem
    exact printed.plainLine some_
  rw [Writer.render_toList]
  refine (congrArg _ (indentLines_joinLines nonempty plain _)).trans ?_
  rw [lineFeed_joinLines (by simpa using nonempty), List.flatMap_map]
  simp [Artifact.lines, declarationLines, atDepth_one, atDepth_two, List.flatMap_map]

/-- The modifier of a model is put in front as that of the class is. -/
theorem modified_getD (modifier : ∀ m ∈ c.modifier, m ∈ Modifier.keywords) (declaration : String) :
    CodableSynthesis.modified (c.modifier.getD "") declaration = c.modified declaration := by
  unfold CodableSynthesis.modified modified
  cases known : c.modifier with
  | none => rfl
  | some m =>
    have some_ : m ≠ "" := by
      rintro rfl
      exact absurd (modifier "" known) (by decide)
    simp [some_]

theorem keyLines : (c.fields.map (·.identifier)).map ("case " ++ ·) =
    c.members.filterMap (·.keyLine?) := by
  rw [fields, List.map_filterMap, List.map_filterMap]
  refine List.filterMap_congr fun m _ => ?_
  cases m <;> rfl

theorem decodeLines (h : ∀ m ∈ c.members, m.Sound) :
    (c.fields.map (·.decodeStatement)).map (·.line) = c.members.filterMap (·.decodeLine?) := by
  rw [fields, List.map_filterMap, List.map_filterMap]
  refine List.filterMap_congr fun m mem => ?_
  cases m with
  | constant | computed | inferred => rfl
  | stored specifier name type optional =>
    cases optional with
    | true => rfl
    | false =>
      have split := (h _ mem).split _ _ _ rfl
      simp [PlainMember.field?, PlainMember.decodeLine?, Field.decodeStatement, Field.isOptional,
        Field.decodedType, DecodeStatement.line, DecodeStrategy.method, split]

theorem encodeLines : (c.fields.map (·.encodeStatement)).map (·.line) =
    c.members.filterMap (·.encodeLine?) := by
  rw [fields, List.map_filterMap, List.map_filterMap]
  refine List.filterMap_congr fun m _ => ?_
  cases m <;> rfl

/-- The text that is put into a plain class, line by line. -/
theorem memberText_members {model : FieldModel} (h : c.Sound) (sound : model.Sound)
    (modifier : model.modifier = c.modifier.getD "") (fields : model.fields = c.fields)
    (indentWidth : Nat) (bodyIsEmpty : Bool) :
    Edit.memberText [] indentWidth bodyIsEmpty
        (model.members.toList.map (Writer.new indentWidth).render) =
      (if bodyIsEmpty then [] else ['\n']) ++
        (c.generatedLines indentWidth).flatMap (fun l => '\n' :: l.toList) ++ ['\n'] := by
  have lines (a : Artifact) (mem : a ∈ model.members.toList) := indentLines_render
    (sound.printed a (List.mem_append_left _ mem)) indentWidth
  have keys := lines (.keyEnum model.members.keyEnum) (.head _)
  have decode := lines (.decodeInit model.members.decodeInit) (.tail _ (.head _))
  have encode := lines (.encodeMethod model.members.encodeMethod) (.tail _ (.tail _ (.head _)))
  have keyHeader : (Artifact.keyEnum model.members.keyEnum).header =
      "enum CodingKeys: String, CodingKey" := rfl
  have keyBody : (Artifact.keyEnum model.members.keyEnum).body =
      c.members.filterMap (·.keyLine?) := by
    rw [← keyLines, ← fields]
    rfl
  have decodeBody : (Artifact.decodeInit model.members.decodeInit).body =
      "let container = try decoder.container(keyedBy: CodingKeys.self)" ::
        c.members.filterMap (·.decodeLine?) := by
    rw [← decodeLines h.members, ← fields]
    rfl
  have encodeBody : (Artifact.encodeMethod model.members.encodeMethod).body =
      "var container = encoder.container(keyedBy: CodingKeys.self)" ::
        c.members.filterMap (·.encodeLine?) := by
    rw [← encodeLines, ← fields]
    rfl
  have decodeHeader : (Artifact.decodeInit model.members.decodeInit).header =
      c.modified "required init(from decoder: Decoder) throws" := by
    rw [← modified_getD h.modifier, ← modifier]
    rfl
  have encodeHeader : (Artifact.encodeMethod model.members.encodeMethod).header =
      c.modified "func encode(to encoder: Encoder) throws" := by
    rw [← modified_getD h.modifier, ← modifier]
    rfl
  rw [keyHeader, keyBody] at keys
  rw [decodeBody, decodeHeader] at decode
  rw [encodeBody, encodeHeader] at encode
  rw [generatedLines, List.flatMap_append, List.flatMap_append, List.flatMap_cons,
    List.flatMap_cons, ← keys, ← decode, ← encode]
  cases bodyIsEmpty <;> simp [Edit.memberText, MemberArtifacts.toList, List.intercalate]

/-- The text of an extension. -/
theorem render_conformance (model : FieldModel) (w : Writer) :
    (w.render (.conformance model.conformance)).toList =
      ("extension " ++ model.typeName ++ ": Codable \x7b").toList ++ "\n\x7d".toList := by
  rw [Writer.render_toList, Artifact.lines, List.cons_append, joinLines_cons]
  simp [Artifact.header, Artifact.body, FieldModel.conformance, Conformance.ofType, codable]

end PlainClass

end CodableSynthesis
