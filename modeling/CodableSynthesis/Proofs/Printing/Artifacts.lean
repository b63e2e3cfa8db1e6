import CodableSynthesis.Proofs.Printing.Lines
import CodableSynthesis.Proofs.Printing.Types

/-!
The tokens of generated declarations. Every line of one is made of blanks, names and marks, provided
that the names and types it was generated from are.

* `Artifact.IsPrinted`: the lines of a declaration are made so.
* `Artifact.IsPrinted.lexes`: a generated declaration has its tokens under any margin.
* `FieldModel.Sound`: the names and types of a model are made so.
* `FieldModel.Sound.printed`: then the declarations generated from it are.

Of the generated texts most is fixed; the names of fields, their types, the name of the class and a
modifier are put in. `leads` tests a fixed text that stands in front of such a part, and the
separators of `Types` are used between parts.

That a declaration has the same tokens under any margin is what an expansion needs: it indents what
it puts into a class by the indentation of that class, and by one level more.
-/

namespace CodableSynthesis

open Lexeme (EndsPlain)

namespace Prints

variable {text : List Char} {ws : List Word}

theorem blanks (h : Prints text ws) (n : Nat) : Prints (List.replicate n ' ' ++ text) ws := by
  induction n with
  | zero => exact h
  | succ n ih => exact .blank ih

/-- Blanks end a printed text, or a token does. -/
theorem noReturn (h : Prints text ws) : text.getLast? ≠ some '\r' := by
  induction h with
  | nil => nofun
  | @blank text _ _ ih =>
    cases text with
    | nil => nofun
    | cons c text => rwa [List.getLast?_cons_cons]
  | @mark _ _ text _ is _ ih =>
    cases text with
    | nil =>
      rintro ⟨⟩
      cases is
    | cons c text => rwa [List.getLast?_cons_cons]
  | @arrow text _ _ ih =>
    cases text with
    | nil => nofun
    | cons c text => rwa [List.getLast?_cons_cons, List.getLast?_cons_cons]
  | @name name text _ spelled _ _ ih =>
    cases text with
    | nil =>
      rw [List.append_nil]
      intro last
      obtain ⟨c, ends, plain⟩ := spelled.endsPlain
      rw [Option.mem_def.mp ends] at last
      cases last
      exact absurd plain (by decide)
    | cons c text =>
      rw [List.getLast?_append]
      cases more : (c :: text).getLast? with
      | none => simp at more
      | some d => rw [more] at ih; exact ih

theorem plainLine (h : Prints text ws) (nonempty : text ≠ []) : PlainLine text :=
  ⟨nonempty, h.lineFeed_not_mem, h.noReturn⟩

end Prints

/-- Whatever lines are printed, their tokens are found one line after another. -/
theorem forall₂_prints {ls : List (List Char)} (h : ∀ l ∈ ls, ∃ ws, Prints l ws) :
    ∃ wss, List.Forall₂ Prints ls wss := by
  induction ls with
  | nil => exact ⟨[], .nil⟩
  | cons l ls ih =>
    obtain ⟨ws, here⟩ := h l (.head _)
    obtain ⟨wss, others⟩ := ih fun m mem => h m (.tail _ mem)
    exact ⟨ws :: wss, .cons here others⟩

namespace Artifact

/-- The lines of a generated declaration are made of blanks, names and marks. -/
structure IsPrinted (a : Artifact) : Prop where
  /-- The line in front of the opening brace. -/
  header : Printed a.header
  /-- The lines between the braces. -/
  body : ∀ l ∈ a.body, Printed l ∧ l.toList ≠ []

theorem IsPrinted.lines {a : Artifact} (h : a.IsPrinted) (indentWidth : Nat) :
    ∀ l ∈ a.lines indentWidth, (∃ ws, Prints l ws) ∧ l ≠ [] := by
  intro l mem
  rw [Artifact.lines, List.cons_append] at mem
  rcases List.mem_cons.mp mem with rfl | mem
  · refine ⟨h.header.before (.fixed (by decide)), ?_⟩
    simp
  · rcases List.mem_append.mp mem with mem | mem
    · obtain ⟨content, within, rfl⟩ := List.mem_map.mp mem
      obtain ⟨⟨ws, printed⟩, nonempty⟩ := h.body content within
      exact ⟨⟨ws, printed.blanks _⟩, by simp [nonempty]⟩
    · obtain rfl := List.mem_singleton.mp mem
      exact ⟨⟨_, .mark rfl .nil⟩, List.cons_ne_nil _ _⟩

theorem closed_brace : Closed ['\x7d'] := by
  rintro _ ⟨⟩
  decide

/-- A generated declaration has its tokens wherever it stands and however far it is indented. -/
theorem IsPrinted.lexes {a : Artifact} (h : a.IsPrinted) (w : Writer) :
    ∃ ws, ∀ {rest : List Char} {more : List Word}, Lexes rest more →
      Lexes ((w.render a).toList ++ rest) (ws ++ more) ∧
        ∀ {margin : List Char}, (∀ c ∈ margin, Text.isWhiteSpace c = true) →
          Lexes (Text.indentLines margin (w.render a).toList ++ rest) (ws ++ more) := by
  have lines := h.lines w.indentWidth
  obtain ⟨wss, printed⟩ := forall₂_prints fun l mem => (lines l mem).1
  have nonempty : a.lines w.indentWidth ≠ [] := List.cons_ne_nil _ _
  have plain : ∀ l ∈ a.lines w.indentWidth, PlainLine l := fun l mem =>
    (lines l mem).1.elim fun _ printed => printed.plainLine (lines l mem).2
  have closed : ∀ l ∈ (a.lines w.indentWidth).getLast?, Closed l := by
    rw [Artifact.lines, List.getLast?_append]
    rintro _ ⟨⟩
    exact closed_brace
  refine ⟨wss.flatten, fun later => ⟨?_, fun white => ?_⟩⟩
  · rw [Writer.render_toList]
    have := @Lexes.lines _ _ [] _ _ printed nonempty (List.forall_mem_nil _)
      (.inr closed) later
    simpa using this
  · rw [Writer.render_toList, indentLines_joinLines nonempty plain]
    exact Lexes.lines printed nonempty white (.inr closed) later

end Artifact

/-! ### What is generated from a field model -/

/-- Whether a text is made of blanks, names and marks, and no name goes on behind it. -/
def leads (s : String) : Bool :=
  isPrinted false s.toList && s.toList.getLast?.all (!Lexeme.continuesName ·)

/-- A fixed text in front of a printed one. -/
theorem Printed.after {s m : String} (h : Printed s) (lead : leads m = true) :
    Printed (m ++ s) := by
  obtain ⟨printed, last⟩ := Bool.and_eq_true_iff.mp lead
  refine (Printed.fixed printed).append h (.inr fun c ends => ?_)
  rw [Option.mem_def.mp ends] at last
  simpa using last

/-- A field whose name and type are made of blanks, names and marks. -/
structure Field.Sound (f : Field) : Prop where
  identifier : Printed f.identifier
  declaredType : f.declaredType.Printed

/-- A model whose names and types are made of blanks, names and marks. -/
structure FieldModel.Sound (m : FieldModel) : Prop where
  /-- The dotted name of the class is printed. -/
  typeName : Printed m.typeName
  /-- The modifier of what is generated is. -/
  modifier : Printed m.modifier
  /-- The names and types of the fields are. -/
  fields : ∀ f ∈ m.fields, f.Sound

theorem Field.Sound.decodedType {f : Field} (h : f.Sound) : Printed f.decodedType.render := by
  rw [Field.decodedType]
  cases wrapped : f.declaredType.wrapped? with
  | none => exact h.declaredType.whole
  | some t => exact h.declaredType.wrapped t wrapped

theorem nonempty_before (s : String) {m : String} (sep : Separator m) : (s ++ m).toList ≠ [] := by
  rw [String.toList_append]
  exact List.append_ne_nil_of_right_ne_nil _ sep.some

/-- The line that decodes a field. -/
theorem Field.Sound.decodeLine {f : Field} (h : f.Sound) :
    Printed f.decodeStatement.line ∧ f.decodeStatement.line.toList ≠ [] := by
  refine ⟨?_, nonempty_before _ .closeParenthesis⟩
  have method : Separator (" = try container." ++ f.decodeStatement.strategy.method ++ "(") := by
    cases f.decodeStatement.strategy <;> exact .fixed (by decide)
  have key : Separator ".self, forKey: ." := .fixed (by decide)
  have assigned := (h.identifier.join method h.decodedType).join key h.identifier
  have line := assigned.before .closeParenthesis
  simpa only [DecodeStatement.line, Field.decodeStatement, String.append_assoc] using line

theorem Field.Sound.encodeLine {f : Field} (h : f.Sound) :
    Printed f.encodeStatement.line ∧ f.encodeStatement.line.toList ≠ [] := by
  refine ⟨?_, nonempty_before _ .closeParenthesis⟩
  have key : Separator ", forKey: ." := .fixed (by decide)
  have value : Printed ("try container.encode(" ++ f.identifier) :=
    h.identifier.after (by decide)
  exact (value.join key h.identifier).before .closeParenthesis

theorem printed_modified {modifier declaration : String} (h : Printed modifier)
    (fixed : Printed declaration) : Printed (modified modifier declaration) := by
  rw [modified]
  split
  · exact fixed
  · exact h.join .blank fixed

/-- All declarations generated from a sound model: the enumeration, the initializer, the method and
the extension. -/
theorem FieldModel.Sound.printed {m : FieldModel} (h : m.Sound) :
    ∀ a ∈ m.artifacts, a.IsPrinted := by
  intro a mem
  simp only [FieldModel.artifacts, FieldModel.members, MemberArtifacts.toList,
    MemberArtifacts.ofFields, List.cons_append, List.nil_append, List.mem_cons,
    List.not_mem_nil, or_false] at mem
  rcases mem with rfl | rfl | rfl | rfl
  · have header : Printed ("enum " ++ keyEnumName ++ ": String, CodingKey") :=
      .fixed (by decide)
    refine ⟨header, fun l mem => ?_⟩
    obtain ⟨_, within, rfl⟩ := List.mem_map.mp mem
    obtain ⟨f, field, rfl⟩ := List.mem_map.mp within
    exact ⟨(h.fields f field).identifier.after (by decide), by simp⟩
  · refine ⟨printed_modified h.modifier (.fixed (by decide)), fun l mem => ?_⟩
    rcases List.mem_cons.mp mem with rfl | mem
    · exact ⟨.fixed (by decide), by simp⟩
    · obtain ⟨_, within, rfl⟩ := List.mem_map.mp mem
      obtain ⟨f, field, rfl⟩ := List.mem_map.mp within
      exact (h.fields f field).decodeLine
  · refine ⟨printed_modified h.modifier (.fixed (by decide)), fun l mem => ?_⟩
    rcases List.mem_cons.mp mem with rfl | mem
    · exact ⟨.fixed (by decide), by simp⟩
    · obtain ⟨_, within, rfl⟩ := List.mem_map.mp mem
      obtain ⟨f, field, rfl⟩ := List.mem_map.mp within
      exact (h.fields f field).encodeLine
  · have name : Printed ("extension " ++ m.typeName) := h.typeName.after (by decide)
    have capability : Printed codable := .fixed (by decide)
    exact ⟨name.join .colon capability, nofun⟩

end CodableSynthesis
