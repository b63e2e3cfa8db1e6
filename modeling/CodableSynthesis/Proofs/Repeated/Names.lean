import CodableSynthesis.Proofs.Plain.Members
import CodableSynthesis.Proofs.Respelling.Annotations
import Mathlib.Data.List.Induction

/-!
The dotted names of nested declarations. The extension that is generated for a class extends the
type of that name. The name is one if nothing but paths is extended; `[Int].A` is no type.

* `TypeExpr.IsPathText`: the text of a path that is written in some source.
* `TypeExpr.Buildable.segments`, `TypeExpr.opened_of_segments`: paths are taken apart and put
  together.
* `TypeExpr.IsPathText.dot`: two such texts with a dot between them are one.
* `Declaration.isPathText_annotated`: the dotted names in a file that extends nothing but paths.

A class that is nested in an extension is named by the text of the extended type, a dot, and its own
name. The reader of types goes on behind a dot only if what stands in front of it is a path. This is
why the condition on names is needed at all: the names of other declarations are single words.
-/

namespace CodableSynthesis

namespace TypeExpr

/-- The canonical text of a segment spells it, whatever may stand behind. -/
def SegmentBuildable (s : PathSegment) : Prop :=
  ∃ u us, u.kind = .ident ∧ Canonical (.segment s) (renderSegment s) (u :: us)

variable {path more : List PathSegment} {t : TypeExpr} {ts rest : List Token}

theorem opened_of_segments (nonempty : path ≠ []) (h : ∀ s ∈ path, SegmentBuildable s) :
    ∃ us, Opened (.named path) us := by
  induction path using List.reverseRecOn with
  | nil => exact absurd rfl nonempty
  | append_singleton path s ih =>
    obtain ⟨front, last⟩ := List.forall_mem_append.mp h
    obtain ⟨u, us, ident, canonical⟩ := last s (List.mem_singleton_self s)
    rcases eq_or_ne path [] with rfl | nonempty
    · have whole := canonical.named ident
      rw [← render_single] at whole
      exact ⟨_, .of_primary whole (by rintro _ ⟨⟩; exact List.cons_ne_nil _ _)⟩
    · obtain ⟨vs, opened⟩ := ih nonempty front
      exact ⟨_, opened.segment ident canonical⟩

/-- A path that is read as the phrase has segments that were read; what follows a primary type adds
some to those in front. -/
def Phrase.HasSegments : Phrase → Prop
  | .type t | .operand t | .primary t | .parenthesized t =>
    ∀ path, t = .named path → path ≠ [] ∧ ∀ s ∈ path, SegmentBuildable s
  | .marks before after => ∀ path, after = .named path → ∃ front more, before = .named front ∧
      path = front ++ more ∧ ∀ s ∈ more, SegmentBuildable s
  | _ => True

/-- What is read as a path has segments that were read. -/
theorem Spells.hasSegments {p : Phrase} (h : Spells p ts rest) (spelt : Spelt ts) :
    p.HasSegments := by
  induction h with
  | single _ _ ih => exact ih spelt
  | operand primary _ ih ihMarks =>
    rintro path rfl
    obtain ⟨front, more, rfl, rfl, behind⟩ :=
      ihMarks (spelt.of_suffix primary.suffix) path rfl
    obtain ⟨nonempty, segments⟩ := ih spelt front rfl
    exact ⟨List.append_ne_nil_of_left_ne_nil nonempty _,
      List.forall_mem_append.mpr ⟨segments, behind⟩⟩
  | unmarked => exact fun path is => ⟨path, [], is, (List.append_nil _).symm, nofun⟩
  | optional _ _ _ ih | implicitlyUnwrapped _ _ _ ih =>
    intro path is
    obtain ⟨_, _, noPath, -⟩ := ih spelt.tail path is
    cases noPath
  | @path path s _ _ _ _ _ _ _ _ segment _ _ ih =>
    intro whole is
    obtain ⟨_, more, same, rfl, behind⟩ :=
      ih (spelt.tail.of_suffix segment.suffix) whole is
    cases same
    obtain ⟨-, u, us, ident, canonical, -⟩ := segment.respelled spelt.tail
    exact ⟨path, s :: more, rfl, by simp,
      List.forall_mem_cons.mpr ⟨⟨u, us, ident, canonical⟩, behind⟩⟩
  | named _ _ segment =>
    rintro _ ⟨⟩
    obtain ⟨-, u, us, ident, canonical, -⟩ := segment.respelled spelt
    exact ⟨List.cons_ne_nil _ _, List.forall_mem_singleton.mpr ⟨u, us, ident, canonical⟩⟩
  | parenthesized _ _ ih => exact ih spelt.tail
  | composition | attributed | prefixed | array | dictionary | tuple | function => rintro _ ⟨⟩
  | _ => trivial

/-- The canonical text of a path has its segments. -/
theorem Buildable.segments (h : (named path).Buildable) :
    path ≠ [] ∧ ∀ s ∈ path, SegmentBuildable s := by
  obtain ⟨us, canonical⟩ := h
  obtain ⟨ts, tokens, same⟩ := canonical.tokenize
  have spelt : Spelt (lead true us) := by
    intro u mem
    have listed : u.word ∈ ts.map Token.word := by
      rw [same, ← @map_word_lead true us]
      exact List.mem_map_of_mem mem
    obtain ⟨t, mem, word⟩ := List.mem_map.mp listed
    obtain ⟨kind, chars⟩ := Prod.ext_iff.mp word
    have spelled := (placed_of_tokenize tokens).spelled t mem
    rwa [show t.kind = u.kind from kind, show t.chars = u.chars from chars] at spelled
  have spells := @canonical.spells true [] nofun
  rw [List.append_nil] at spells
  exact spells.hasSegments spelt path rfl

/-- Two paths with a dot between them. -/
theorem renderPath_append (front : path ≠ []) (behind : more ≠ []) :
    renderPath (path ++ more) = renderPath path ++ "." ++ renderPath more := by
  induction more using List.reverseRecOn with
  | nil => exact absurd rfl behind
  | append_singleton more s ih =>
    rcases eq_or_ne more [] with rfl | nonempty
    · rw [List.nil_append, renderPath_snoc front, renderPath]
    · rw [← List.append_assoc, renderPath_snoc (List.append_ne_nil_of_left_ne_nil front _),
        ih nonempty, renderPath_snoc nonempty]
      simp only [String.append_assoc]

/-- The text of a path that is written in some source that can be read. -/
def IsPathText (text : String) : Prop :=
  ∃ path, (named path).IsWritten ∧ (named path).render = text

/-- Paths are put together with a dot. -/
theorem IsPathText.dot {text text' : String} (h : IsPathText text) (h' : IsPathText text') :
    IsPathText (text ++ "." ++ text') := by
  obtain ⟨path, written, rfl⟩ := h
  obtain ⟨more, written', rfl⟩ := h'
  obtain ⟨front, segments⟩ := (isWritten_iff.mp written).segments
  obtain ⟨behind, segments'⟩ := (isWritten_iff.mp written').segments
  obtain ⟨us, opened⟩ := opened_of_segments (List.append_ne_nil_of_left_ne_nil front more)
    (List.forall_mem_append.mpr ⟨segments, segments'⟩)
  exact ⟨_, isWritten_iff.mpr opened.buildable, renderPath_append front behind⟩

theorem IsPathText.of_spelling {name : String} (h : Lexeme.Spelling .ident name.toList) :
    IsPathText name := by
  have segment := @Canonical.plainSegment (.laid true .ident name) h
  have built : ∀ s ∈ [PathSegment.mk name []], SegmentBuildable s :=
    List.forall_mem_singleton.mpr ⟨_, _, rfl, segment⟩
  obtain ⟨us, opened⟩ := opened_of_segments (List.cons_ne_nil _ _) built
  exact ⟨_, isWritten_iff.mpr opened.buildable, by rw [render_single, renderSegment]⟩

end TypeExpr

open TypeExpr (IsPathText)

namespace Declaration

/-- The name of a type is a path. -/
theorem WrittenIn.isPathText {ts : List Token} {d : Declaration} (h : d.WrittenIn ts)
    (spelt : Spelt ts) (noExtension : d.heading.kind ≠ .extension) : IsPathText d.heading.name := by
  obtain ⟨us, opener, body, suffix, opening⟩ := h.opening
  have spelt := spelt.of_suffix suffix
  generalize d.heading = heading at opening noExtension
  obtain ⟨-, ⟨attributes, modifiers⟩, -, ⟨name, -, -, -⟩, -⟩ := opening
  have spelt := ((spelt.of_suffix attributes.suffix).of_suffix modifiers.suffix).tail
  cases name with
  | extended => exact absurd rfl noExtension
  | name _ ident => exact .of_spelling (spelt.ident ident)

/-- Where nothing but paths is extended, the dotted names are paths. -/
theorem isPathText_annotated {source : String} {ds : List Declaration}
    (read : readSource source = .ok ds)
    (paths : ∀ d ∈ ds.flatMap withNested, d.heading.kind = .extension → IsPathText d.heading.name) :
    ∀ e ∈ ds.flatMap (·.annotated), IsPathText e.1 := by
  obtain ⟨ts, tokens, written⟩ := writtenIn_of_readSource read
  intro e mem
  obtain ⟨d, top, listed⟩ := List.mem_flatMap.mp mem
  refine d.annotated_fst (fun h h' => h.dot h') (fun n nested => ?_) e listed
  have nested : n ∈ ds.flatMap withNested := List.mem_flatMap.mpr ⟨d, top, nested⟩
  by_cases extended : n.heading.kind = .extension
  · exact paths n nested extended
  · exact (written n nested).isPathText (placed_of_tokenize tokens).spelled extended

end Declaration

end CodableSynthesis
