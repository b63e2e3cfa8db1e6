import CodableSynthesis.Proofs.Joining.Sources
import CodableSynthesis.Proofs.Relocation.Models

/-!
What is synthesized from a declaration behind another text. The generated texts are the same; what
is warned about is warned about on later lines.

* `Declaration.annotatedAs_shift`: the annotated declarations are the same ones.
* `Declaration.extract_shift`: so are their field models, up to places.
* `Declaration.generatedMembers_shift`, `Declaration.generatedExtensions_shift`: so are the texts.
* `Declaration.expansions_shift`: the expansions of all declarations, with their warnings.

A shift is a map on places, and nothing of what is generated depends on places. So all of this is
known from declarations that differ in places, but for the warnings, which are the same ones with a
number added to their lines.
-/

namespace CodableSynthesis

open Text (Span)

/-- A warning about a later line. -/
def Diagnostic.shift (lineFeeds : Nat) (d : Diagnostic) : Diagnostic :=
  { d with line := d.line + lineFeeds }

variable {bytes lineFeeds : Nat} {w : Writer} {name : String} {d : Declaration}

namespace Declaration

/-! ### Headings -/

theorem shift_mk (heading : Heading) (members : List Member) (opener closer : Span) :
    shift bytes lineFeeds ⟨heading, members, opener, closer⟩ =
      ⟨heading.mapSpans (Span.shift bytes lineFeeds),
        Member.mapAllSpans (Span.shift bytes lineFeeds) members,
        opener.shift bytes lineFeeds, closer.shift bytes lineFeeds⟩ := by
  rw [shift, mapSpans]

@[simp] theorem shift_heading :
    (d.shift bytes lineFeeds).heading = d.heading.mapSpans (Span.shift bytes lineFeeds) := by
  obtain ⟨heading, members, opener, closer⟩ := d
  rw [shift_mk]

@[simp] theorem shift_opener :
    (d.shift bytes lineFeeds).opener = d.opener.shift bytes lineFeeds := by
  obtain ⟨heading, members, opener, closer⟩ := d
  rw [shift_mk]

@[simp] theorem shift_closer :
    (d.shift bytes lineFeeds).closer = d.closer.shift bytes lineFeeds := by
  obtain ⟨heading, members, opener, closer⟩ := d
  rw [shift_mk]

theorem registered_shift :
    (d.shift bytes lineFeeds).registered =
      d.registered.map (·.mapSpans (Span.shift bytes lineFeeds)) := by
  rw [registered, registered, shift_heading, Heading.mapSpans, List.filter_map]
  rfl

/-- A declaration is annotated behind another text if it is by itself. -/
theorem isAnnotated_shift : (d.shift bytes lineFeeds).isAnnotated = d.isAnnotated := by
  rw [isAnnotated, isAnnotated, shift_heading, Heading.mapSpans, List.any_map]
  rfl

mutual

/-- The annotated declarations behind another text. -/
theorem annotatedAs_shift (name : String) : ∀ d : Declaration,
    annotatedAs name (d.shift bytes lineFeeds) =
      (annotatedAs name d).map (Prod.map id (shift bytes lineFeeds))
  | ⟨heading, members, opener, closer⟩ => by
    have annotated := @isAnnotated_shift bytes lineFeeds ⟨heading, members, opener, closer⟩
    rw [shift_mk] at annotated
    rw [shift_mk, annotatedAs, annotatedAs, annotated, List.map_append,
      annotatedIn_shift name members]
    split
    · rw [List.map_singleton, Prod.map, shift_mk]
      rfl
    · rfl

theorem annotatedIn_shift (name : String) : ∀ ms : List Member,
    annotatedIn name (Member.mapAllSpans (Span.shift bytes lineFeeds) ms) =
      (annotatedIn name ms).map (Prod.map id (shift bytes lineFeeds))
  | [] => rfl
  | .type d :: ms => by
    have here : d.mapSpans (Span.shift bytes lineFeeds) = d.shift bytes lineFeeds := rfl
    rw [Member.mapAllSpans, Member.mapSpans, annotatedIn, annotatedIn, List.map_append,
      annotatedIn_shift name ms, here, annotatedAs_shift _ d, shift_heading]
    rfl
  | .variable _ :: ms | .other .. :: ms => by
    rw [Member.mapAllSpans, Member.mapSpans, annotatedIn, annotatedIn, annotatedIn_shift name ms]

end

/-! ### Field models -/

/-- The places of what a field model reports are lower by some lines. -/
def Below (lineFeeds : Nat) (place place' : Nat × Nat) : Prop :=
  place' = (place.1 + lineFeeds, place.2)

/-- What a field model reports stands at places that are shifted with the tokens. -/
theorem below_carries : (Comparison.below bytes lineFeeds).Carries (Below lineFeeds) := by
  intro s s' same
  have place : s' = s.shift bytes lineFeeds := same.symm
  rw [place]
  rfl

/-- The field model of a declaration behind another text. -/
theorem extract_shift :
    SameOutcome Eq (FieldModel.Same (Below lineFeeds)) (FieldModel.extract name d)
      (FieldModel.extract name (d.shift bytes lineFeeds)) :=
  (same_below.mpr rfl).extract below_carries name

/-- The texts for the body are the same. -/
theorem generatedMembers_shift :
    (d.shift bytes lineFeeds).generatedMembers w name = d.generatedMembers w name := by
  rw [generatedMembers, generatedMembers]
  have models := @extract_shift bytes lineFeeds name d
  generalize FieldModel.extract name d = r at models ⊢
  generalize FieldModel.extract name (d.shift bytes lineFeeds) = r' at models ⊢
  cases models with
  | error => rfl
  | ok same =>
    simp only [FieldModel.members, same.fields, same.modifier, registered_shift,
      List.flatMap_map]

/-- The extensions are the same. -/
theorem generatedExtensions_shift :
    (d.shift bytes lineFeeds).generatedExtensions w name = d.generatedExtensions w name := by
  rw [generatedExtensions, generatedExtensions]
  have models := @extract_shift bytes lineFeeds name d
  generalize FieldModel.extract name d = r at models ⊢
  generalize FieldModel.extract name (d.shift bytes lineFeeds) = r' at models ⊢
  cases models with
  | error => rfl
  | ok same =>
    simp only [FieldModel.conformance, same.typeName, registered_shift, List.map_map]
    rfl

/-! ### Warnings -/

/-- A conformance that is stated twice is warned about on a later line. -/
theorem repeatedConformance_shift :
    (d.shift bytes lineFeeds).repeatedConformance name =
      (d.repeatedConformance name).map (Diagnostic.shift lineFeeds) := by
  rw [repeatedConformance, repeatedConformance, shift_heading, Heading.mapSpans]
  dsimp only
  split <;> rfl

end Declaration

/-- What is warned about in the field model of a declaration behind another text. -/
theorem FieldModel.Same.diagnostics {m m' : FieldModel}
    (same : m.Same (Declaration.Below lineFeeds) m') :
    m'.diagnostics = m.diagnostics.map (Diagnostic.shift lineFeeds) := by
  have lost {ss ss' : List SkippedMember}
      (skipped : List.Forall₂ (SkippedMember.Same (Declaration.Below lineFeeds)) ss ss') :
      (ss'.filter (·.reason.isLostBinding)).map
          (fun s => (⟨s.line, s.column, .notSerialized s.name s.reason⟩ : Diagnostic)) =
        ((ss.filter (·.reason.isLostBinding)).map
          (fun s => (⟨s.line, s.column, .notSerialized s.name s.reason⟩ : Diagnostic))).map
            (Diagnostic.shift lineFeeds) := by
    induction skipped with
    | nil => rfl
    | @cons s s' _ _ head _ ih =>
      obtain ⟨name, reason, place⟩ := head
      obtain ⟨line, column⟩ := Prod.mk.inj place
      rw [List.filter_cons, List.filter_cons, ← reason]
      split
      · rw [List.map_cons, List.map_cons, List.map_cons, ih, line, column, ← name, ← reason]
        rfl
      · exact ih
  rw [FieldModel.diagnostics, FieldModel.diagnostics, List.map_append, lost same.skipped]
  refine congrArg _ ?_
  rw [List.map_map, ← List.forall₂_eq_eq_eq, List.forall₂_map_left_iff, List.forall₂_map_right_iff]
  refine (same.initializedConstants.imp fun c c' head => ?_).flip
  obtain ⟨line, column⟩ := Prod.mk.inj head.place
  simp only [flip, Function.comp, Diagnostic.shift, line, column, head.name]

namespace Declaration

/-- The warnings about a declaration behind another text. -/
theorem expand_shift_diagnostics :
    ((d.shift bytes lineFeeds).expand w name).diagnostics =
      (d.expand w name).diagnostics.map (Diagnostic.shift lineFeeds) := by
  rw [expand_parts (·.diagnostics) rfl fun _ _ => rfl,
    expand_parts (·.diagnostics) rfl fun _ _ => rfl, registered_shift, List.flatMap_map,
    List.map_flatMap]
  refine List.flatMap_congr fun a _ => ?_
  rw [expandAttribute, expandAttribute]
  have models := @extract_shift bytes lineFeeds name d
  generalize FieldModel.extract name d = r at models ⊢
  generalize FieldModel.extract name (d.shift bytes lineFeeds) = r' at models ⊢
  cases models with
  | error same =>
    cases same
    dsimp only
    rw [shift_heading]
    rfl
  | ok same =>
    dsimp only
    rw [same.diagnostics, repeatedConformance_shift, List.map_append]

/-- The expansions of declarations behind another text give members to as many of them, and warn
about the same on later lines. -/
theorem expansions_shift (ds : List Declaration) :
    ((ds.map (shift bytes lineFeeds)).flatMap (·.expansions w)).countP (fun e => !e.members.isEmpty) =
        (ds.flatMap (·.expansions w)).countP (fun e => !e.members.isEmpty) ∧
      ((ds.map (shift bytes lineFeeds)).flatMap (·.expansions w)).flatMap (·.diagnostics) =
        ((ds.flatMap (·.expansions w)).flatMap (·.diagnostics)).map
          (Diagnostic.shift lineFeeds) := by
  have same : List.Forall₂ (fun e e' : Expansion => e'.members = e.members ∧
      e'.diagnostics = e.diagnostics.map (Diagnostic.shift lineFeeds))
      (ds.flatMap (·.expansions w))
      ((ds.map (shift bytes lineFeeds)).flatMap (·.expansions w)) := by
    rw [List.flatMap_map]
    refine List.rel_flatMap (List.forall₂_same.mpr fun _ _ => rfl) fun d d' same => ?_
    cases same
    rw [expansions, expansions, annotated, annotated, shift_heading, Heading.mapSpans,
      annotatedAs_shift, List.map_map, List.forall₂_map_left_iff, List.forall₂_map_right_iff]
    refine List.forall₂_same.mpr fun entry _ => ?_
    simp only [Function.comp, Prod.map]
    exact ⟨by rw [expand_members, expand_members, generatedMembers_shift]; rfl,
      expand_shift_diagnostics⟩
  generalize ds.flatMap (·.expansions w) = es at same ⊢
  generalize (ds.map (shift bytes lineFeeds)).flatMap (·.expansions w) = es' at same ⊢
  induction same with
  | nil => exact ⟨rfl, rfl⟩
  | cons head _ ih =>
    obtain ⟨count, warnings⟩ := ih
    constructor
    · rw [List.countP_cons, List.countP_cons, count, head.1]
    · rw [List.flatMap_cons, List.flatMap_cons, List.map_append, warnings, head.2]

end Declaration

end CodableSynthesis
