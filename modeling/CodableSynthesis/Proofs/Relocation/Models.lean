import CodableSynthesis.FieldModel.Extraction
import CodableSynthesis.Proofs.Relocation.Members

/-!
Field models of declarations that differ only in places. A field carries no place; what is left out
and what is warned about carries the line and column of a binding.

* `Declaration.Same.extract`: the field models differ in nothing else.
* `Declaration.Same.withNested`: the nested declarations correspond one to one.

How the lines and columns in the models are related is a parameter `P`, to be carried by the
comparison (`Comparison.Carries`). For sources compared up to places it relates everything; for a
source behind another one it relates a line to one that is lower by a fixed number.
-/

namespace CodableSynthesis

open Text (Span)

/-- Spans that are the same place by a comparison have lines and columns related by `P`. -/
def Comparison.Carries (σ : Comparison) (P : Nat × Nat → Nat × Nat → Prop) : Prop :=
  ∀ {s s' : Span}, σ.left s = σ.right s' → P (s.line, s.column) (s'.line, s'.column)

variable {σ : Comparison} {P : Nat × Nat → Nat × Nat → Prop}

/-- Two omissions of one binding for one reason, at places related by `P`. -/
structure SkippedMember.Same (P : Nat × Nat → Nat × Nat → Prop) (s s' : SkippedMember) : Prop where
  name : s.name = s'.name
  reason : s.reason = s'.reason
  place : P (s.line, s.column) (s'.line, s'.column)

/-- Two constants of one name, at places related by `P`. -/
structure InitializedConstant.Same (P : Nat × Nat → Nat × Nat → Prop)
    (c c' : InitializedConstant) : Prop where
  name : c.name = c'.name
  place : P (c.line, c.column) (c'.line, c'.column)

/-- Two contributions of one kind that differ at most in places. -/
inductive Contribution.Same (P : Nat × Nat → Nat × Nat → Prop) :
    Contribution → Contribution → Prop
  | field {f : Field} : Same P (.field f) (.field f)
  | skipped {s s' : SkippedMember} : s.Same P s' → Same P (.skipped s) (.skipped s')
  | constant {c c' : InitializedConstant} : c.Same P c' → Same P (.constant c) (.constant c')

/-- Two field models that differ at most in places. -/
structure FieldModel.Same (P : Nat × Nat → Nat × Nat → Prop) (m m' : FieldModel) : Prop where
  typeName : m.typeName = m'.typeName
  modifier : m.modifier = m'.modifier
  fields : m.fields = m'.fields
  skipped : List.Forall₂ (SkippedMember.Same P) m.skipped m'.skipped
  initializedConstants : List.Forall₂ (InitializedConstant.Same P) m.initializedConstants
    m'.initializedConstants

theorem forall₂_of_map_eq {α : Type} {f f' : α → α} {xs ys : List α}
    (same : xs.map f = ys.map f') : List.Forall₂ (fun x y => f x = f' y) xs ys := by
  rw [← List.forall₂_eq_eq_eq, List.forall₂_map_left_iff, List.forall₂_map_right_iff] at same
  exact same

namespace Binding.Same

variable {b b' : Binding}

theorem iff : b.Same σ b' ↔ b.pattern = b'.pattern ∧ b.type? = b'.type? ∧
    b.hasInitializer = b'.hasInitializer ∧ b.accessors? = b'.accessors? ∧
    σ.left b.span = σ.right b'.span := by
  rw [Same, mapSpans, mapSpans, mk.injEq]

theorem class_eq (same : b.Same σ b') : MemberClass.ofBinding b = MemberClass.ofBinding b' := by
  obtain ⟨pattern, type, -, accessors, -⟩ := iff.mp same
  rw [MemberClass.ofBinding, MemberClass.ofBinding, pattern, type, accessors]

theorem skip (carries : σ.Carries P) (same : b.Same σ b') (reason : SkipReason) :
    (Contribution.skip reason b).Same P (.skip reason b') := by
  obtain ⟨pattern, -, -, -, span⟩ := iff.mp same
  exact .skipped ⟨by rw [pattern], rfl, carries span⟩

end Binding.Same

namespace Variable.Same

variable {v v' : Variable}

/-- Variable declarations that differ only in places have the same parts, with bindings that
correspond. -/
theorem parts (same : v.Same σ v') : v.modifiers = v'.modifiers ∧ v.specifier = v'.specifier ∧
    v.first.Same σ v'.first ∧ List.Forall₂ (Binding.Same σ) v.others v'.others := by
  rw [Same, mapSpans, mapSpans, mk.injEq] at same
  obtain ⟨-, modifiers, specifier, first, others, -⟩ := same
  exact ⟨modifiers, specifier, first, forall₂_of_map_eq others⟩

theorem isTypeLevel_eq (same : v.Same σ v') : v.isTypeLevel = v'.isTypeLevel := by
  rw [isTypeLevel, isTypeLevel, same.parts.1]

theorem types_eq {bs bs' : List Binding} (same : List.Forall₂ (Binding.Same σ) bs bs') :
    bs.any (·.type?.isSome) = bs'.any (·.type?.isSome) := by
  induction same with
  | nil => rfl
  | cons head _ ih => rw [List.any_cons, List.any_cons, ih, (Binding.Same.iff.mp head).2.1]

theorem class_eq (same : v.Same σ v') : MemberClass.ofVariable v = MemberClass.ofVariable v' := by
  obtain ⟨-, -, first, others⟩ := same.parts
  rw [MemberClass.ofVariable, MemberClass.ofVariable, same.isTypeLevel_eq, first.class_eq,
    types_eq others]

theorem ofFirst (carries : σ.Carries P) (same : v.Same σ v') (c : MemberClass) :
    List.Forall₂ (Contribution.Same P) (Contribution.ofFirst v c) (Contribution.ofFirst v' c) := by
  obtain ⟨-, specifier, first, -⟩ := same.parts
  obtain ⟨-, -, initializer, -, span⟩ := Binding.Same.iff.mp first
  have one (reason : SkipReason) : List.Forall₂ (Contribution.Same P) [.skip reason v.first]
      [.skip reason v'.first] := .cons (first.skip carries reason) .nil
  cases c with
  | field f =>
    rw [Contribution.ofFirst, Contribution.ofFirst, ← specifier, ← initializer]
    split
    · exact .cons .field (.cons (.constant ⟨rfl, carries span⟩) .nil)
    · exact .cons .field .nil
  | computed | observed | typeLevel | unmodelable reason => exact one _
  | notAProperty => exact .nil

theorem contributions (carries : σ.Carries P) (same : v.Same σ v') :
    List.Forall₂ (Contribution.Same P) (Contribution.ofVariable v)
      (Contribution.ofVariable v') := by
  rw [Contribution.ofVariable, Contribution.ofVariable, ← same.class_eq, ← same.isTypeLevel_eq]
  refine List.rel_append (same.ofFirst carries _) ?_
  split
  · exact .nil
  · rw [List.forall₂_map_left_iff, List.forall₂_map_right_iff]
    exact same.parts.2.2.2.imp fun b b' hb => hb.skip carries .extraBinding

end Variable.Same

/-- Members that differ only in places contribute alike. -/
theorem Member.Same.contributions {m m' : Member} (carries : σ.Carries P) (same : m.Same σ m') :
    List.Forall₂ (Contribution.Same P) (Contribution.ofMember m) (Contribution.ofMember m') := by
  unfold Same at same
  cases m with
  | «variable» v =>
    cases m' with
    | «variable» v' =>
      simp only [mapSpans, variable.injEq] at same
      exact Variable.Same.contributions carries same
    | _ => simp only [mapSpans, reduceCtorEq] at same
  | _ =>
    cases m' with
    | «variable» v' => simp only [mapSpans, reduceCtorEq] at same
    | _ => exact .nil

namespace Declaration.Same

variable {d d' : Declaration}

/-- Declarations that differ only in places have the same parts, with members that correspond. -/
theorem parts (same : d.Same σ d') : d.heading.Same σ d'.heading ∧
    List.Forall₂ (Member.Same σ) d.members d'.members ∧
    σ.left d.opener = σ.right d'.opener ∧ σ.left d.closer = σ.right d'.closer := by
  obtain ⟨heading, members, opener, closer⟩ := d
  obtain ⟨heading', members', opener', closer'⟩ := d'
  simp only [Same, mapSpans, mk.injEq, Member.mapAllSpans_eq_map] at same
  exact ⟨same.1, forall₂_of_map_eq same.2.1, same.2.2⟩

theorem heading (same : d.Same σ d') :
    List.Forall₂ (Attribute.Same σ) d.heading.attributes d'.heading.attributes ∧
    d.heading.modifiers = d'.heading.modifiers ∧ d.heading.kind = d'.heading.kind ∧
    d.heading.name = d'.heading.name ∧ d.heading.inherited = d'.heading.inherited ∧
    σ.left d.heading.keyword = σ.right d'.heading.keyword := by
  obtain ⟨heading, -⟩ := same.parts
  rw [Heading.Same, Heading.mapSpans, Heading.mapSpans, Heading.mk.injEq] at heading
  exact ⟨forall₂_of_map_eq heading.1, heading.2⟩

theorem contributions (carries : σ.Carries P) (same : d.Same σ d') :
    List.Forall₂ (Contribution.Same P) (d.members.flatMap Contribution.ofMember)
      (d'.members.flatMap Contribution.ofMember) :=
  List.rel_flatMap same.parts.2.1 fun _ _ hm => hm.contributions carries

/-- Both have no field model, for one reason, or field models that differ at most in places. -/
theorem extract (carries : σ.Carries P) (same : d.Same σ d') (name : String) :
    SameOutcome Eq (FieldModel.Same P)
      (FieldModel.extract name d) (FieldModel.extract name d') := by
  obtain ⟨-, modifiers, kind, -⟩ := same.heading
  have parts := same.contributions carries
  rw [FieldModel.extract, FieldModel.extract, ← kind]
  split
  · refine .ok ⟨rfl, by rw [firstModifier?, firstModifier?, modifiers], ?_, ?_, ?_⟩
    · rw [← List.forall₂_eq_eq_eq]
      refine List.rel_filterMap (fun c c' hc => ?_) parts
      cases hc with
      | field => exact .some rfl
      | _ => exact .none
    · refine List.rel_filterMap (fun c c' hc => ?_) parts
      cases hc with
      | skipped h => exact .some h
      | _ => exact .none
    · refine List.rel_filterMap (fun c c' hc => ?_) parts
      cases hc with
      | constant h => exact .some h
      | _ => exact .none
  · exact .error rfl

end Declaration.Same

namespace Declaration

mutual

/-- The nested declarations of corresponding ones correspond, in order. -/
theorem Same.withNested : ∀ {d d' : Declaration}, d.Same σ d' →
    List.Forall₂ (Declaration.Same σ) d.withNested d'.withNested
  | ⟨heading, members, opener, closer⟩, ⟨heading', members', opener', closer'⟩, same => by
    rw [Declaration.withNested, Declaration.withNested]
    exact .cons same (nestedIn_same same.parts.2.1)

theorem nestedIn_same : ∀ {ms ms' : List Member}, List.Forall₂ (Member.Same σ) ms ms' →
    List.Forall₂ (Declaration.Same σ) (nestedIn ms) (nestedIn ms')
  | [], [], .nil => by
    rw [nestedIn]
    exact .nil
  | .type d :: ms, .type d' :: ms', .cons head later => by
    rw [nestedIn, nestedIn]
    simp only [Member.Same, Member.mapSpans, Member.type.injEq] at head
    exact List.rel_append (Same.withNested head) (nestedIn_same later)
  | .variable _ :: ms, .variable _ :: ms', .cons _ later
  | .other .. :: ms, .other .. :: ms', .cons _ later => by
    rw [nestedIn, nestedIn]
    exact nestedIn_same later
  | .variable _ :: _, .type _ :: _, .cons head _ | .variable _ :: _, .other .. :: _, .cons head _
  | .type _ :: _, .variable _ :: _, .cons head _ | .type _ :: _, .other .. :: _, .cons head _
  | .other .. :: _, .type _ :: _, .cons head _ | .other .. :: _, .variable _ :: _, .cons head _ => by
    simp only [Member.Same, Member.mapSpans, reduceCtorEq] at head

end

end Declaration

end CodableSynthesis
