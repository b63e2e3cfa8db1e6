import CodableSynthesis.Artifact.Writer
import CodableSynthesis.Proofs.Edits.Made
import CodableSynthesis.Proofs.Layout.Placed
import CodableSynthesis.Proofs.Relocation.Models

/-!
Layout and comments do not change what is read. Two sources are set alike if their tokens agree in
kind, text and line breaks, and touch one another at the same places.

* `SetAlike`: the condition, stated on tokens and their places.
* `readSource_of_setAlike`: such sources are both read, with the same trees but for places, or both
  rejected for the same reason; and what is synthesized from corresponding declarations is the same.

Line breaks and touching are part of the condition because the reader looks at both: a line that
begins a declaration ends an initializer, and a mark belongs to a type only if it touches it. Apart
from that, white space and comments may differ in any way. That a token touches the one before it is
not read off the tokens' marks but said by their places, which is what a reader of the statement can
check; `Placed.touches_eq` shows that the two are the same for the tokens of a source.
-/

namespace CodableSynthesis

open Text (Span Position)

/-! ### Sources that are set alike -/

/-- Where each token but the first begins exactly where the one before it ends. -/
def joints : List Token → List Bool
  | t :: u :: ts => (u.span.start == t.span.stop) :: joints (u :: ts)
  | _ => []

/-- Two token lists agree, position by position, in kinds, texts and line breaks, and in which
tokens begin where the one before them ends. -/
structure SetAlike (ts ts' : List Token) : Prop where
  words : ts.map (fun t => (t.kind, t.text, t.newlineBefore)) =
    ts'.map fun t => (t.kind, t.text, t.newlineBefore)
  joints : joints ts = CodableSynthesis.joints ts'

/-- Looking at no place at all. -/
def Comparison.blind : Comparison :=
  ⟨fun _ => ⟨0, 0, 0, 0⟩, fun _ => ⟨0, 0, 0, 0⟩⟩

/-- A declaration without the places in it. -/
def Declaration.withoutPlaces (d : Declaration) : Declaration :=
  d.mapSpans fun _ => ⟨0, 0, 0, 0⟩

/-- A token of a source text touches the one before it if it begins where that one ends. -/
theorem Placed.touches_eq {p : Position} {t u : Token} {ts : List Token} {cs : List Char}
    (h : Placed p (t :: u :: ts) cs) : u.touches = (u.span.start == t.span.stop) := by
  obtain - | ⟨-, -, -, span, later⟩ := h
  obtain - | ⟨-, touches, -, span', -⟩ := later
  rw [touches, span, span', Bool.eq_iff_iff, List.isEmpty_iff, beq_iff_eq]
  simp only [Span.between, Position.offset_advance]
  constructor
  · rintro rfl
    rfl
  · intro same
    exact Text.byteLength_eq_zero (Nat.add_left_cancel same)

/-- The marks of all tokens but the first say where the places meet. -/
theorem Placed.tail_touches {p : Position} {ts : List Token} {cs : List Char}
    (h : Placed p ts cs) : ts.tail.map (·.touches) = joints ts := by
  induction h with
  | done => rfl
  | @token p gap t ts rest whole touches sound span later ih =>
    cases ts with
    | nil => rfl
    | cons u ts =>
      rw [joints, ← ih, List.tail_cons, List.map_cons,
        (Placed.token whole touches sound span later).touches_eq]
      rfl

/-- Token lists that agree in what the readers look at. -/
theorem sameTokens_blind {ts ts' : List Token}
    (words : ts.map (fun t => (t.kind, t.text, t.newlineBefore)) =
      ts'.map fun t => (t.kind, t.text, t.newlineBefore))
    (touches : ts.map (·.touches) = ts'.map (·.touches)) : SameTokens .blind ts ts' := by
  induction ts generalizing ts' with
  | nil =>
    cases ts' with
    | nil => exact .nil
    | cons t' ts' => cases words
  | cons t ts ih =>
    cases ts' with
    | nil => cases words
    | cons t' ts' =>
      simp only [List.map_cons, List.cons.injEq, Prod.mk.injEq] at words touches
      obtain ⟨⟨kind, text, newline⟩, words⟩ := words
      exact .cons ⟨⟨kind, text, rfl⟩, newline, touches.1⟩ (ih words touches.2)

/-- Sources that are set alike have tokens that differ only in places, and in what stands before the
first. -/
theorem SetAlike.behind {source source' : String} {ts ts' : List Token}
    (h : SetAlike ts ts') (cut : tokenize source = .ok ts) (cut' : tokenize source' = .ok ts') :
    SameBehind .blind ts ts' := by
  obtain ⟨words, touches⟩ := h
  rw [← (placed_of_tokenize cut).tail_touches, ← (placed_of_tokenize cut').tail_touches] at touches
  cases ts with
  | nil =>
    cases ts' with
    | nil => exact .nil
    | cons t' ts' => cases words
  | cons t ts =>
    cases ts' with
    | nil => cases words
    | cons t' ts' =>
      simp only [List.map_cons, List.cons.injEq, Prod.mk.injEq] at words
      obtain ⟨⟨kind, text, -⟩, words⟩ := words
      exact .cons ⟨kind, text, rfl⟩ (sameTokens_blind words touches)

/-! ### What is synthesized -/

/-- Two declarations give rise to the same members, whatever name they are declared under: both have
no field model, for the same reason, or their field models agree but for places. -/
def SameSynthesis (w : Writer) (d d' : Declaration) : Prop :=
  ∀ name, SameOutcome Eq
    (fun m m' : FieldModel => m.fields = m'.fields ∧ m.modifier = m'.modifier ∧
      m.skipped.map (fun s => (s.name, s.reason)) = m'.skipped.map (fun s => (s.name, s.reason)) ∧
      m.members.toList.map w.render = m'.members.toList.map w.render)
    (FieldModel.extract name d) (FieldModel.extract name d')

/-- Declarations that are the same but for places give rise to the same members. -/
theorem Declaration.Same.sameSynthesis {d d' : Declaration} (w : Writer)
    (same : d.Same Comparison.blind d') : SameSynthesis w d d' := by
  intro name
  have models := same.extract (P := fun _ _ => True) (fun _ => trivial) name
  generalize FieldModel.extract name d = r at models ⊢
  generalize FieldModel.extract name d' = r' at models ⊢
  cases models with
  | error fault => exact .error fault
  | ok model =>
    refine .ok ⟨model.fields, model.modifier, ?_, ?_⟩
    · rw [← List.forall₂_eq_eq_eq, List.forall₂_map_left_iff, List.forall₂_map_right_iff]
      exact model.skipped.imp fun s s' h => Prod.ext h.name h.reason
    · rw [FieldModel.members, FieldModel.members, model.fields, model.modifier]

/-! ### The law -/

/-- Two sources whose tokens are set alike are both read or both rejected. If they are read, their
trees are the same but for places, and what is extracted from and generated for corresponding
declarations is the same. If they are rejected, the faults are the same, the texts of what was
expected and what was found included. -/
theorem readSource_of_setAlike {source source' : String} {ts ts' : List Token} (w : Writer)
    (cut : tokenize source = .ok ts) (cut' : tokenize source' = .ok ts') (alike : SetAlike ts ts') :
    SameOutcome (fun e e' : SourceError => e.fault = e'.fault)
      (fun ds ds' => ds.map Declaration.withoutPlaces = ds'.map Declaration.withoutPlaces ∧
        List.Forall₂ (SameSynthesis w) (ds.flatMap Declaration.withNested)
          (ds'.flatMap Declaration.withNested))
      (readSource source) (readSource source') := by
  have file := Declaration.readFile_same (alike.behind cut cut')
  simp only [readSource, cut, cut', bind, Except.bind]
  generalize Declaration.readFile ts = r at file ⊢
  generalize Declaration.readFile ts' = r' at file ⊢
  cases file with
  | error fault =>
    cases fault with
    | endOfInput => exact .error rfl
    | unexpected word => exact .error (by simp only [ReadFault.toSourceError, word.text])
  | ok same =>
    have nested := List.rel_flatMap same fun _ _ hd => hd.withNested
    exact .ok ⟨map_eq_of_forall₂ same, nested.imp fun d d' hd => hd.sameSynthesis w⟩

theorem readSource_of_setAlike_commented :
    ∃ ts ts', tokenize "class A \x7b let x: Int? \x7d" = .ok ts ∧
      tokenize "class  A \x7b/* of */ let x: /* type */ Int?  \x7d" = .ok ts' ∧
      SetAlike ts ts' ∧
      SameOutcome (fun e e' : SourceError => e.fault = e'.fault)
        (fun ds ds' => ds.map Declaration.withoutPlaces = ds'.map Declaration.withoutPlaces ∧
          List.Forall₂ (SameSynthesis (.new 2)) (ds.flatMap Declaration.withNested)
            (ds'.flatMap Declaration.withNested))
        (readSource "class A \x7b let x: Int? \x7d")
        (readSource "class  A \x7b/* of */ let x: /* type */ Int?  \x7d") := by
  have computed :
      (match tokenize "class A \x7b let x: Int? \x7d",
          tokenize "class  A \x7b/* of */ let x: /* type */ Int?  \x7d" with
        | .ok ts, .ok ts' =>
          decide (ts.map (fun t => (t.kind, t.text, t.newlineBefore)) =
            ts'.map fun t => (t.kind, t.text, t.newlineBefore)) && decide (joints ts = joints ts')
        | _, _ => false) = true := by
    decide +kernel
  cases cut : tokenize "class A \x7b let x: Int? \x7d" with
  | error fault => simp [cut] at computed
  | ok ts =>
    cases cut' : tokenize "class  A \x7b/* of */ let x: /* type */ Int?  \x7d" with
    | error fault => simp [cut, cut'] at computed
    | ok ts' =>
      simp only [cut, cut', Bool.and_eq_true, decide_eq_true_eq] at computed
      have alike : SetAlike ts ts' := ⟨computed.1, computed.2⟩
      exact ⟨ts, ts', rfl, rfl, alike, readSource_of_setAlike (.new 2) cut cut' alike⟩

end CodableSynthesis
