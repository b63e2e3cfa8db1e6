import CodableSynthesis.Proofs.Printing.Lines
import Mathlib.Data.List.DropRight

/-!
What a writer has written. However it was used before, a writer adds to its text what a declaration
is rendered to on its own, and only puts a line feed in front of it unless it is the first.

* `Writer.run`: what a sequence of actions makes of a writer, and the renderings it gives.
* `Writer.Holds.emit`: one more declaration.
* `Writer.run_holds`: what a writer holds after any sequence of actions.
* `Writer.run_composed`: what stands in a writer, and what it renders, after every sequence.

`Codegen` has three public actions: `emit` adds a declaration, `render` gives one back without
adding it, and `fork` makes a new writer with the same settings. Text and depth change on the way;
`Writer.Holds` is the invariant between actions, and says that the depth is back at zero.

The declarations are arbitrary: nothing is asked of their names, lines or types. They may be empty
texts or contain line feeds; what is said is how renderings are put together, not what they look
like.
-/

namespace CodableSynthesis

namespace Writer

/-! ### Actions -/

/-- What is done with a writer. -/
inductive Action where
  /-- A declaration is added. -/
  | emit (a : Artifact)
  /-- A declaration is rendered on its own. -/
  | render (a : Artifact)
  /-- The writer is replaced by a new one under its settings. -/
  | fork

namespace Action

/-- Whether the text so far is given up. -/
def isFork : Action → Bool
  | .fork => true
  | .emit _ | .render _ => false

/-- The declaration that is added. -/
def emitted? : Action → Option Artifact
  | .emit a => some a
  | .render _ | .fork => none

/-- The declaration that is rendered on its own. -/
def rendered? : Action → Option Artifact
  | .render a => some a
  | .emit _ | .fork => none

end Action

/-- What an action makes of a writer, and the renderings it gives. -/
def perform (w : Writer) : Action → Writer × List String
  | .emit a => (w.emit a, [])
  | .render a => (w, [w.render a])
  | .fork => (w.fork, [])

/-- What some actions, one after another, make of a writer, and the renderings they give. The
renderings are kept apart since they are no part of what the writer holds. -/
def run (w : Writer) (actions : List Action) : Writer × List String :=
  actions.foldl
    (fun (w, given) action => ((w.perform action).1, given ++ (w.perform action).2)) (w, [])

/-- The declarations that are added behind the last replacement. Those in front of it are given up
with the writer they were added to. -/
def emitted (actions : List Action) : List Artifact :=
  (actions.rtakeWhile (!·.isFork)).filterMap Action.emitted?

/-- The declarations that are rendered on their own. -/
def rendered (actions : List Action) : List Artifact :=
  actions.filterMap Action.rendered?

variable {w : Writer} {indentWidth : Nat} {as : List Artifact}

section Concat

variable {actions : List Action} {a : Artifact}

theorem emitted_emit : emitted (actions ++ [.emit a]) = emitted actions ++ [a] := by
  rw [emitted, List.rtakeWhile_concat_pos _ _ _ rfl, List.filterMap_append]
  rfl

theorem emitted_render : emitted (actions ++ [.render a]) = emitted actions := by
  rw [emitted, List.rtakeWhile_concat_pos _ _ _ rfl, List.filterMap_append]
  exact List.append_nil _

theorem emitted_fork : emitted (actions ++ [.fork]) = [] := by
  rw [emitted, List.rtakeWhile_concat_neg _ _ _ (by decide)]
  rfl

end Concat

theorem run_concat (w : Writer) (actions : List Action) (action : Action) :
    w.run (actions ++ [action]) =
      (((w.run actions).1.perform action).1,
        (w.run actions).2 ++ ((w.run actions).1.perform action).2) := by
  rw [run, List.foldl_concat]
  rfl

/-! ### Texts

The text of a single declaration, and when a text is empty. The separator depends on the text being
empty, not on whether something was added, which comes to the same because no rendering is empty. -/

theorem render_congr {w' : Writer} (same : w.indentWidth = w'.indentWidth) (a : Artifact) :
    w.render a = w'.render a := by
  rw [render, render, fork, fork, same]

theorem emit_render (closed : w.depth = 0) (a : Artifact) :
    w.emit a = ⟨w.text ++ (if w.text.isEmpty then "" else "\n") ++ w.render a, 0,
      w.indentWidth⟩ := by
  obtain ⟨text, made, chars⟩ := emit_lines closed a
  rw [made, ← String.ofList_toList (s := text), chars, ← render_toList]
  congr 1
  apply String.toList_inj.mp
  split <;> simp

theorem render_ne_empty (w : Writer) (a : Artifact) : w.render a ≠ "" := by
  intro empty
  have lines := w.render_toList a
  rw [empty, Artifact.lines, List.cons_append, joinLines_cons] at lines
  simp at lines

/-- The text of declarations is empty only if there are none. -/
theorem isEmpty_renderings (w : Writer) (as : List Artifact) :
    ("\n".intercalate (as.map w.render)).isEmpty = as.isEmpty := by
  cases as with
  | nil => rfl
  | cons a more =>
    have first := w.render_ne_empty a
    cases more with
    | nil => simpa using first
    | cons b more => simp [String.intercalate_cons_cons]

/-! ### Runs

The invariant between actions, and what it comes to for a whole sequence. -/

/-- The writer holds the renderings of some declarations, with line feeds between them, and has no
block open. -/
structure Holds (indentWidth : Nat) (as : List Artifact) (w : Writer) : Prop where
  /-- The text is that of the renderings. -/
  text : w.text = "\n".intercalate (as.map (new indentWidth).render)
  /-- Nothing is indented. -/
  depth : w.depth = 0
  /-- Its settings are those it began with. -/
  width : w.indentWidth = indentWidth

namespace Holds

theorem new (indentWidth : Nat) : Holds indentWidth [] (new indentWidth) :=
  ⟨rfl, rfl, rfl⟩

theorem fork (h : w.Holds indentWidth as) : w.fork.Holds indentWidth [] := by
  rw [Writer.fork, h.width]
  exact Holds.new indentWidth

/-- What is rendered does not depend on what is held. -/
theorem render (h : w.Holds indentWidth as) (a : Artifact) :
    w.render a = (Writer.new indentWidth).render a :=
  render_congr h.width a

/-- One more declaration is held behind the others. Only here does it matter whether the text is
empty. -/
theorem emit (h : w.Holds indentWidth as) (a : Artifact) :
    (w.emit a).Holds indentWidth (as ++ [a]) := by
  rw [emit_render h.depth a]
  refine ⟨?_, rfl, h.width⟩
  simp only
  rw [h.text, isEmpty_renderings, h.render a, List.map_append, List.map_singleton]
  by_cases first : as = []
  · subst first
    simp
  · have some_ : as.map (Writer.new indentWidth).render ≠ [] := by simp [first]
    rw [String.intercalate_append_of_ne_nil some_ (by simp), String.intercalate_singleton,
      if_neg (by simp [first])]

/-- The text, line by line. -/
theorem lines (h : w.Holds indentWidth as) :
    w.text.toList = joinLines (as.flatMap (·.lines indentWidth)) := by
  rw [h.text]
  clear h
  cases as with
  | nil => rfl
  | cons a more =>
    induction more generalizing a with
    | nil =>
      rw [List.map_singleton, String.intercalate_singleton, render_toList, List.flatMap_singleton]
      rfl
    | cons b more ih =>
      have nonempty (c : Artifact) : c.lines indentWidth ≠ [] := List.cons_ne_nil _ _
      have behind : (b :: more).flatMap (·.lines indentWidth) ≠ [] := by simp [nonempty]
      have split : (a :: b :: more).flatMap (·.lines indentWidth) =
          a.lines indentWidth ++ (b :: more).flatMap (·.lines indentWidth) := rfl
      rw [List.map_cons, List.map_cons, String.intercalate_cons_cons, ← List.map_cons,
        String.toList_append, String.toList_append, render_toList, ih b, split,
        joinLines_append (nonempty a) behind, List.append_assoc]
      rfl

end Holds

/-- What stands in a writer after some actions, and what these have given. -/
structure Composed (indentWidth : Nat) (actions : List Action) (w : Writer) (given : List String) :
    Prop where
  /-- The declarations added behind the last replacement, each as it is rendered on its own. -/
  text : w.text = "\n".intercalate ((emitted actions).map (new indentWidth).render)
  /-- These are their lines. -/
  lines : w.text.toList = joinLines ((emitted actions).flatMap (·.lines indentWidth))
  /-- No block is open. -/
  depth : w.depth = 0
  /-- A declaration is rendered as by a new writer. -/
  rendering : ∀ a, w.render a = (new indentWidth).render a
  /-- So were those rendered on the way. -/
  given : given = (rendered actions).map (new indentWidth).render

/-- A writer holds what was added to it behind the last replacement, whatever was rendered in
between. The induction is on the actions from the back. -/
theorem run_holds (indentWidth : Nat) (actions : List Action) :
    ((new indentWidth).run actions).1.Holds indentWidth (emitted actions) ∧
      ((new indentWidth).run actions).2 =
        (rendered actions).map (new indentWidth).render := by
  induction actions using List.reverseRecOn with
  | nil => exact ⟨Holds.new indentWidth, rfl⟩
  | append_singleton actions action ih =>
    obtain ⟨holds, given⟩ := ih
    rw [run_concat, given, rendered, rendered, List.filterMap_append, List.map_append]
    cases action with
    | emit a =>
      rw [emitted_emit]
      exact ⟨holds.emit a, rfl⟩
    | render a =>
      rw [emitted_render, perform, holds.render a]
      exact ⟨holds, rfl⟩
    | fork =>
      rw [emitted_fork]
      exact ⟨holds.fork, rfl⟩

/-- Whatever was done with a writer, its text is made of the renderings of the declarations added to
it behind the last replacement, with line feeds between them; no block is open, and what it renders
it renders like a new writer. There is no condition on the actions or the declarations. -/
theorem run_composed (indentWidth : Nat) (actions : List Action) :
    Composed indentWidth actions ((new indentWidth).run actions).1
      ((new indentWidth).run actions).2 := by
  obtain ⟨holds, given⟩ := run_holds indentWidth actions
  exact ⟨holds.text, holds.lines, holds.depth, holds.render, given⟩

end Writer

end CodableSynthesis
