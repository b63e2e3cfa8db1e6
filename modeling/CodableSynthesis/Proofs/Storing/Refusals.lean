import CodableSynthesis.Proofs.Storing.Inputs
import CodableSynthesis.Proofs.Storing.Results

/-!
Runs that fail and leave the tree alone. Nothing is stored before all settings and sources are read
and all results are there, so a run with a fault in any of them stores nothing, wherever the fault
is. Warnings are denied last: what a run stores does not depend on whether they are.

* `Request.Fault`: what is wrong with a request, either command.
* `Request.Fault.run`: a run with a fault tells one, and does nothing else.
* `Run.DeniesAtMost`: a run that denies warnings, beside one that allows them.
* `Request.run_keeps_tree`: what a run with a fault leaves, and one that fails for its warnings.

A fault is one of the settings, of an input, or of a source that an input stands for; `Inputs` has
the list. A failure to store is none of these: where a result cannot be written, those before it
were, and nothing is said about that.

The outcome of a failed run is `Outcome.failed`, which has the tree that the run began with, so that
the statement includes that no directory was made.
-/

namespace CodableSynthesis

open Run

variable {lib : Library} {t : FileTree} {e : Failure} {v : Nat} {x : ExpandOptions}

namespace Run

/-- A report fails where a source cannot be parsed. -/
theorem reports_failsAsParsing : FailsAsParsing reports := by
  intro source e
  rw [reports, bind_eq_error_iff, fieldModels]
  cases CodableSynthesis.readSource source.text with
  | error fault =>
    constructor
    · rintro (⟨⟨⟩⟩ | ⟨_, ⟨⟩, _⟩)
      exact ⟨fault, rfl, rfl⟩
    · rintro ⟨_, ⟨⟩, rfl⟩
      exact .inl rfl
  | ok declarations =>
    constructor
    · rintro (⟨⟨⟩⟩ | ⟨_, -, ⟨⟩⟩)
    · rintro ⟨_, ⟨⟩, _⟩

theorem reportText_eq {inputs : List String} : reportText lib t inputs = (do
    let entries ← gather lib t inputs reports
    return lib.encode (.list entries.flatten)) := by
  simp only [reportText, gather, bind_assoc]

theorem InputFault.of_reportText {inputs : List String}
    (failed : reportText lib t inputs = .error e) :
    InputFault lib t inputs e := by
  rw [reportText_eq] at failed
  rcases bind_eq_error_iff.mp failed with ungathered | ⟨entries, -, done⟩
  · exact .of_gather reports_failsAsParsing ungathered
  · cases done

theorem InputFault.reportText {inputs : List String} (fault : InputFault lib t inputs e) :
    ∃ e', Run.reportText lib t inputs = .error e' := by
  obtain ⟨e', failed⟩ := fault.gather reports_failsAsParsing
  refine ⟨e', ?_⟩
  rw [reportText_eq]
  exact bind_eq_error_iff.mpr (.inl failed)

theorem expand_of_error (failed : expansions lib t x.input = .error e) :
    Run.expand lib t x = .failed t e := by
  simp only [Run.expand, failed]

end Run

/-- What is wrong with a request. A report does not read the settings. -/
inductive Request.Fault (lib : Library) (t : FileTree) : Request → Failure → Prop
  /-- An expansion needs its settings and its inputs. -/
  | expand {v : Nat} {x : ExpandOptions} {e : Failure} : Run.Fault lib t x.input e →
      Fault lib t ⟨v, .expand x⟩ e
  /-- A report needs its inputs only. -/
  | model {v : Nat} {x : ModelOptions} {e : Failure} : InputFault lib t x.input.inputs e →
      Fault lib t ⟨v, .model x⟩ e

/-- A run with a fault tells one, and does nothing else. -/
theorem Request.Fault.run {r : Request} (fault : r.Fault lib t e) (runs : r.noOp = false) :
    ∃ e', r.Fault lib t e' ∧ r.run lib t = .failed t e' := by
  cases fault with
  | expand fault =>
    obtain ⟨e', failed⟩ := fault.expansions
    refine ⟨e', .expand (.of_expansions failed), ?_⟩
    rw [Request.run, runs]
    exact expand_of_error failed
  | model fault =>
    obtain ⟨e', failed⟩ := fault.reportText
    refine ⟨e', .model (.of_reportText failed), ?_⟩
    rw [Request.run, runs]
    simp only [Run.model, failed]
    rfl

/-! ### Denied warnings -/

/-- The options of a run that allows warnings. -/
def ExpandOptions.allowing (x : ExpandOptions) : ExpandOptions :=
  { x with denyWarnings := false }

/-- How a run ends that is like another one but may deny warnings: like that, or, where that
succeeds, for the warnings. Whatever else it leaves is the same. -/
structure Run.DeniesAtMost (denying : Bool) (o allowing : Outcome) : Prop where
  /-- Both leave the same tree. -/
  tree : o.tree = allowing.tree
  /-- The output is the same. -/
  output : o.output = allowing.output
  /-- The messages are the same. -/
  messages : o.messages = allowing.messages
  /-- The result is the same, or a failure for the warnings in place of a success. -/
  result : o.result = allowing.result ∨
    denying = true ∧ allowing.result = .ok () ∧ ∃ n, n ≠ 0 ∧ o.result = .error (.deniedWarnings n)

/-- Warnings are denied at the end, when everything is stored. -/
theorem Run.Progress.finish_deniesAtMost (denying : Bool) (p : Progress) :
    DeniesAtMost denying (p.finish denying) (p.finish false) := by
  refine ⟨rfl, rfl, rfl, ?_⟩
  change p.verdict denying = p.verdict false ∨
    denying = true ∧ p.verdict false = .ok () ∧ ∃ n, n ≠ 0 ∧ p.verdict denying = .error _
  by_cases stale : p.stale = []
  · by_cases denied : denying = true ∧ p.warnings ≠ 0
    · refine .inr ⟨denied.1, ?_, p.warnings, denied.2, ?_⟩
      · simp [verdict, stale]
      · simp [verdict, stale, denied]
    · left
      rw [not_and, not_not] at denied
      cases denying <;> simp_all [verdict]
  · left
    simp [verdict, stale]

/-- A run is otherwise the same with and without denying warnings. -/
theorem Run.expand_deniesAtMost (lib : Library) (t : FileTree) (x : ExpandOptions) :
    DeniesAtMost x.denyWarnings (Run.expand lib t x) (Run.expand lib t x.allowing) := by
  have same : Delivery.of x.allowing = Delivery.of x := rfl
  cases results : expansions lib t x.input with
  | error e =>
    rw [expand_of_error results, expand_of_error (x := x.allowing) results]
    exact ⟨rfl, rfl, rfl, .inl rfl⟩
  | ok result =>
    obtain ⟨s, es⟩ := result
    cases delivered : Progress.deliverAll (.of x) s { tree := t } es with
    | mk p result =>
      cases result with
      | error e =>
        have failed (y : ExpandOptions) (input : y.input = x.input)
            (of : Delivery.of y = Delivery.of x) :
            Run.expand lib t y = ⟨p.tree, p.output, p.messages, .error e⟩ := by
          simp only [Run.expand, input, results, of, delivered]
        rw [failed x rfl rfl, failed x.allowing rfl same]
        exact ⟨rfl, rfl, rfl, .inl rfl⟩
      | ok =>
        rw [expand_of_delivered rfl results delivered,
          expand_of_delivered (x := x.allowing) same results delivered]
        exact p.finish_deniesAtMost x.denyWarnings

namespace Request

/-- A run with a fault in its settings or in any of its inputs fails and leaves the tree as it was;
and denying warnings makes a run fail that has some, but leaves the same tree.

It does not matter where in the list the input with the fault is, or what is wrong besides. -/
theorem run_keeps_tree :
    (∀ (r : Request) (e : Failure), r.noOp = false → r.Fault lib t e →
      ∃ e', r.Fault lib t e' ∧ r.run lib t = .failed t e') ∧
    ∀ (v : Nat) (x : ExpandOptions), x.noOp = false →
      DeniesAtMost x.denyWarnings (Request.run ⟨v, .expand x⟩ lib t)
        (Request.run ⟨v, .expand x.allowing⟩ lib t) := by
  constructor
  · intro r e runs fault
    exact fault.run runs
  · intro v x runs
    rw [run_expand runs, run_expand (x := x.allowing) runs]
    exact expand_deniesAtMost lib t x

/-- Two sources, one that there is a warning about and one that cannot be parsed. -/
def secondBroken : FileTree :=
  ⟨["w"], [(["w", "a.swift"], .file (.text "@Codable struct A \x7b\x7d")),
    (["w", "x"], .directory), (["w", "x", "b.swift"], .file (.text "class B \x7b"))]⟩

/-- Options that store the result of the first, but no warnings about it. -/
def storeFirst : ExpandOptions :=
  ⟨⟨["a.swift"], none, none⟩, some "x", false, true, false⟩

/-- A run whose second source is broken, and one with a warning that is denied. -/
theorem run_keeps_tree_second :
    (∃ e', Request.Fault .standard secondBroken ⟨0, .expand storeTwo⟩ e' ∧
      Request.run ⟨0, .expand storeTwo⟩ .standard secondBroken = .failed secondBroken e') ∧
    (DeniesAtMost true (Request.run ⟨0, .expand storeFirst⟩ .standard secondBroken)
      (Request.run ⟨0, .expand storeFirst.allowing⟩ .standard secondBroken) ∧
      (Request.run ⟨0, .expand storeFirst⟩ .standard secondBroken).result =
        .error (.deniedWarnings 1)) := by
  have isError : (CodableSynthesis.readSource "class B \x7b").isOk = false := by decide +kernel
  have fault : ∃ e, Request.Fault .standard secondBroken ⟨0, .expand storeTwo⟩ e := by
    cases unparsed : CodableSynthesis.readSource "class B \x7b" with
    | ok declarations => rw [unparsed] at isError; cases isError
    | error e =>
      have stands : StandsFor .standard secondBroken "x/b.swift" "x/b.swift" := .path (by decide)
      have text : secondBroken.readText "x/b.swift" = .ok "class B \x7b" := by decide
      exact ⟨_, .expand (.input (.source (by decide) stands (.unparsable text unparsed)))⟩
  obtain ⟨e, fault⟩ := fault
  exact ⟨run_keeps_tree.1 _ e rfl fault, run_keeps_tree.2 0 storeFirst rfl, by decide +kernel⟩

end Request

end CodableSynthesis
