import CodableSynthesis.Proofs.Storing.Inputs
import CodableSynthesis.Proofs.Storing.Results

/-!
What a comparison finds. It succeeds where all results are up to date, input by input, whatever else
is in the tree and in whatever order the inputs come; and it changes nothing.

* `Run.PathUpToDate`: the result of the source at one path is up to date.
* `Run.UpToDate`: all results of some options are.
* `Run.expand_upToDate_iff`: when a comparison succeeds.
* `Request.run_compares`: the same of a request, which leaves the tree as it is.

`UpToDate` does not mention a run. It is stated input by input, with the terms of `Inputs`, so that
a reader can check a tree against it: settings load, every input stands for something, and for each
path the file at its output path is the expansion of what is read there. With `--deny-warnings`, an
expansion must not have any.
-/

namespace CodableSynthesis

open Run

namespace Run

variable {lib : Library} {t : FileTree} {x : ExpandOptions} {s : Settings}
variable {directory : String} {es : List Expanded}

/-- The result of the source at a path is up to date: the source can be read and parsed, the text of
the file that its result goes to is its expansion, and no warning about it is denied. Two sources of
one output path are both up to date only if they have one expansion. -/
def PathUpToDate (t : FileTree) (x : ExpandOptions) (s : Settings) (directory path : String) :
    Prop :=
  ∃ text result, t.readText path = .ok text ∧ expandSource text s.indentWidth = .ok result ∧
    t.readText (s.outputPath directory path) = .ok result.source ∧
    (x.denyWarnings = true → result.diagnostics = [])

/-- All results of some options are up to date: there are settings, every input stands for
something, and the result of all it stands for is up to date. -/
structure UpToDate (lib : Library) (t : FileTree) (x : ExpandOptions) (s : Settings)
    (directory : String) : Prop where
  /-- There are settings. -/
  loads : Loads lib t x.input s
  /-- Every input stands for something. -/
  resolved : ∀ input ∈ x.input.inputs, ∀ e, ¬ Unresolved lib t input e
  /-- What it stands for is up to date. -/
  paths : ∀ input ∈ x.input.inputs, ∀ path, StandsFor lib t input path →
    PathUpToDate t x s directory path

theorem warningCount_eq_zero_iff :
    warningCount es = 0 ↔ ∀ e ∈ es, e.result.diagnostics = [] := by
  induction es with
  | nil => exact ⟨fun _ => nofun, fun _ => rfl⟩
  | cons e es ih =>
    rw [warningCount, Nat.add_eq_zero_iff, List.length_eq_zero_iff, ih, List.forall_mem_cons]

/-- Where results are up to date there is no fault. -/
theorem UpToDate.no_fault (h : UpToDate lib t x s directory) {e : Failure} :
    ¬ Fault lib t x.input e := by
  intro fault
  cases fault with
  | settings unloaded =>
    have loaded := settings_eq_ok_iff.mpr h.loads
    rw [settings_eq_error_iff.mpr unloaded] at loaded
    cases loaded
  | input bad =>
    cases bad with
    | unresolved mem unresolved => exact h.resolved _ mem _ unresolved
    | source mem stands bad =>
      obtain ⟨text, result, read, expanded, -, -⟩ := h.paths _ mem _ stands
      cases bad with
      | unreadable unread =>
        rw [read] at unread
        cases unread
      | unparsable read' unparsed =>
        rw [read] at read'
        cases read'
        rw [expandSource_eq_error_iff.mpr unparsed] at expanded
        cases expanded

/-- Results that are there, and are what was stored, are up to date. -/
theorem upToDate_of_expansions (results : expansions lib t x.input = .ok (s, es))
    (stored : ∀ w ∈ resultTexts s directory es, t.readText w.1 = .ok w.2)
    (allowed : x.denyWarnings = true → warningCount es = 0) : UpToDate lib t x s directory := by
  obtain ⟨loaded, paths, resolved, expanded⟩ := expansions_eq_ok_iff.mp results
  refine ⟨settings_eq_ok_iff.mp loaded, ?_, ?_⟩
  · intro input mem e unresolved
    obtain ⟨_, -, done⟩ := (mem_of_mapM resolved).1 input mem
    rw [resolve_eq_error_iff.mpr unresolved] at done
    cases done
  · intro input mem path stands
    have there := (mem_flatten_iff resolved).mpr ⟨input, mem, stands⟩
    obtain ⟨e, here, rfl, text, read, result⟩ := (mem_of_forall₂ expanded).1 path there
    have goes : (s.outputPath directory e.path, e.result.source) ∈ resultTexts s directory es :=
      List.mem_map.mpr ⟨e, here, rfl⟩
    have found := stored _ goes
    refine ⟨text, e.result, read, result, found, ?_⟩
    intro denied
    exact warningCount_eq_zero_iff.mp (allowed denied) e here

/-- Results that are up to date are there, and are what is stored. -/
theorem UpToDate.expansions (h : UpToDate lib t x s directory) :
    ∃ es, Run.expansions lib t x.input = .ok (s, es) ∧
      (∀ w ∈ resultTexts s directory es, t.readText w.1 = .ok w.2) ∧
      (x.denyWarnings = true → warningCount es = 0) := by
  cases results : Run.expansions lib t x.input with
  | error e => exact absurd (Fault.of_expansions results) h.no_fault
  | ok result =>
    obtain ⟨s', es⟩ := result
    obtain ⟨loaded, paths, resolved, expanded⟩ := expansions_eq_ok_iff.mp results
    obtain rfl : s = s' := by
      rw [settings_eq_ok_iff.mpr h.loads] at loaded
      cases loaded
      rfl
    have upToDate : ∀ e ∈ es, t.readText (s.outputPath directory e.path) = .ok e.result.source ∧
        (x.denyWarnings = true → e.result.diagnostics = []) := by
      intro e mem
      obtain ⟨path, from_, rfl, text, read, result⟩ := (mem_of_forall₂ expanded).2 e mem
      obtain ⟨input, given, stands⟩ := (mem_flatten_iff resolved).mp from_
      obtain ⟨text', result', read', expands, stored, allowed⟩ := h.paths input given _ stands
      rw [read] at read'
      cases read'
      rw [result] at expands
      cases expands
      exact ⟨stored, allowed⟩
    refine ⟨es, rfl, ?_, ?_⟩
    · intro w mem
      obtain ⟨e, here, rfl⟩ := List.mem_map.mp mem
      exact (upToDate e here).1
    · intro denied
      exact warningCount_eq_zero_iff.mpr fun e here => (upToDate e here).2 denied

/-- A comparison succeeds where all results are up to date. -/
theorem expand_upToDate_iff (of : Delivery.of x = .compare directory) :
    (expand lib t x).result = .ok () ↔ ∃ s, UpToDate lib t x s directory := by
  rw [expand_compare_iff of]
  constructor
  · rintro ⟨s, es, results, stored, allowed⟩
    exact ⟨s, upToDate_of_expansions results stored allowed⟩
  · rintro ⟨s, upToDate⟩
    exact ⟨s, upToDate.expansions⟩

end Run

namespace Request

variable {lib : Library} {t : FileTree} {v : Nat} {x : ExpandOptions} {directory : String}

/-- A comparison changes nothing, and succeeds if and only if all results are up to date. There is
no condition on the inputs: they may be patterns, stand for a file twice, or share an output
path. -/
theorem run_compares (runs : x.noOp = false) (checks : x.check = true)
    (out : x.out? = some directory) :
    let check := Request.run ⟨v, .expand x⟩ lib t
    check.tree = t ∧ (check.result = .ok () ↔ ∃ s, UpToDate lib t x s directory) := by
  have of : Delivery.of x = .compare directory := by rw [Delivery.of, out, checks]; rfl
  rw [run_expand runs]
  exact ⟨expand_compare_tree of, expand_upToDate_iff of⟩

/-- A source, settings, and the result that they give. -/
def oneResult : FileTree :=
  ⟨["w"], [(["w", "a.swift"], .file (.text "@Codable struct A \x7b\x7d")),
    (["w", "gen"], .directory), (["w", "gen", "a+G.swift"], .file (.text "struct A \x7b\x7d")),
    (["w", "s.json"], .file (.text "[4, \"+G\"]"))]⟩

/-- Options that compare the two. -/
def compareOne : ExpandOptions :=
  ⟨⟨["a.swift"], some "s.json", none⟩, some "gen", true, false, false⟩

/-- The theorem at one result, stored under a name with a suffix. -/
theorem run_compares_one :
    let check := Request.run ⟨0, .expand compareOne⟩ .standard oneResult
    (check.tree = oneResult ∧
      (check.result = .ok () ↔ ∃ s, UpToDate .standard oneResult compareOne s "gen")) ∧
    check.result = .ok () :=
  ⟨run_compares rfl rfl rfl, by decide +kernel⟩

end Request

end CodableSynthesis
