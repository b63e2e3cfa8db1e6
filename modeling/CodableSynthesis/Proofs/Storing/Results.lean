import CodableSynthesis.Proofs.Storing.Deliveries
import CodableSynthesis.Proofs.Storing.Directory
import Mathlib.Data.List.Perm.Basic

/-!
What a run that stores its results leaves. All inputs are read before anything is stored, and inputs
of different names go to different places; so each result is that of the input as it was, even where
it takes the place of an input, and the order of the inputs does not matter.

* `Run.expansions_literal_iff`: the results of inputs that are no patterns.
* `Run.nodup_resultNames`: inputs of different names have results of different names.
* `Run.ResultsStored`: what is left of a tree.
* `Request.run_stores`: the tree behind a run.

The inputs are literal paths here, so that there is nothing to match. A path whose text looks like a
pattern is taken for one, and is no literal input in this sense.

Three things are put together: that all results are there before the first is stored, from
`Deliveries`; that they go to names in one directory which differ, from `Names`; and that storing
under such names puts texts side by side, from `Directory`.
-/

namespace CodableSynthesis

open CodableSynthesis.Path (IsName)
open FileTree

namespace Run

variable {lib : Library} {t t' : FileTree} {o : InputOptions} {s : Settings}
variable {path directory : String} {e : Expanded} {es : List Expanded}

/-! ### Literal inputs -/

theorem mapM_resolve_literal {inputs : List String}
    (literal : ∀ p ∈ inputs, Glob.isPattern p.toList = false) :
    inputs.mapM (resolve lib t) = .ok (inputs.map fun p => [p]) := by
  refine mapM_eq_ok_iff.mpr (List.forall₂_map_right_iff.mpr (List.forall₂_same.mpr ?_))
  intro p mem
  rw [resolve, if_neg (by simp [literal p mem])]

/-- Inputs that are no patterns stand for themselves. -/
theorem expansions_literal_iff (literal : ∀ p ∈ o.inputs, Glob.isPattern p.toList = false) :
    expansions lib t o = .ok (s, es) ↔
      settings lib t o = .ok s ∧ List.Forall₂ (ExpandsTo t s) o.inputs es := by
  have themselves : (o.inputs.map fun p => [p]).flatten = o.inputs :=
    List.flatMap_singleton' o.inputs
  rw [expansions_eq_ok_iff, mapM_resolve_literal literal]
  constructor
  · rintro ⟨loaded, _, ⟨⟩, expanded⟩
    rw [themselves] at expanded
    exact ⟨loaded, expanded⟩
  · rintro ⟨loaded, expanded⟩
    exact ⟨loaded, _, rfl, by rwa [themselves]⟩

theorem paths_of_expandsTo {paths : List String} (h : List.Forall₂ (ExpandsTo t s) paths es) :
    es.map (·.path) = paths := by
  induction h with
  | nil => rfl
  | cons first _ ih => rw [List.map_cons, first.path_eq, ih]

theorem expandsTo_of_mem {paths : List String} (h : List.Forall₂ (ExpandsTo t s) paths es) :
    ∀ e ∈ es, ExpandsTo t s e.path e := by
  induction h with
  | nil => nofun
  | cons first _ ih => exact List.forall_mem_cons.mpr ⟨⟨rfl, first.path_eq ▸ first.expanded⟩, ih⟩

theorem ExpandsTo.fileName (h : ExpandsTo t s path e) :
    ∃ name, Path.fileName? e.path.toList = some name := by
  obtain ⟨rfl, text, read, -⟩ := h
  obtain ⟨-, place, led, -⟩ := readText_eq_ok_iff.mp read
  exact (follow_eq_ok_iff.mp led).fileName

/-! ### Names of results

The paths that results are stored at, as names in the directory. -/

/-- The name that a result is stored under. -/
def resultName (s : Settings) (e : Expanded) : List Char :=
  s.outputName ((Path.fileName? e.path.toList).getD [])

/-- The names of some results, each with its text. -/
def resultNames (s : Settings) (es : List Expanded) : List (List Char × String) :=
  es.map fun e => (resultName s e, e.result.source)

/-- Every result comes from an input that has a name. -/
def Named (es : List Expanded) : Prop :=
  ∀ e ∈ es, ∃ name, Path.fileName? e.path.toList = some name

theorem named_of_expandsTo {paths : List String} (h : List.Forall₂ (ExpandsTo t s) paths es) :
    Named es := by
  induction h with
  | nil => nofun
  | cons first _ ih => exact List.forall_mem_cons.mpr ⟨first.fileName, ih⟩

theorem resultTexts_eq_pathsIn (named : Named es) :
    resultTexts s directory es = pathsIn directory (resultNames s es) := by
  rw [resultTexts, pathsIn, resultNames, List.map_map]
  refine List.map_congr_left fun e mem => ?_
  obtain ⟨name, last⟩ := named e mem
  rw [Settings.outputPath_eq last]
  simp [resultName, last, pathIn]

theorem isName_resultNames (plain : '/' ∉ s.outputSuffix.toList) (named : Named es) :
    ∀ w ∈ resultNames s es, IsName w.1 := by
  intro w mem
  obtain ⟨e, here, rfl⟩ := List.mem_map.mp mem
  obtain ⟨name, last⟩ := named e here
  rw [resultName, last]
  exact Settings.isName_outputName plain (Path.isName_of_fileName? last)

/-- Inputs of different names have results of different names. -/
theorem nodup_resultNames (named : Named es)
    (distinct : es.Pairwise fun e e' =>
      Path.fileName? e.path.toList ≠ Path.fileName? e'.path.toList) :
    ((resultNames s es).map (·.1)).Nodup := by
  rw [resultNames, List.map_map, List.Nodup, List.pairwise_map]
  refine distinct.imp_of_mem fun {e e'} mem mem' differ same => differ ?_
  obtain ⟨name, last⟩ := named e mem
  obtain ⟨name', last'⟩ := named e' mem'
  have one : s.outputName name = s.outputName name' := by
    simpa [resultName, last, last'] using same
  rw [last, last', Settings.outputName_injective one]

/-- The number of warnings does not depend on the order. -/
theorem warningCount_perm {es' : List Expanded} (same : es.Perm es') :
    warningCount es' = warningCount es := by
  induction same with
  | nil => rfl
  | cons e _ ih => rw [warningCount, warningCount, ih]
  | swap e e' es =>
    simp only [warningCount]
    omega
  | trans _ _ ih ih' => rw [ih', ih]

theorem pathIn_injective {name name' : List Char} (h : IsName name) (h' : IsName name')
    {place : Place} (led : LeadsTo t place (pathIn directory name))
    (led' : LeadsTo t place (pathIn directory name')) : name = name' := by
  obtain ⟨base, made, reaches⟩ := reaches_of_follow h led
  have here := reaches name' h'
  rw [led'] at here
  cases here
  exact (Place.below_injective made).symm

/-- The result of every input can be read where it was stored. -/
theorem Stored.readText_results (stored : Stored t (resultTexts s directory es) t')
    (plain : '/' ∉ s.outputSuffix.toList) (named : Named es)
    (distinct : ((resultNames s es).map (·.1)).Nodup) :
    ∀ w ∈ resultTexts s directory es, t'.readText w.1 = .ok w.2 := by
  apply stored.readText_iff.mpr
  rw [resultTexts_eq_pathsIn named] at stored ⊢
  intro w mem w' mem' same
  obtain ⟨-, place, led⟩ := stored.leads w mem
  have led' : LeadsTo t' place w'.1 := same.symm.trans led
  obtain ⟨v, here, rfl⟩ := List.mem_map.mp mem
  obtain ⟨v', here', rfl⟩ := List.mem_map.mp mem'
  have isName := isName_resultNames plain named
  have one : v.1 = v'.1 := pathIn_injective (isName v here) (isName v' here') led led'
  rw [List.inj_on_of_nodup_map distinct here here' one]

end Run

open Run

/-- The options of a run with other inputs, or the same in another order. -/
def ExpandOptions.withInputs (x : ExpandOptions) (inputs : List String) : ExpandOptions :=
  { x with input := { x.input with inputs := inputs } }

/-- A tree has the results of some inputs stored in a directory, and is otherwise as it was: each
result is that of the text its input had before. An input whose own file was written over is no
exception. -/
structure Run.ResultsStored (t after : FileTree) (s : Settings) (directory : String)
    (inputs : List String) : Prop where
  /-- At the output path of every input is the expansion of the text that it had. -/
  results : ∀ p ∈ inputs, ∃ text result, t.readText p = .ok text ∧
    expandSource text s.indentWidth = .ok result ∧
    after.readText (s.outputPath directory p) = .ok result.source
  /-- Files that no output path leads to are the files that were there. -/
  others : ∀ place, (∀ p ∈ inputs, ¬ LeadsTo after place (s.outputPath directory p)) →
    ∀ content, after.get? place = some (.file content) ↔ t.get? place = some (.file content)
  /-- No file and no directory is missing. -/
  preserved : t.Preserved after

namespace Request

variable {lib : Library} {t : FileTree} {v : Nat} {x : ExpandOptions} {s : Settings}
variable {directory : String}

theorem run_expand (runs : x.noOp = false) :
    Request.run ⟨v, .expand x⟩ lib t = Run.expand lib t x := by
  rw [Request.run, Request.noOp]
  simp only [runs]
  rfl

/-- A run that stores the results of inputs with different names: each result is stored, also where
it takes the place of an input, nothing else changes, and in any order the same tree is left.

That the run succeeds is assumed; it may fail to store a result, for instance where a directory
stands in its place. The other order then succeeds, too. -/
theorem run_stores (runs : x.noOp = false) (stores : x.check = false)
    (out : x.out? = some directory) (loaded : Run.settings lib t x.input = .ok s)
    (plain : '/' ∉ s.outputSuffix.toList)
    (literal : ∀ p ∈ x.input.inputs, Glob.isPattern p.toList = false)
    (distinct : x.input.inputs.Pairwise fun p q =>
      Path.fileName? p.toList ≠ Path.fileName? q.toList)
    (succeeds : (Request.run ⟨v, .expand x⟩ lib t).result = .ok ()) :
    let after := (Request.run ⟨v, .expand x⟩ lib t).tree
    ResultsStored t after s directory x.input.inputs ∧
    ∀ inputs, inputs.Perm x.input.inputs →
      let other := Request.run ⟨v, .expand (x.withInputs inputs)⟩ lib t
      other.result = .ok () ∧ other.tree.workingDirectory = after.workingDirectory ∧
        ∀ place, other.tree.get? place = after.get? place := by
  have of : Run.Delivery.of x = .store directory := by rw [Run.Delivery.of, out, stores]; rfl
  rw [run_expand runs] at succeeds ⊢
  obtain ⟨s', es, results, stored, allowed⟩ := (expand_store_iff of).mp ⟨succeeds, rfl⟩
  obtain ⟨loaded', expanded⟩ := (expansions_literal_iff literal).mp results
  obtain rfl : s = s' := by
    rw [loaded] at loaded'
    cases loaded'
    rfl
  have named := named_of_expandsTo expanded
  have paths := paths_of_expandsTo expanded
  have differ : ((resultNames s es).map (·.1)).Nodup := by
    rw [← paths, List.pairwise_map] at distinct
    exact nodup_resultNames named distinct
  intro after
  refine ⟨⟨?_, ?_, stored.preserves⟩, ?_⟩
  · intro p mem
    obtain ⟨e, here, rfl⟩ := List.mem_map.mp (paths ▸ mem)
    obtain ⟨-, text, read, result⟩ := expandsTo_of_mem expanded e here
    -- Different names make different output paths, so no later result takes the place of this one.
    have stands : (s.outputPath directory e.path, e.result.source) ∈ resultTexts s directory es :=
      List.mem_map.mpr ⟨e, here, rfl⟩
    have kept := stored.readText_results plain named differ _ stands
    exact ⟨text, e.result, read, result, kept⟩
  · intro place away
    apply stored.file_iff
    intro w mem
    obtain ⟨e, here, rfl⟩ := List.mem_map.mp mem
    exact away e.path (paths ▸ List.mem_map_of_mem here)
  · intro inputs same
    -- The other order reads the same sources, so it has the same results in that order.
    obtain ⟨es', expanded', same'⟩ := List.perm_comp_forall₂ same expanded
    have literal' : ∀ p ∈ inputs, Glob.isPattern p.toList = false :=
      fun p mem => literal p (same.mem_iff.mp mem)
    have named' : Named es' := fun e mem => named e (same'.mem_iff.mp mem)
    rw [resultTexts_eq_pathsIn named] at stored
    obtain ⟨t', stored', agree⟩ := stored_perm (isName_resultNames plain named) differ
      (same'.symm.map _) stored
    rw [← resultNames, ← resultTexts_eq_pathsIn named'] at stored'
    have allowed' : (x.withInputs inputs).denyWarnings = true → warningCount es' = 0 := by
      intro denied
      rw [warningCount_perm same'.symm]
      exact allowed denied
    have results' : expansions lib t (x.withInputs inputs).input = .ok (s, es') :=
      (expansions_literal_iff literal').mpr ⟨loaded, expanded'⟩
    obtain ⟨ok, tree⟩ := (expand_store_iff (x := x.withInputs inputs) of).mpr
      ⟨s, es', results', stored', allowed'⟩
    rw [run_expand (x := x.withInputs inputs) runs]
    refine ⟨ok, ?_⟩
    rw [tree]
    have here := stored.keepsDirectories.workingDirectory
    have here' := stored'.keepsDirectories.workingDirectory
    exact ⟨here'.trans here.symm, agree⟩

/-- Two sources, one of them in a directory. -/
def twoSources : FileTree :=
  ⟨["w"], [(["w", "a.swift"], .file (.text "@Codable class A \x7b\x7d")),
    (["w", "x"], .directory), (["w", "x", "b.swift"], .file (.text "class B \x7b\x7d"))]⟩

/-- Options that store the results of both in that directory, one of them over its source. -/
def storeTwo : ExpandOptions :=
  ⟨⟨["a.swift", "x/b.swift"], none, none⟩, some "x", false, false, false⟩

/-- The theorem at a run that stores one of two results over its source. -/
theorem run_stores_over_source :
    let after := (Request.run ⟨0, .expand storeTwo⟩ .standard twoSources).tree
    ResultsStored twoSources after {} "x" storeTwo.input.inputs ∧
    ∀ inputs, inputs.Perm storeTwo.input.inputs →
      let other := Request.run ⟨0, .expand (storeTwo.withInputs inputs)⟩ .standard twoSources
      other.result = .ok () ∧ other.tree.workingDirectory = after.workingDirectory ∧
        ∀ place, other.tree.get? place = after.get? place :=
  run_stores rfl rfl rfl rfl (by decide) (by decide +kernel) (by decide +kernel)
    (by decide +kernel)

end Request

end CodableSynthesis
