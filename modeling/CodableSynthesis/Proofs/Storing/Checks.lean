import CodableSynthesis.Proofs.Storing.Inputs
import CodableSynthesis.Proofs.Storing.Results

/-!
Comparing results with what is there, right after they were stored.

A comparison reads everything again: the settings, the files that patterns stand for, the sources.
So it expands what the first run expanded only where that run left all of this as it was. It need
not have. A result may be stored over a source or over the settings, and it may be a file that a
pattern matches from then on. Where the same is read again, one thing is left that can make a
comparison fail: of several results that go to one file the last is there, whichever source they
came from.

* `Run.expansions_rereads` — where the same is read again, the same is expanded.
* `Run.Rereads.of_untouched` — the same is read again where nothing was stored over it.
* `Request.run_check` — what a comparison finds that follows a run with the same options, and when
  it succeeds: exactly if results that go to one file are one text, as long as the same is read
  again.
* `Request.run_check_outOfDate` — four ways to a comparison that fails: two results of one name, and
  a result in the place of a source, behind a pattern, and in the place of the settings.
-/

namespace CodableSynthesis

open FileTree Run

namespace Run

variable {lib : Library} {t t' : FileTree} {o : InputOptions} {s : Settings}
variable {path : String} {paths : List String} {es : List Expanded} {ws : List (String × String)}

/-- None of the paths leads to where one of some texts goes. -/
def Untouched (t : FileTree) (ws : List (String × String)) (paths : List String) : Prop :=
  ∀ path ∈ paths, ∀ w ∈ ws, t.follow w.1 ≠ t.follow path

instance (t : FileTree) (ws : List (String × String)) (paths : List String) :
    Decidable (Untouched t ws paths) :=
  inferInstanceAs (Decidable (∀ path ∈ paths, ∀ w ∈ ws, t.follow w.1 ≠ t.follow path))

/-- What a run reads is the same in two trees: every input stands for the same paths, and the
settings file and the sources, which stand at some paths, have the same texts. -/
structure Rereads (lib : Library) (t t' : FileTree) (o : InputOptions) (paths : List String) :
    Prop where
  /-- Every input stands for the same paths. -/
  resolved : ∀ input ∈ o.inputs, resolve lib t' input = resolve lib t input
  /-- The settings file and the sources have the same texts. -/
  texts : ∀ path ∈ o.config?.toList ++ paths, t'.readText path = t.readText path

theorem mapM_congr {α β ε : Type} {f g : α → Except ε β} {xs : List α}
    (same : ∀ x ∈ xs, f x = g x) : xs.mapM f = xs.mapM g := by
  induction xs with
  | nil => rfl
  | cons x xs ih =>
    obtain ⟨first, more⟩ := List.forall_mem_cons.mp same
    rw [List.mapM_cons, List.mapM_cons, first, ih more]

theorem settings_congr (same : ∀ path, o.config? = some path → t'.readText path = t.readText path) :
    settings lib t' o = settings lib t o := by
  rw [settings, settings]
  cases file : o.config? with
  | none => rfl
  | some path => simp only [readSettings, readFile, same path file]

theorem expandsTo_congr (same : ∀ path ∈ paths, t'.readText path = t.readText path)
    (expanded : List.Forall₂ (ExpandsTo t s) paths es) :
    List.Forall₂ (ExpandsTo t' s) paths es := by
  induction expanded with
  | nil => exact .nil
  | cons first _ ih =>
    obtain ⟨here, more⟩ := List.forall_mem_cons.mp same
    obtain ⟨path_eq, text, read, result⟩ := first
    exact .cons ⟨path_eq, text, here.trans read, result⟩ (ih more)

/-- Where the same is read again, the same is expanded. The paths to look at are those that the
sources were read from, whichever inputs stood for them. -/
theorem expansions_rereads (results : expansions lib t o = .ok (s, es))
    (same : Rereads lib t t' o (es.map (·.path))) : expansions lib t' o = .ok (s, es) := by
  obtain ⟨loaded, paths, resolved, expanded⟩ := expansions_eq_ok_iff.mp results
  have sources : es.map (·.path) = paths.flatten := paths_of_expandsTo expanded
  apply expansions_eq_ok_iff.mpr
  refine ⟨?_, paths, ?_, ?_⟩
  · rw [settings_congr, loaded]
    intro path file
    apply same.texts
    simp [file]
  · rw [mapM_congr same.resolved, resolved]
  · apply expandsTo_congr _ expanded
    intro path mem
    apply same.texts
    rw [sources]
    exact List.mem_append_right _ mem

/-- A run that has results could read its settings and its sources. -/
theorem exists_readText (results : expansions lib t o = .ok (s, es))
    (mem : path ∈ o.config?.toList ++ es.map (·.path)) : ∃ text, t.readText path = .ok text := by
  obtain ⟨loaded, paths, -, expanded⟩ := expansions_eq_ok_iff.mp results
  rcases List.mem_append.mp mem with config | source
  · cases settings_eq_ok_iff.mp loaded with
    | usual none => simp [none] at config
    | @file path' document _ file read =>
      obtain rfl : path = path' := by simpa [file] using config
      exact ⟨document, read⟩
  · obtain ⟨e, here, rfl⟩ := List.mem_map.mp source
    obtain ⟨-, text, read, -⟩ := expandsTo_of_mem expanded e here
    exact ⟨text, read⟩

/-- The patterns among the inputs stand for the same paths in two trees. Other inputs stand for
themselves in every tree. -/
def ResolvesAlike (lib : Library) (t t' : FileTree) (inputs : List String) : Prop :=
  ∀ input ∈ inputs, Glob.isPattern input.toList = true →
    resolve lib t' input = resolve lib t input

/-- The same is read again where the patterns stand for the same paths and nothing was stored over
what was read. -/
theorem Rereads.of_untouched (results : expansions lib t o = .ok (s, es)) (stored : Stored t ws t')
    (alike : ResolvesAlike lib t t' o.inputs)
    (away : Untouched t' ws (o.config?.toList ++ es.map (·.path))) :
    Rereads lib t t' o (es.map (·.path)) := by
  constructor
  case resolved =>
    intro input mem
    by_cases isPattern : Glob.isPattern input.toList = true
    · exact alike input mem isPattern
    · have isPath := Bool.eq_false_iff.mpr isPattern
      rw [resolve_of_path isPath, resolve_of_path isPath]
  case texts =>
    intro path mem
    obtain ⟨text, read⟩ := exists_readText results mem
    rw [read]
    exact stored.readText_frame (away path mem) read

end Run

/-- The options of a run that compares results in place of storing them. -/
def ExpandOptions.checking (x : ExpandOptions) : ExpandOptions :=
  { x with check := true }

/-- What a comparison finds in a tree that a run with the same options has left. That run gave the
results `es`, and stored them as `texts`. -/
structure Run.Checked (lib : Library) (before after : FileTree) (x : ExpandOptions)
    (directory : String) (es : List Expanded) (texts : List (String × String))
    (check : Outcome) : Prop where
  /-- The comparison changes nothing. -/
  unchanged : check.tree = after
  /-- At every output path stands the last of the texts that went to its place. -/
  found : ∀ w ∈ texts, ∃ text, LastAt after texts w.1 text ∧ after.readText w.1 = .ok text
  /-- So every output path has its own text if those that went to one place are one text. -/
  found_iff : (∀ w ∈ texts, after.readText w.1 = .ok w.2) ↔ OnePerPlace after texts
  /-- The comparison succeeds if it can read everything again, finds what it makes of that, and has
  no warnings that are denied. -/
  succeeds_iff : check.result = .ok () ↔
    ∃ s es, expansions lib after x.input = .ok (s, es) ∧
      (∀ w ∈ resultTexts s directory es, after.readText w.1 = .ok w.2) ∧
      (x.denyWarnings = true → warningCount es = 0)
  /-- Where it reads the same again, nothing can be out of date but a text that another took the
  place of. -/
  again_iff : Rereads lib before after x.input (es.map (·.path)) →
    (check.result = .ok () ↔ OnePerPlace after texts)
  /-- It does so where the patterns stand for the same paths, and no text was stored at one of the
  paths of the inputs or in the place of the settings. -/
  untouched_iff : ResolvesAlike lib before after x.input.inputs →
    Untouched after texts (x.input.config?.toList ++ es.map (·.path)) →
    (check.result = .ok () ↔ OnePerPlace after texts)
  /-- If it succeeds, it reports warnings and nothing that is out of date. -/
  reports : ∀ s es, expansions lib after x.input = .ok (s, es) → check.result = .ok () →
    check.messages = warningText es

namespace Request

variable {lib : Library} {t : FileTree} {v : Nat} {x : ExpandOptions} {directory : String}

/-- A comparison that follows a run with the same options. Whatever the inputs are, and whatever
patterns stand for and settings hold: the comparison changes nothing; and if it reads again what the
run has read, which it does if patterns stand for the same paths and the run stored nothing at a
path of an input or in the place of the settings, it succeeds exactly if the results that went to
one file are one text. -/
theorem run_check (runs : x.noOp = false) (stores : x.check = false)
    (out : x.out? = some directory)
    (succeeds : (Request.run ⟨v, .expand x⟩ lib t).result = .ok ()) :
    let after := (Request.run ⟨v, .expand x⟩ lib t).tree
    ∃ s es, expansions lib t x.input = .ok (s, es) ∧
      Checked lib t after x directory es (resultTexts s directory es)
        (Request.run ⟨v, .expand x.checking⟩ lib after) := by
  have of : Delivery.of x = .store directory := by rw [Delivery.of, out, stores]; rfl
  have of' : Delivery.of x.checking = .compare directory := by
    rw [Delivery.of, ExpandOptions.checking, out]
    rfl
  rw [run_expand runs] at succeeds ⊢
  intro after
  rw [run_expand (x := x.checking) runs]
  obtain ⟨s, es, results, stored, allowed⟩ := (expand_store_iff of).mp ⟨succeeds, rfl⟩
  have compares : (expand lib after x.checking).result = .ok () ↔ _ := expand_compare_iff of'
  have again_iff (same : Rereads lib t after x.input (es.map (·.path))) :
      (expand lib after x.checking).result = .ok () ↔
        OnePerPlace after (resultTexts s directory es) := by
    have again : expansions lib after x.checking.input = .ok (s, es) :=
      expansions_rereads results same
    rw [compares, ← stored.readText_iff]
    constructor
    · rintro ⟨s', es', again', read, -⟩
      rw [again] at again'
      cases again'
      exact read
    · intro read
      exact ⟨s, es, again, read, allowed⟩
  refine ⟨s, es, results, ?_⟩
  constructor
  case unchanged => exact expand_compare_tree of'
  case found =>
    intro w mem
    exact stored.readText_last mem
  case found_iff => exact stored.readText_iff
  case succeeds_iff => exact compares
  case again_iff => exact again_iff
  case untouched_iff =>
    intro alike away
    exact again_iff (.of_untouched results stored alike away)
  case reports =>
    intro s' es' again ok
    exact expand_messages (x := x.checking) again ok

/-- Two sources, one with a declaration to warn of. -/
def patternSources : FileTree :=
  ⟨["w"], [(["w", "a.swift"], .file (.text "@Codable struct A \x7b\x7d")),
    (["w", "b.swift"], .file (.text "class B \x7b\x7d"))]⟩

/-- Options that name them by a pattern and store their results in a directory beside them. -/
def storePattern : ExpandOptions :=
  ⟨⟨["*.swift"], none, none⟩, some "gen", false, false, false⟩

/-- The sources with their results. -/
def patternResults : FileTree :=
  ⟨["w"], patternSources.entries ++ [(["w", "gen"], .directory),
    (["w", "gen", "a.swift"], .file (.text "struct A \x7b\x7d")),
    (["w", "gen", "b.swift"], .file (.text "class B \x7b\x7d"))]⟩

/-- What was stored beside sources that a pattern names is found there: the pattern stands for the
same paths, no result is stored at one of them, and the comparison succeeds. -/
theorem run_check_pattern :
    let after := (Request.run ⟨0, .expand storePattern⟩ .standard patternSources).tree
    let check := Request.run ⟨0, .expand storePattern.checking⟩ .standard after
    (∃ s es, expansions .standard patternSources storePattern.input = .ok (s, es) ∧
      Checked .standard patternSources after storePattern "gen" es (resultTexts s "gen" es) check ∧
      Untouched after (resultTexts s "gen" es)
        (storePattern.input.config?.toList ++ es.map (·.path)) ∧
      OnePerPlace after (resultTexts s "gen" es)) ∧
    ResolvesAlike .standard patternSources after storePattern.input.inputs ∧
    check.result = .ok () := by
  have stored : (Request.run ⟨0, .expand storePattern⟩ .standard patternSources).result
      = .ok () := by decide +kernel
  have left : (Request.run ⟨0, .expand storePattern⟩ .standard patternSources).tree
      = patternResults := by decide +kernel
  have alike : ∀ input ∈ storePattern.input.inputs, Glob.isPattern input.toList = true →
      resolve .standard patternResults input = resolve .standard patternSources input := by
    decide +kernel
  have apart : ((expansions .standard patternSources storePattern.input).toOption.all
      fun (s, es) =>
        decide (Untouched patternResults (resultTexts s "gen" es)
          (storePattern.input.config?.toList ++ es.map (·.path)) ∧
          OnePerPlace patternResults (resultTexts s "gen" es))) = true := by decide +kernel
  obtain ⟨s, es, results, checked⟩ := run_check rfl rfl rfl stored
  rw [results] at apart
  rw [← left] at alike apart
  obtain ⟨away, one⟩ := of_decide_eq_true apart
  exact ⟨⟨s, es, results, checked, away, one⟩, alike, (checked.untouched_iff alike away).mpr one⟩

/-- Two sources of one name. -/
def sameName : FileTree :=
  ⟨["w"], [(["w", "x"], .directory), (["w", "x", "a.swift"], .file (.text "class A \x7b\x7d")),
    (["w", "y"], .directory), (["w", "y", "a.swift"], .file (.text "class B \x7b\x7d"))]⟩

/-- Options that store the results of both at one place. -/
def storeSameName : ExpandOptions :=
  ⟨⟨["x/a.swift", "y/a.swift"], none, none⟩, some "gen", false, false, false⟩

/-- Two sources, the name of one being that of the result of the other. -/
def resultNamed : FileTree :=
  ⟨["w"], [(["w", "a.swift"], .file (.text "class A \x7b\x7d")),
    (["w", "a+G.swift"], .file (.text "class B \x7b\x7d")),
    (["w", "s.json"], .file (.text "[4, \"+G\"]"))]⟩

/-- Options that store the result of one over the source of the other. -/
def storeResultNamed : ExpandOptions :=
  ⟨⟨["a.swift", "a+G.swift"], some "s.json", none⟩, some ".", false, false, false⟩

/-- A source, and settings that put a suffix into the name of its result. -/
def matched : FileTree :=
  ⟨["w"], [(["w", "a.swift"], .file (.text "class A \x7b\x7d")),
    (["w", "s.json"], .file (.text "[4, \"+G\"]"))]⟩

/-- Options with a pattern that the result matches, too. -/
def storeMatched : ExpandOptions :=
  ⟨⟨["*.swift"], some "s.json", none⟩, some ".", false, false, false⟩

/-- A source of the name that settings have elsewhere. -/
def settingsNamed : FileTree :=
  ⟨["w"], [(["w", "x"], .directory), (["w", "x", "s.json"], .file (.text "class A \x7b\x7d")),
    (["w", "s.json"], .file (.text "[]"))]⟩

/-- Options that store its result over the settings. -/
def storeSettingsNamed : ExpandOptions :=
  ⟨⟨["x/s.json"], some "s.json", none⟩, some ".", false, false, false⟩

/-- What was just stored can be out of date: where two results go to one place, where a result takes
the place of a source, where it matches a pattern, and where it takes the place of the settings. -/
theorem run_check_outOfDate :
    ((Request.run ⟨0, .expand storeSameName⟩ .standard sameName).result = .ok () ∧
      (Request.run ⟨0, .expand storeSameName.checking⟩ .standard
        (Request.run ⟨0, .expand storeSameName⟩ .standard sameName).tree).result
          = .error (.outOfDate 1)) ∧
    ((Request.run ⟨0, .expand storeResultNamed⟩ .standard resultNamed).result = .ok () ∧
      (Request.run ⟨0, .expand storeResultNamed.checking⟩ .standard
        (Request.run ⟨0, .expand storeResultNamed⟩ .standard resultNamed).tree).result
          = .error (.outOfDate 1)) ∧
    ((Request.run ⟨0, .expand storeMatched⟩ .standard matched).result = .ok () ∧
      (Request.run ⟨0, .expand storeMatched.checking⟩ .standard
        (Request.run ⟨0, .expand storeMatched⟩ .standard matched).tree).result
          = .error (.outOfDate 1)) ∧
    (Request.run ⟨0, .expand storeSettingsNamed⟩ .standard settingsNamed).result = .ok () ∧
      (Request.run ⟨0, .expand storeSettingsNamed.checking⟩ .standard
        (Request.run ⟨0, .expand storeSettingsNamed⟩ .standard settingsNamed).tree).result.isOk
          = false := by
  decide +kernel

end Request

end CodableSynthesis
