import CodableSynthesis.Proofs.Storing.Writes
import CodableSynthesis.Run.Request
import Mathlib.Data.List.Forall2

/-!
What a run of an expansion comes to. All results are there before the first is delivered; delivering
them then only stores texts one after the other, or only compares them with what is there.

* `Run.ExpandsTo`: the expansion of what stands at a path.
* `Run.expansions_eq_ok_iff`: which results a run delivers.
* `Run.Progress.deliverAll_store_iff`, `Run.Progress.deliverAll_compare_iff`: the loop over the
  results.
* `Run.expand_store_iff`: when a run that stores succeeds, and what tree it leaves.
* `Run.expand_compare_iff`: when a run that compares succeeds.

The `run` of `ExpandOut` collects the expansions of all sources first, in parallel, and fails if one
of them does. Then it goes through them in order. So a run is a list of results and a loop, and each
has its own lemma here; later modules do not unfold either.

The loop has two modes, told apart by `Delivery`. What they share, the warnings and the messages, is
proved once for both.
-/

namespace CodableSynthesis.Run

/-- A function that may fail succeeds on a list where it does on every member. -/
theorem mapM_eq_ok_iff {α β ε : Type} {f : α → Except ε β} {xs : List α} {ys : List β} :
    xs.mapM f = .ok ys ↔ List.Forall₂ (fun x y => f x = .ok y) xs ys := by
  induction xs generalizing ys with
  | nil =>
    rw [List.mapM_nil, List.forall₂_nil_left_iff]
    exact ⟨fun same => by cases same; rfl, fun same => by cases same; rfl⟩
  | cons x xs ih =>
    rw [List.mapM_cons]
    constructor
    · intro all
      cases first : f x with
      | error e =>
        rw [first] at all
        cases all
      | ok y =>
        rw [first] at all
        cases more : xs.mapM f with
        | error e =>
          rw [more] at all
          cases all
        | ok ys =>
          rw [more] at all
          cases all
          exact .cons first (ih.mp more)
    · rintro ⟨⟩
      next first more =>
      rw [first, ih.mpr more]
      rfl

variable {lib : Library} {t t' : FileTree} {o : InputOptions}
  {s : Settings} {path directory : String}
variable {e : Expanded} {es : List Expanded} {p p' : Progress}

/-! ### Results

From inputs to results. Everything that may fail here fails before anything is stored. -/

/-- The expansion of what stands at a path. -/
structure ExpandsTo (t : FileTree) (s : Settings) (path : String) (e : Expanded) : Prop where
  /-- The result belongs to the path. -/
  path_eq : e.path = path
  /-- It is that of the text that can be read there. -/
  expanded : ∃ text, t.readText path = .ok text ∧ expandSource text s.indentWidth = .ok e.result

/-- A source is read where a text can be. -/
theorem readSource_eq_ok_iff {source : Source} :
    readSource t path = .ok source ↔ source.path = path ∧ t.readText path = .ok source.text := by
  obtain ⟨path', text⟩ := source
  rw [readSource, readFile]
  cases t.readText path with
  | error e => exact ⟨nofun, fun h => nomatch h.2⟩
  | ok text' =>
    constructor
    · rintro ⟨⟩
      exact ⟨rfl, rfl⟩
    · rintro ⟨rfl, ⟨⟩⟩
      rfl

/-- A source is expanded with the indentation width of the settings. -/
theorem expandOne_eq_ok_iff {source : Source} :
    expandOne s source = .ok e ↔
      e.path = source.path ∧ expandSource source.text s.indentWidth = .ok e.result := by
  obtain ⟨path, result⟩ := e
  rw [expandOne]
  cases expandSource source.text s.indentWidth with
  | error e => exact ⟨nofun, fun h => nomatch h.2⟩
  | ok result' =>
    constructor
    · rintro ⟨⟩
      exact ⟨rfl, rfl⟩
    · rintro ⟨rfl, ⟨⟩⟩
      rfl

/-- Reading and expanding, one after the other. -/
theorem expandsTo_iff :
    ExpandsTo t s path e ↔
      ∃ source, readSource t path = .ok source ∧ expandOne s source = .ok e := by
  constructor
  · rintro ⟨same, text, read, expanded⟩
    exact ⟨⟨path, text⟩, readSource_eq_ok_iff.mpr ⟨rfl, read⟩,
      expandOne_eq_ok_iff.mpr ⟨same, expanded⟩⟩
  · rintro ⟨source, read, one⟩
    obtain ⟨rfl, read⟩ := readSource_eq_ok_iff.mp read
    obtain ⟨same, expanded⟩ := expandOne_eq_ok_iff.mp one
    exact ⟨same, source.text, read, expanded⟩

/-- All sources are read before one of them is expanded, which makes no difference to the
results. -/
theorem mapM_expandsTo {paths : List String} :
    (∃ read, paths.mapM (readSource t) = .ok read ∧ read.mapM (expandOne s) = .ok es) ↔
      List.Forall₂ (ExpandsTo t s) paths es := by
  induction paths generalizing es with
  | nil =>
    constructor
    · rintro ⟨read, ⟨⟩, ⟨⟩⟩
      exact .nil
    · rintro ⟨⟩
      exact ⟨[], rfl, rfl⟩
  | cons path paths ih =>
    constructor
    · rintro ⟨read, reads, expands⟩
      obtain ⟨⟩ | ⟨first, more⟩ := mapM_eq_ok_iff.mp reads
      obtain ⟨⟩ | ⟨first', more'⟩ := mapM_eq_ok_iff.mp expands
      exact .cons (expandsTo_iff.mpr ⟨_, first, first'⟩)
        (ih.mp ⟨_, mapM_eq_ok_iff.mpr more, mapM_eq_ok_iff.mpr more'⟩)
    · rintro ⟨⟩
      next first more =>
      obtain ⟨source, read, one⟩ := expandsTo_iff.mp first
      obtain ⟨sources, reads, expands⟩ := ih.mpr more
      exact ⟨source :: sources, mapM_eq_ok_iff.mpr (.cons read (mapM_eq_ok_iff.mp reads)),
        mapM_eq_ok_iff.mpr (.cons one (mapM_eq_ok_iff.mp expands))⟩

/-- A run delivers the expansions of what its inputs stand for, in their order. -/
theorem expansions_eq_ok_iff :
    expansions lib t o = .ok (s, es) ↔ settings lib t o = .ok s ∧
      ∃ paths, o.inputs.mapM (resolve lib t) = .ok paths ∧
        List.Forall₂ (ExpandsTo t s) paths.flatten es := by
  simp only [← mapM_expandsTo]
  rw [expansions, sources]
  cases settings lib t o with
  | error e => exact ⟨nofun, fun h => nomatch h.1⟩
  | ok s' =>
    cases o.inputs.mapM (resolve lib t) with
    | error e => exact ⟨nofun, fun ⟨_, _, h, _⟩ => nomatch h⟩
    | ok paths =>
      constructor
      · intro delivered
        cases reads : paths.flatten.mapM (readSource t) with
        | error e =>
          simp only [bind, Except.bind, reads] at delivered
          cases delivered
        | ok read =>
          simp only [bind, Except.bind, reads] at delivered
          cases expands : read.mapM (expandOne s') with
          | error e =>
            rw [expands] at delivered
            cases delivered
          | ok es' =>
            rw [expands] at delivered
            cases delivered
            exact ⟨rfl, paths, rfl, read, reads, expands⟩
      · rintro ⟨⟨⟩, _, ⟨⟩, read, reads, expands⟩
        simp only [bind, Except.bind, reads, expands]
        rfl

/-! ### Deliveries

One result after the other. `Progress` is what the loop carries along: the tree, the warnings, what
is out of date, and what was reported. -/

/-- The paths that results are stored at, each with its text. -/
def resultTexts (s : Settings) (directory : String) (es : List Expanded) :
    List (String × String) :=
  es.map fun e => (s.outputPath directory e.path, e.result.source)

theorem resultTexts_cons : resultTexts s directory (e :: es)
    = (s.outputPath directory e.path, e.result.source) :: resultTexts s directory es := rfl

/-- The number of warnings about some sources. -/
def warningCount : List Expanded → Nat
  | [] => 0
  | e :: es => e.result.diagnostics.length + warningCount es

/-- The lines that report the warnings about some sources. -/
def warningText : List Expanded → String
  | [] => ""
  | e :: es => String.join (e.result.diagnostics.map (warningLine e.path)) ++ warningText es

namespace Progress

@[simp] theorem report_tree : (p.report e).tree = p.tree := rfl

@[simp] theorem report_stale : (p.report e).stale = p.stale := rfl

theorem report_warnings : (p.report e).warnings = p.warnings + e.result.diagnostics.length := rfl

theorem deliver_store {result : Except Failure Unit}
    (stored : Run.store p.tree (s.outputPath directory e.path) e.result.source = (t', result)) :
    p.deliver (.store directory) s e = ({ p.report e with tree := t' }, result) := by
  unfold deliver
  dsimp only
  rw [report_tree, stored]

theorem differs_eq_ok_false_iff {text : String} :
    differs t path text = .ok false ↔ t.readText path = .ok text := by
  rw [differs]
  split
  · next current read => simp [read]
  · next read => simp [read]
  · next read => simp [read]

/-- Storing results is storing their texts. -/
theorem deliverAll_store_iff :
    (p.deliverAll (.store directory) s es).2 = .ok () ∧
        (p.deliverAll (.store directory) s es).1.tree = t' ↔
      Stored p.tree (resultTexts s directory es) t' := by
  induction es generalizing p with
  | nil =>
    constructor
    · rintro ⟨-, rfl⟩
      exact .nil
    · intro stored
      cases stored
      exact ⟨rfl, rfl⟩
  | cons e es ih =>
    rw [deliverAll, resultTexts_cons, stored_cons_iff]
    cases stored : Run.store p.tree (s.outputPath directory e.path) e.result.source with
    | mk t₁ result =>
      rw [deliver_store stored]
      cases result with
      | error failure =>
        constructor
        · rintro ⟨⟨⟩, -⟩
        · rintro ⟨_, ⟨⟩, -⟩
      | ok =>
        refine ih.trans ⟨fun more => ⟨t₁, rfl, more⟩, ?_⟩
        rintro ⟨_, ⟨⟩, more⟩
        exact more

/-- However a result is delivered, its warnings are reported first. -/
theorem deliver_reports (d : Delivery) :
    (p.deliver d s e).1.warnings = (p.report e).warnings ∧
      (p.deliver d s e).1.messages = (p.report e).messages := by
  unfold deliver
  cases d with
  | print => exact ⟨rfl, rfl⟩
  | store directory => exact ⟨rfl, rfl⟩
  | compare directory =>
    dsimp only
    split
    · split <;> exact ⟨rfl, rfl⟩
    · exact ⟨rfl, rfl⟩

theorem deliverAll_warnings {d : Delivery} (delivered : p.deliverAll d s es = (p', .ok ())) :
    p'.warnings = p.warnings + warningCount es := by
  induction es generalizing p with
  | nil =>
    cases delivered
    rfl
  | cons e es ih =>
    rw [deliverAll] at delivered
    have reports := (deliver_reports d (p := p) (s := s) (e := e)).1
    split at delivered
    · next p₁ first =>
      rw [first] at reports
      rw [ih delivered, reports, report_warnings, Nat.add_assoc]
      rfl
    · cases delivered

theorem deliverAll_messages {d : Delivery} (delivered : p.deliverAll d s es = (p', .ok ())) :
    p'.messages = p.messages ++ warningText es := by
  induction es generalizing p with
  | nil =>
    cases delivered
    exact String.append_empty.symm
  | cons e es ih =>
    rw [deliverAll] at delivered
    have reports := (deliver_reports d (p := p) (s := s) (e := e)).2
    split at delivered
    · next p₁ first =>
      rw [first] at reports
      rw [ih delivered, reports, warningText, ← String.append_assoc]
      rfl
    · cases delivered

/-- Storing results finds none of them out of date. -/
theorem deliverAll_store_stale (delivered : p.deliverAll (.store directory) s es = (p', .ok ())) :
    p'.stale = p.stale := by
  induction es generalizing p with
  | nil =>
    cases delivered
    rfl
  | cons e es ih =>
    rw [deliverAll] at delivered
    cases stored : Run.store p.tree (s.outputPath directory e.path) e.result.source with
    | mk t₁ result =>
      rw [deliver_store stored] at delivered
      cases result with
      | error failure => cases delivered
      | ok =>
        rw [ih delivered]
        rfl

/-- Comparing one result. -/
theorem deliver_compare :
    p.deliver (.compare directory) s e =
      match differs p.tree (s.outputPath directory e.path) e.result.source with
      | .ok true =>
        ({ p.report e with stale := p.stale ++ [s.outputPath directory e.path] }, .ok ())
      | .ok false => (p.report e, .ok ())
      | .error failure => (p.report e, .error failure) := by
  unfold deliver
  dsimp only
  rw [report_tree]
  split
  · next different found => cases different <;> simp [found]
  · next found => simp [found]

/-- A comparison stores nothing. -/
theorem deliverAll_compare_tree :
    (p.deliverAll (.compare directory) s es).1.tree = p.tree := by
  induction es generalizing p with
  | nil => rfl
  | cons e es ih =>
    have kept : (p.deliver (.compare directory) s e).1.tree = p.tree := by
      rw [deliver_compare]
      split <;> rfl
    rw [deliverAll]
    split
    · next p₁ first =>
      rw [first] at kept
      rw [ih, kept]
    · next p₁ _ first =>
      rw [first] at kept
      exact kept

/-- A comparison finds nothing out of date if every result is what can be read at its path. The
induction is on the results, with those that were out of date before. -/
theorem deliverAll_compare_iff :
    (∃ p', p.deliverAll (.compare directory) s es = (p', .ok ()) ∧ p'.stale = []) ↔
      p.stale = [] ∧
        ∀ w ∈ resultTexts s directory es, p.tree.readText w.1 = .ok w.2 := by
  induction es generalizing p with
  | nil =>
    constructor
    · rintro ⟨_, ⟨⟩, none⟩
      exact ⟨none, nofun⟩
    · rintro ⟨none, -⟩
      exact ⟨p, rfl, none⟩
  | cons e es ih =>
    rw [deliverAll, deliver_compare, resultTexts_cons, List.forall_mem_cons]
    cases found : differs p.tree (s.outputPath directory e.path) e.result.source with
    | error failure =>
      constructor
      · rintro ⟨_, ⟨⟩, -⟩
      · rintro ⟨-, read, -⟩
        rw [differs_eq_ok_false_iff.mpr read] at found
        cases found
    | ok different =>
      cases different with
      | true =>
        constructor
        · intro more
          have none := (ih.mp more).1
          simp at none
        · rintro ⟨-, read, -⟩
          rw [differs_eq_ok_false_iff.mpr read] at found
          cases found
      | false =>
        refine ih.trans ?_
        rw [report_stale, report_tree]
        have read := differs_eq_ok_false_iff.mp found
        exact ⟨fun h => ⟨h.1, read, h.2⟩, fun h => ⟨h.1, h.2.2⟩⟩

/-- In the end a run succeeds if nothing was out of date and no warning is denied. -/
theorem verdict_eq_ok_iff {denyWarnings : Bool} :
    p.verdict denyWarnings = .ok () ↔
      p.stale = [] ∧ (denyWarnings = true → p.warnings = 0) := by
  rw [verdict]
  cases p.stale with
  | cons path more => exact ⟨nofun, nofun⟩
  | nil =>
    split
    · next stale => cases stale
    · split
      · next denied =>
        rw [Bool.and_eq_true, decide_eq_true_eq] at denied
        exact ⟨nofun, fun h => absurd (h.2 denied.1) denied.2⟩
      · next allowed =>
        rw [Bool.and_eq_true, decide_eq_true_eq, not_and, not_not] at allowed
        exact ⟨fun _ => ⟨rfl, allowed⟩, fun _ => rfl⟩

end Progress

/-! ### Runs -/

variable {x : ExpandOptions}

theorem expand_of_delivered {d : Delivery} (of : Delivery.of x = d)
    (results : expansions lib t x.input = .ok (s, es))
    (delivered : Progress.deliverAll d s { tree := t } es = (p, .ok ())) :
    expand lib t x = p.finish x.denyWarnings := by
  subst of
  simp only [expand, results, delivered]

/-- A run succeeds if it delivers everything, finds nothing out of date and denies no warning. -/
theorem expand_ok_iff {d : Delivery} (of : Delivery.of x = d) :
    (expand lib t x).result = .ok () ↔
      ∃ s es p, expansions lib t x.input = .ok (s, es) ∧
        Progress.deliverAll d s { tree := t } es = (p, .ok ()) ∧ p.stale = [] ∧
        (x.denyWarnings = true → warningCount es = 0) := by
  constructor
  · intro ok
    cases results : expansions lib t x.input with
    | error failure =>
      simp only [expand, results] at ok
      cases ok
    | ok result =>
      obtain ⟨s, es⟩ := result
      cases delivered : Progress.deliverAll d s { tree := t } es with
      | mk p result =>
        cases result with
        | error failure =>
          simp only [expand, results, of, delivered] at ok
          cases ok
        | ok =>
          rw [expand_of_delivered of results delivered] at ok
          obtain ⟨none, allowed⟩ := Progress.verdict_eq_ok_iff.mp ok
          rw [Progress.deliverAll_warnings delivered, Nat.zero_add] at allowed
          exact ⟨s, es, p, rfl, delivered, none, allowed⟩
  · rintro ⟨s, es, p, results, delivered, none, allowed⟩
    rw [expand_of_delivered of results delivered]
    refine Progress.verdict_eq_ok_iff.mpr ⟨none, fun denied => ?_⟩
    rw [Progress.deliverAll_warnings delivered, allowed denied]

/-- A run that succeeds reports the warnings about its sources, and nothing that is out of date. -/
theorem expand_messages (results : expansions lib t x.input = .ok (s, es))
    (ok : (expand lib t x).result = .ok ()) : (expand lib t x).messages = warningText es := by
  obtain ⟨s', es', p, results', delivered, none, -⟩ := (expand_ok_iff rfl).mp ok
  rw [results] at results'
  cases results'
  rw [expand_of_delivered rfl results delivered, Progress.finish, none,
    Progress.deliverAll_messages delivered]
  simp

/-- A run that stores its results succeeds if it can store them all and no warning is denied. -/
theorem expand_store_iff (of : Delivery.of x = .store directory) :
    (expand lib t x).result = .ok () ∧ (expand lib t x).tree = t' ↔
      ∃ s es, expansions lib t x.input = .ok (s, es) ∧
        Stored t (resultTexts s directory es) t' ∧
        (x.denyWarnings = true → warningCount es = 0) := by
  rw [expand_ok_iff of]
  constructor
  · rintro ⟨⟨s, es, p, results, delivered, -, allowed⟩, rfl⟩
    have stored := (Progress.deliverAll_store_iff (p := { tree := t })).mp
      ⟨congrArg Prod.snd delivered, rfl⟩
    rw [delivered] at stored
    rw [expand_of_delivered of results delivered]
    exact ⟨s, es, results, stored, allowed⟩
  · rintro ⟨s, es, results, stored, allowed⟩
    obtain ⟨done, tree⟩ := Progress.deliverAll_store_iff (p := { tree := t }).mpr stored
    cases delivered : Progress.deliverAll (.store directory) s { tree := t } es with
    | mk p result =>
      rw [delivered] at done tree
      cases done
      have none := Progress.deliverAll_store_stale delivered
      refine ⟨⟨s, es, p, results, delivered, none, allowed⟩, ?_⟩
      rw [expand_of_delivered of results delivered]
      exact tree

/-- A run that compares its results changes nothing. -/
theorem expand_compare_tree (of : Delivery.of x = .compare directory) :
    (expand lib t x).tree = t := by
  rw [expand]
  split
  · rfl
  · next s es results =>
    rw [of]
    have kept : (Progress.deliverAll (.compare directory) s { tree := t } es).1.tree = t :=
      Progress.deliverAll_compare_tree
    split
    · next p delivered =>
      rw [delivered] at kept
      exact kept
    · next p _ delivered =>
      rw [delivered] at kept
      exact kept

/-- It succeeds if every result is what can be read at its path and no warning is denied. -/
theorem expand_compare_iff (of : Delivery.of x = .compare directory) :
    (expand lib t x).result = .ok () ↔
      ∃ s es, expansions lib t x.input = .ok (s, es) ∧
        (∀ w ∈ resultTexts s directory es, t.readText w.1 = .ok w.2) ∧
        (x.denyWarnings = true → warningCount es = 0) := by
  rw [expand_ok_iff of]
  constructor
  · rintro ⟨s, es, p, results, delivered, none, allowed⟩
    have read := (Progress.deliverAll_compare_iff (p := { tree := t })).mp ⟨p, delivered, none⟩
    exact ⟨s, es, results, read.2, allowed⟩
  · rintro ⟨s, es, results, read, allowed⟩
    obtain ⟨p, delivered, none⟩ :=
      (Progress.deliverAll_compare_iff (p := { tree := t })).mpr ⟨rfl, read⟩
    exact ⟨s, es, p, results, delivered, none, allowed⟩

end CodableSynthesis.Run
