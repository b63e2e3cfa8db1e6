import CodableSynthesis.Expansion.Source
import CodableSynthesis.Run.Inputs
import CodableSynthesis.Run.Outcome

/-!
Running an expansion, as the `run` of `ExpandOut` does.

All inputs are read and expanded before the first result is delivered, so a run that fails for its
settings or its inputs has done nothing. Results are then printed, stored or compared one after the
other, in the order of their sources, each behind its warnings. A result that cannot be delivered
ends the run, with those before it delivered. Files that are out of date, and then warnings that are
denied, fail a run only when everything was delivered.

The sources are expanded side by side by the program. No expansion depends on another, so here they
are expanded one after the other. Of several sources that cannot be read as declarations the program
tells any one, and the first in order is told here.
-/

namespace CodableSynthesis.Run

/-- What becomes of the results. -/
inductive Delivery where
  | print
  | store (directory : String)
  /-- Results are compared with what is stored. -/
  | compare (directory : String)
  deriving DecidableEq, Repr

/-- What some options ask for. -/
def Delivery.of (o : ExpandOptions) : Delivery :=
  match o.out? with
  | none => .print
  | some directory => if o.check then .compare directory else .store directory

/-- The expansion of a source and where that was read. -/
structure Expanded where
  path : String
  result : ExpandedSource
  deriving DecidableEq, Repr

/-- Expands a source. A source that cannot be parsed is told with its path. -/
def expandOne (s : Settings) (source : Source) : Except Failure Expanded :=
  match expandSource source.text s.indentWidth with
  | .ok result => .ok ⟨source.path, result⟩
  | .error e => .error (.unparsable source.path e)

/-- The line that reports a warning, as `report_diagnostics` writes it. -/
def warningLine (path : String) (d : Diagnostic) : String :=
  "warning: " ++ path ++ ":" ++ toString d.line ++ ":" ++ toString d.column ++ ": " ++ d.message
    ++ "\n"

/-- The line that reports a file that is not as it would be stored. -/
def staleLine (path : String) : String :=
  "stale: " ++ path ++ " is out of date\n"

/-- A printed text ends its last line. -/
def printed (text : String) : String :=
  if text.toList.getLast? = some '\n' then text else text ++ "\n"

/-- What was delivered so far. -/
structure Progress where
  tree : FileTree
  output : String := ""
  messages : String := ""
  warnings : Nat := 0
  /-- The paths whose files differ from the results. -/
  stale : List String := []

namespace Progress

/-- Reports the warnings about a source. -/
def report (p : Progress) (e : Expanded) : Progress :=
  { p with
    messages := p.messages ++ String.join (e.result.diagnostics.map (warningLine e.path))
    warnings := p.warnings + e.result.diagnostics.length }

/-- Whether a file differs from a text. A missing file does, by `read_existing`; one that is there
and cannot be read is a failure. -/
def differs (t : FileTree) (path text : String) : Except Failure Bool :=
  match t.readText path with
  | .ok current => .ok (current ≠ text)
  | .error .notFound => .ok true
  | .error e => .error (.unreadable path e)

/-- Delivers a result, behind its warnings. -/
def deliver (d : Delivery) (s : Settings) (p : Progress) (e : Expanded) :
    Progress × Except Failure Unit :=
  let p := p.report e
  match d with
  | .print => ({ p with output := p.output ++ printed e.result.source }, .ok ())
  | .store directory =>
    let (tree, stored) := Run.store p.tree (s.outputPath directory e.path) e.result.source
    ({ p with tree := tree }, stored)
  | .compare directory =>
    let path := s.outputPath directory e.path
    match differs p.tree path e.result.source with
    | .ok different => (if different then { p with stale := p.stale ++ [path] } else p, .ok ())
    | .error e => (p, .error e)

/-- Delivers some results, up to the first that fails. -/
def deliverAll (d : Delivery) (s : Settings) (p : Progress) :
    List Expanded → Progress × Except Failure Unit
  | [] => (p, .ok ())
  | e :: es =>
    match p.deliver d s e with
    | (p, .ok ()) => p.deliverAll d s es
    | (p, .error e) => (p, .error e)

/-- How a run ends that delivered everything. Files out of date come first: a run that has some
fails for them, whether it denies warnings or not. -/
def verdict (denyWarnings : Bool) (p : Progress) : Except Failure Unit :=
  if !p.stale.isEmpty then .error (.outOfDate p.stale.length)
  else if denyWarnings && p.warnings ≠ 0 then .error (.deniedWarnings p.warnings)
  else .ok ()

/-- What a run leaves that delivered everything. -/
def finish (denyWarnings : Bool) (p : Progress) : Outcome :=
  ⟨p.tree, p.output, p.messages ++ String.join (p.stale.map staleLine), p.verdict denyWarnings⟩

end Progress

/-- What an expansion delivers, and the settings it does so under. -/
def expansions (lib : Library) (t : FileTree) (o : InputOptions) :
    Except Failure (Settings × List Expanded) := do
  let s ← settings lib t o
  let read ← sources lib t o.inputs
  return (s, ← read.mapM (expandOne s))

/-- Expands the inputs. -/
def expand (lib : Library) (t : FileTree) (o : ExpandOptions) : Outcome :=
  match expansions lib t o.input with
  | .error e => .failed t e
  | .ok (s, results) =>
    match Progress.deliverAll (.of o) s { tree := t } results with
    | (p, .ok ()) => p.finish o.denyWarnings
    | (p, .error e) => ⟨p.tree, p.output, p.messages, .error e⟩

end CodableSynthesis.Run
