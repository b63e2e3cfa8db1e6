import CodableSynthesis.CommandLine.Outline
import CodableSynthesis.Run.Expand
import CodableSynthesis.Run.Model

/-!
Running a request of the command line on a file tree, and what that has to know of the tree.

Whoever runs a request on real files reads what is there into a tree first. For that it needs the
paths that the options name, those that patterns may stand for, and those that results go to; a run
looks at nothing else.
-/

namespace CodableSynthesis

namespace Request

/-- Whether a request is only to be shown. -/
def noOp (r : Request) : Bool :=
  match r.command with
  | .expand o => o.noOp
  | .model o => o.noOp

/-- What a request does to a file tree, as the `run` of `CommandLineInterface` does it. -/
def run (r : Request) (lib : Run.Library) (t : FileTree) : Run.Outcome :=
  if r.noOp then ⟨t, "", r.outline.render ++ "\n", .ok ()⟩
  else
    match r.command with
    | .expand o => Run.expand lib t o
    | .model o => Run.model lib t o

/-! ### Reach -/

/-- What a request is told about its inputs. -/
def inputOptions (r : Request) : InputOptions :=
  match r.command with
  | .expand o => o.input
  | .model o => o.input

/-- Whether a request asks for what a pattern stands for. -/
def hasPattern (r : Request) : Bool :=
  r.inputOptions.inputs.any fun input => Glob.isPattern input.toList

/-- The paths that a request names to read them. -/
def pathsRead (r : Request) : List String :=
  let o := r.inputOptions
  o.config?.toList ++ o.inputs.filter fun input => !Glob.isPattern input.toList

end Request

/-- The paths that an expansion stores its results at, or compares them with. -/
def Run.resultPaths (lib : Run.Library) (t : FileTree) (o : InputOptions) (directory : String) :
    Except Run.Failure (List String) := do
  let s ← Run.settings lib t o
  return (← Run.sources lib t o.inputs).map fun source => s.outputPath directory source.path

/-- The paths that a request writes, or compares with what it would write. -/
def Request.pathsWritten (r : Request) (lib : Run.Library) (t : FileTree) : List String :=
  match r.command with
  | .expand o =>
    match o.out? with
    | some directory => (Run.resultPaths lib t o.input directory).toOption.getD []
    | none => []
  | .model o => o.out?.toList

end CodableSynthesis
