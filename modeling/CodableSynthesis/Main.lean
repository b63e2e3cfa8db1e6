import CodableSynthesis.CommandLine.Reading
import CodableSynthesis.CommandLine.Usage
import CodableSynthesis.Run.Request

/-!
The command line on real files. What stands at the paths of a request is read into a file tree, the
request runs on that tree, and what the run changed is written back. Patterns stand for paths among
those that standard input lists, one a line.

This is the thin outer layer: it decides nothing about what a request does. What it has to know
beforehand, which places may be looked at, it asks of `Request.pathsRead`, `Request.pathsWritten`
and `FileTree.placesOn`.
-/

namespace CodableSynthesis.CommandLine

/-- What stands at a path. A directory can be opened but not read, a failure told without a name. -/
def entryAt? (path : String) : IO (Option Entry) := do
  try
    return some (.file (.ofBytes (← IO.FS.readBinFile path)))
  catch
    | .inappropriateType none _ _ => return some .directory
    | .inappropriateType .. | .noFileOrDirectory .. => return none
    | e => throw e

/-- Reads what stands on the way to some paths. A place that is in the tree already is not read
again. -/
def load (t : FileTree) (paths : List String) : IO FileTree :=
  (paths.flatMap t.placesOn).foldlM (fun t place => do
    if (t.get? place).isSome then return t
    match ← entryAt? place.path with
    | some e => return t.put place e
    | none => return t) t

/-- Writes an entry of a tree. -/
def store : Place × Entry → IO Unit
  | (place, .directory) => IO.FS.createDirAll place.path
  | (place, .file (.text s)) => IO.FS.writeFile place.path s
  | (place, .file (.bytes bs)) => IO.FS.writeBinFile place.path ⟨bs.toArray⟩

/-- The place of the working directory. -/
def workingDirectory : IO Place := do
  let path := (← IO.currentDir).toString
  return ((Path.pieces path.toList).filter (!Path.isIdle ·)).map String.ofList

/-- The lines of standard input. -/
partial def inputLines (stdin : IO.FS.Stream) (lines : List String) : IO (List String) := do
  let line ← stdin.getLine
  if line.isEmpty then return lines.reverse
  inputLines stdin (String.ofList (line.toList.takeWhile (· != '\n')) :: lines)

/-- Runs a request: read, run, print, write back, and tell the failure if there is one. -/
def perform (r : Request) : IO UInt32 := do
  let listed ← if r.hasPattern then inputLines (← IO.getStdin) [] else pure []
  let here ← workingDirectory
  let read ← load (.empty here) (r.pathsRead ++ listed)
  let before ← load read (r.pathsWritten .standard read)
  let outcome := r.run .standard before
  IO.print outcome.output
  IO.eprint outcome.messages
  (outcome.tree.changes before).forM store
  match outcome.result with
  | .ok () => return 0
  | .error e =>
    IO.eprintln ("error: " ++ e.message)
    return 1

end CodableSynthesis.CommandLine

/-- Does what the arguments ask for. -/
def main (arguments : List String) : IO UInt32 := do
  match CodableSynthesis.CommandLine.read arguments with
  | .ok request => CodableSynthesis.CommandLine.perform request
  | .error e =>
    if e.isAnswer then
      IO.println e.message
      return 0
    else
      IO.eprintln e.message
      return 2
