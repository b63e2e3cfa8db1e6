import CodableSynthesis.FileTree.Access
import CodableSynthesis.Glob.Pattern
import CodableSynthesis.Json.Failure
import CodableSynthesis.SourceError

/-!
How a run ends: what it leaves, and why it fails if it does.

A failure is told in one line. The line names the file that it is about and then gives the cause; a
cause that has a cause of its own is told together with that one and then once more by itself, so
the words of the last cause stand there twice.
-/

namespace CodableSynthesis.Run

/-- Why a run fails. The first four are the variants of `Error`, and name the file they are about.
The others come from `resolve_file_path_patterns` and from the end of the `run` of `ExpandOut`. -/
inductive Failure where
  | unreadable (path : String) (error : FileError)
  | unwritable (path : String) (error : FileError)
  | unparsable (path : String) (error : SourceError)
  | invalidSettings (path : String) (error : Json.Error)
  | invalidPattern (error : Glob.PatternError)
  /-- One of the paths that a pattern stands for cannot be told. -/
  | unreadableEntry (error : Glob.EntryError)
  /-- A pattern stands for no file. -/
  | unmatchedPattern (pattern : String)
  /-- Some results differ from what is there. -/
  | outOfDate (count : Nat)
  /-- There were warnings where none is allowed. -/
  | deniedWarnings (count : Nat)
  deriving DecidableEq, Repr

/-- Something about a path, with its cause and the cause again. -/
def aboutPath (what path cause : String) : String :=
  what ++ " " ++ path ++ ": " ++ cause ++ ": " ++ cause

/-- What fails where a pattern does: the context that `load_sources` puts in front of the cause. -/
def unresolved (cause : String) : String :=
  "failed to resolve input file paths: " ++ cause

/-- The wording of a failure with all its causes, as it is told on standard error. -/
def Failure.message : Failure → String
  | .unreadable path error => aboutPath "failed to read" path error.message
  | .unwritable path error => aboutPath "failed to write" path error.message
  | .unparsable path error => aboutPath "failed to parse" path error.message
  | .invalidSettings path error =>
    -- the cause has itself a cause, which is told a third time
    aboutPath "invalid config" path error.message ++ ": " ++ error.detail
  | .invalidPattern error => unresolved error.message
  | .unreadableEntry error => unresolved error.message
  | .unmatchedPattern pattern => unresolved ("glob pattern matched no files: " ++ pattern)
  | .outOfDate count => toString count ++ " generated file(s) out of date"
  | .deniedWarnings count => toString count ++ " warning(s) treated as errors"

/-- What a run leaves. -/
structure Outcome where
  tree : FileTree
  /-- The text on standard output. -/
  output : String
  /-- What the run itself tells on standard error: the warnings and the stale files, or the options
  that it is only to show. Lines of the log, which `verbosity` asks for and which also go there, are
  left out, and so is the line that a failure ends in (`Failure.message`). -/
  messages : String
  result : Except Failure Unit

/-- A run that fails before it did anything. -/
def Outcome.failed (t : FileTree) (e : Failure) : Outcome :=
  ⟨t, "", "", .error e⟩

/-- Stores a text at a path, with the directories above it. Both commands do so with their results.
If the directories cannot be made, the failure names the innermost of them and not the file. -/
def store (t : FileTree) (path text : String) : FileTree × Except Failure Unit :=
  let (t, made) :=
    match Path.parent? path.toList with
    | some above =>
      let above := String.ofList above
      let (t, made) := t.ensureDirectories above
      (t, made.mapError (Failure.unwritable above))
    | none => (t, .ok ())
  match made with
  | .error e => (t, .error e)
  | .ok () =>
    match t.write path (.text text) with
    | .ok t => (t, .ok ())
    | .error e => (t, .error (.unwritable path e))

end CodableSynthesis.Run
