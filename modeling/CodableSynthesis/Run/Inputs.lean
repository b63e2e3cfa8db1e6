import CodableSynthesis.CommandLine.Request
import CodableSynthesis.Glob.Search
import CodableSynthesis.Json.Document
import CodableSynthesis.Run.Outcome
import CodableSynthesis.Settings

/-!
What a run reads before it does anything: the settings, and the texts of all inputs.

An input is a path or a pattern. A pattern gives its paths in its place among the inputs, so an
order of the inputs is an order of the sources. All inputs are resolved before the first source is
read.

Three things the program leaves to libraries: which paths a pattern stands for, which settings a
document holds, and how a report is written down. Runs take them as a parameter, a `Library`, and
what is proved about runs holds whatever they give. `Library.standard` is the one that the program
runs with.
-/

namespace CodableSynthesis.Run

/-- What a run leaves to libraries. -/
structure Library where
  /-- The paths that a pattern stands for in a tree, in their order. A pattern may be invalid as a
  whole, and any single path may fail to be told. -/
  glob : FileTree → String → Except Glob.PatternError (List (Except Glob.EntryError String))
  /-- The settings that a document holds. -/
  decode : String → Except Json.Error Settings
  /-- The text of a document, laid out for a reader. Nothing that reports are made of is without
  one. -/
  encode : Json.Document → String

/-- The libraries that the program uses. In a file tree every directory can be read, so that every
path can be told. -/
def Library.standard : Library where
  glob t pattern := (Glob.paths t pattern).map fun paths => paths.map .ok
  decode := Settings.ofJson
  encode document := document.pretty 0

/-- A source text and where it was read. -/
structure Source where
  path : String
  text : String
  deriving DecidableEq, Repr

/-- Reads the text of a file. -/
def readFile (t : FileTree) (path : String) : Except Failure String :=
  (t.readText path).mapError (.unreadable path)

/-- Reads a settings file, as the `load` of `Settings` does. -/
def readSettings (lib : Library) (t : FileTree) (path : String) : Except Failure Settings := do
  let document ← readFile t path
  (lib.decode document).mapError (.invalidSettings path)

/-- The settings of a run: those of the settings file, with the indentation width asked for.
This is `settings` of `InputSettings`. -/
def settings (lib : Library) (t : FileTree) (o : InputOptions) : Except Failure Settings := do
  let s ← match o.config? with
    | some path => readSettings lib t path
    | none => pure {}
  match o.indentWidth? with
  | some width => return { s with indentWidth := width }
  | none => return s

/-- The paths that an input stands for, as `resolve_file_path_patterns` finds them for each: a
pattern has to stand for some, and each of them has to be told. Any other input stands for itself,
whether there is a file or not. -/
def resolve (lib : Library) (t : FileTree) (input : String) : Except Failure (List String) :=
  if Glob.isPattern input.toList then do
    let entries ← (lib.glob t input).mapError .invalidPattern
    let paths ← entries.mapM (·.mapError .unreadableEntry)
    if paths.isEmpty then .error (.unmatchedPattern input) else .ok paths
  else .ok [input]

/-- Reads the source at a path. -/
def readSource (t : FileTree) (path : String) : Except Failure Source := do
  return ⟨path, ← readFile t path⟩

/-- The sources of a run, as `load_sources` gives them. -/
def sources (lib : Library) (t : FileTree) (inputs : List String) :
    Except Failure (List Source) := do
  let paths ← inputs.mapM (resolve lib t)
  paths.flatten.mapM (readSource t)

end CodableSynthesis.Run
