import CodableSynthesis.FileTree.Access
import CodableSynthesis.Glob.Pattern

/-!
Searching a file tree for the paths that a pattern stands for. The paths of one directory come in
the order of their names, a directory before what is below it, and a hidden name like any other.

A pattern is cut into pieces at its slashes, and the search follows them one by one from the root or
the working directory. A literal piece leads on if there is something, a pattern for one name to all
names that it stands for, and the piece `**` to all directories below, which `descend` visits down
to the depth of the tree.

This is the standard way to fill `Run.Library.glob`; no statement about runs depends on it.
-/

namespace CodableSynthesis.Glob

/-- Whether a path is the working directory, however it is written with dots and slashes. -/
def isHere (path : String) : Bool :=
  match Path.pieces path.toList with
  | ['.'] :: more => more.all Path.isIdle
  | _ => false

/-- The path of a name in a directory; the working directory is not written in front. -/
def below (directory : String) (name : List Char) : String :=
  if isHere directory then String.ofList name
  else String.ofList (Path.join directory.toList name)

/-- The names in a directory; nothing else has any. -/
def names (t : FileTree) (path : String) : List String :=
  match t.directory? path with
  | some place => t.children place
  | none => []

/-- What a visit finds at everything below a directory down to `depth` names. -/
def descend (t : FileTree) (visit : String → String → List String) :
    Nat → String → List String
  | 0, _ => []
  | depth + 1, directory =>
    (names t directory).flatMap fun name =>
      let path := below directory name.toList
      visit path name ++ descend t visit depth path

/-- The entries of every directory for itself and the one above it that a pattern stands for: it has
to begin with a dot. -/
def dotEntries (ts : List Token) : List (List Char) :=
  if ts.head? = some (.char '.') then
    [['.', '.'], ['.']].filter (Token.matchName ts)
  else []

/-- Whether a literal piece leads on from a directory. -/
def leadsOn (t : FileTree) (directory : String) (name : List Char) : Bool :=
  if name = ['.'] || name = ['.', '.'] then t.isDirectory directory
  else (t.find (below directory name)).toBool

/-- The paths that some pieces of a pattern stand for below a path. -/
def search (t : FileTree) : List Component → String → List String
  | [], path => [path]
  | .literal name :: more, path =>
    if leadsOn t path name then search t more (below path name) else []
  | .wild ts :: more, path =>
    (dotEntries ts).flatMap (fun name =>
        if t.isDirectory path then search t more (String.ofList (Path.join path.toList name))
        else [])
      ++ ((names t path).filter fun name => Token.matchName ts name.toList).flatMap fun name =>
        search t more (below path name.toList)
  | [.recursive], path =>
    descend t (fun path _ => if t.isDirectory path then [path] else []) t.depth path
  | .recursive :: c :: more, path =>
    descend t
      (fun path name => if c.matchesName name.toList then search t more path else [])
      t.depth path

/-- The pieces of a pattern; one slash at its end makes none. -/
def componentPieces (pattern : List Char) : List (List Char) :=
  let pieces := Path.pieces (if Path.isAbsolute pattern then pattern.tail else pattern)
  if pieces.getLast? = some [] then pieces.dropLast else pieces

/-- The paths that a pattern stands for. A pattern that ends in a slash stands for directories only.
The pattern is checked as a whole first, so that a fault in any piece is reported whatever files
there are. -/
def paths (t : FileTree) (pattern : String) : Except PatternError (List String) := do
  let cs := pattern.toList
  let _ ← tokens cs
  let components ← (componentPieces cs).mapM fun piece => do
    return Component.ofTokens (← tokens piece)
  let found := search t (Component.collapse components) (if Path.isAbsolute cs then "/" else ".")
  return if FileTree.endsInSlash pattern then found.filter t.isDirectory else found

end CodableSynthesis.Glob
