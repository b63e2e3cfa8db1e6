import CodableSynthesis.FileTree.Basic
import CodableSynthesis.Path

/-!
Reading and writing a file tree by paths. A path is followed piece by piece, from the root or from
the working directory. Every piece but the last has to lead to a directory, even where a later piece
goes up again, so a path can fail although the file that it seems to name is there.

What is done with paths here is what the file system does for `read_to_string`, `write` and
`create_dir_all`, down to the error that each gives: a run tells these errors to whoever started it.
Faults that a file tree does not have, such as a missing permission or a full disk, are left out.
-/

namespace CodableSynthesis

/-- Why a path cannot be read or written. -/
inductive FileError where
  | notFound
  | alreadyExists
  | notDirectory
  | isDirectory
  | notText
  deriving DecidableEq, Repr

/-- The wording of a file error, with the number that the system has for it. A file that is no text
is no fault of the system's. -/
def FileError.message : FileError → String
  | .notFound => "No such file or directory (os error 2)"
  | .alreadyExists => "File exists (os error 17)"
  | .notDirectory => "Not a directory (os error 20)"
  | .isDirectory => "Is a directory (os error 21)"
  | .notText => "stream did not contain valid UTF-8"

namespace FileTree

/-- The piece that goes up. -/
def upPiece : List Char := ['.', '.']

/-- Goes to a place that has to be a directory. Where it is not, something else is in the way or
nothing is there, and that is told apart. -/
def enter (t : FileTree) (place : Place) : Except FileError Place :=
  match t.get? place with
  | some .directory => .ok place
  | some (.file _) => .error .notDirectory
  | none => .error .notFound

/-- The place that one piece of a path leads to from another. Empty pieces and single dots stay. -/
def placeAlong (place : Place) (piece : List Char) : Place :=
  if Path.isIdle piece then place
  else if piece = upPiece then place.above
  else place ++ [String.ofList piece]

/-- Goes from a directory along one piece of a path to another. -/
def goAlong (t : FileTree) (place : Place) (piece : List Char) : Except FileError Place :=
  t.enter (placeAlong place piece)

/-- Where a path begins: at the root, or in the working directory. -/
def startOf (t : FileTree) (path : List Char) : Place :=
  if Path.isAbsolute path then [] else t.workingDirectory

/-- The places that some pieces of a path lead past, if every one leads to a directory. -/
def placesAlong (place : Place) : List (List Char) → List Place
  | [] => [place]
  | piece :: more => place :: placesAlong (placeAlong place piece) more

/-- The places that decide where a path leads: whoever knows what stands at these can follow it. -/
def placesOn (t : FileTree) (path : String) : List Place :=
  placesAlong (t.startOf path.toList) (Path.pieces path.toList)

/-- Where a path leads. -/
inductive Target where
  /-- To a directory that is there. -/
  | directory (place : Place)
  /-- To a name in a directory, whatever stands there. -/
  | entry (place : Place)
  deriving DecidableEq, Repr

/-- Follows a path. Slashes at its end do not count here; that they ask for a directory is up to
whoever follows. The empty path leads nowhere. -/
def follow (t : FileTree) (path : String) : Except FileError Target := do
  let cs := path.toList
  if cs.isEmpty then throw .notFound
  let start ← t.enter (t.startOf cs)
  let pieces := ((Path.pieces cs).reverse.dropWhile List.isEmpty).reverse
  match pieces.getLast? with
  | none => return .directory start
  | some last =>
    let place ← pieces.dropLast.foldlM t.goAlong start
    if Path.isIdle last || last = upPiece then return .directory (← t.goAlong place last)
    else return .entry (place ++ [String.ofList last])

/-- Whether a path ends in a slash, which only a directory may. -/
def endsInSlash (path : String) : Bool :=
  path.toList.getLast? == some '/'

/-- What stands at a path. A file cannot be found under a path that ends in a slash. -/
def find (t : FileTree) (path : String) : Except FileError Entry := do
  match ← t.follow path with
  | .directory _ => return .directory
  | .entry place =>
    match t.get? place with
    | none => throw .notFound
    | some .directory => return .directory
    | some (.file content) =>
      if endsInSlash path then throw .notDirectory else return .file content

/-- The place of the directory at a path. -/
def directory? (t : FileTree) (path : String) : Option Place :=
  match t.follow path with
  | .ok (.directory place) => some place
  | .ok (.entry place) => if t.get? place = some .directory then some place else none
  | .error _ => none

/-- Whether there is a directory at a path. -/
def isDirectory (t : FileTree) (path : String) : Bool :=
  (t.directory? path).isSome

/-- The text of the file at a path, as `read_to_string` gives it. -/
def readText (t : FileTree) (path : String) : Except FileError String := do
  match ← t.find path with
  | .directory => throw .isDirectory
  | .file (.text s) => return s
  | .file (.bytes _) => throw .notText

/-- Puts a file at a path, in place of the file that may be there, as `write` does. The directory it
is put in has to be there. -/
def write (t : FileTree) (path : String) (content : Content) : Except FileError FileTree := do
  match ← t.follow path with
  | .directory _ => throw .isDirectory
  | .entry place =>
    if endsInSlash path || t.get? place = some .directory then throw .isDirectory
    else return t.put place (.file content)

/-- Puts a directory at a path where nothing is. -/
def makeDirectory (t : FileTree) (path : String) : Except FileError FileTree := do
  match ← t.follow path with
  | .directory _ => throw .alreadyExists
  | .entry place =>
    if (t.get? place).isSome then throw .alreadyExists else return t.put place .directory

/-- Puts a directory at a path where nothing is, or finds it there. A path may lead to a directory
that cannot be made anew, such as the working directory; then only the second try tells. -/
def ensureDirectory (t : FileTree) (path : String) : Except FileError FileTree :=
  match t.makeDirectory path with
  | .error .alreadyExists => if t.isDirectory path then .ok t else .error .alreadyExists
  | result => result

/-- Puts a directory at a path, and before that at every path above it that leads nowhere, as
`create_dir_all` does: it tries the whole path first and goes up only if something above is missing.
What was put stays if a later one fails. -/
def ensureDirectories (t : FileTree) (path : String) : FileTree × Except FileError Unit :=
  if path.isEmpty then (t, .ok ())
  else
    match t.ensureDirectory path with
    | .ok t => (t, .ok ())
    | .error .notFound =>
      match _h : Path.parent? path.toList with
      | none => (t, .error .notFound)
      | some above =>
        match t.ensureDirectories (String.ofList above) with
        | (t, .error e) => (t, .error e)
        | (t, .ok ()) =>
          match t.ensureDirectory path with
          | .ok t => (t, .ok ())
          | .error e => (t, .error e)
    | .error e => (t, .error e)
termination_by path.toList.length
decreasing_by rw [String.toList_ofList]; exact Path.length_parent? _h

end FileTree

end CodableSynthesis
