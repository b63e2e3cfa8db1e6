/-!
File trees: what stands at which place.

A place is the list of the names that lead to it from the root. So the places of an absolute path,
of a path that goes up and of a plain relative one can be compared: they are equal if the paths lead
to one file. Every tree has a working directory, where paths begin that are not absolute. It is
always there, and so are the directories above it, the root being the last of them.

Of a real file system this keeps names, directories and contents. There are no links, so no file has
two places, and no permissions, so that whatever stands at a place can be read and replaced. Nothing
here keeps an entry below a file; the operations that read and write paths never put one there.
-/

namespace CodableSynthesis

/-- What a file holds: a text, or bytes that are none. `read_to_string` tells the two apart. -/
inductive Content where
  | text (s : String)
  /-- Bytes that are no text in UTF-8. -/
  | bytes (bs : List UInt8)
  deriving DecidableEq, Repr

/-- What some bytes are as the content of a file. -/
def Content.ofBytes (bytes : ByteArray) : Content :=
  match String.fromUTF8? bytes with
  | some s => .text s
  | none => .bytes bytes.toList

/-- What stands at a place. -/
inductive Entry where
  | file (content : Content)
  | directory
  deriving DecidableEq, Repr

/-- The names that lead to a place from the root, which is the place that none lead to. -/
abbrev Place := List String

/-- The absolute path that leads to a place. -/
def Place.path (place : Place) : String :=
  "/" ++ "/".intercalate place

/-- The place above another; the root is above itself. -/
def Place.above (place : Place) : Place :=
  place.dropLast

/-- What stands where. The entries leave out the directories that every tree has. -/
structure FileTree where
  /-- Where paths begin that are not absolute. -/
  workingDirectory : Place
  entries : List (Place × Entry)
  deriving DecidableEq, Repr

namespace FileTree

/-- The tree with nothing in it but a working directory. -/
def empty (workingDirectory : Place) : FileTree :=
  ⟨workingDirectory, []⟩

/-- Whether a place is that of a directory that is always there: the working directory, or one above
it. -/
def isGiven (t : FileTree) (place : Place) : Bool :=
  place.isPrefixOf t.workingDirectory

/-- What stands at a place. -/
def get? (t : FileTree) (place : Place) : Option Entry :=
  if t.isGiven place then some .directory else t.entries.lookup place

/-- Some entries with one put in its place or behind the others. -/
def putEntry (place : Place) (e : Entry) : List (Place × Entry) → List (Place × Entry)
  | [] => [(place, e)]
  | (other, f) :: more =>
    if place = other then (place, e) :: more else (other, f) :: putEntry place e more

/-- A tree with an entry at a place. -/
def put (t : FileTree) (place : Place) (e : Entry) : FileTree :=
  { t with entries := putEntry place e t.entries }

/-- The entries of a tree that are not as in an earlier one: what is left to do where the earlier
one is real and this one is wanted. -/
def changes (t earlier : FileTree) : List (Place × Entry) :=
  t.entries.filter fun entry => earlier.get? entry.1 ≠ some entry.2

/-- The places that are not empty, the root apart. -/
def places (t : FileTree) : List Place :=
  (List.range t.workingDirectory.length).map (fun n => t.workingDirectory.take (n + 1))
    ++ t.entries.map (·.1)

/-- The name of a place directly below another. -/
def nameBelow? (above : Place) (place : Place) : Option String :=
  if place.dropLast = above then place.getLast? else none

/-- Some ascending names with one more in its place. -/
def insertName (name : String) : List String → List String
  | [] => [name]
  | other :: more => if name ≤ other then name :: other :: more else other :: insertName name more

/-- The names directly below a place, ascending. -/
def children (t : FileTree) (place : Place) : List String :=
  (t.places.filterMap (nameBelow? place)).foldr insertName []

/-- A number of names that no place has more of. -/
def depth (t : FileTree) : Nat :=
  t.places.foldl (fun n place => max n place.length) 0

variable (t : FileTree) {place : Place}

theorem get?_of_isGiven (h : t.isGiven place = true) : t.get? place = some .directory := by
  simp [get?, h]

/-- Where no directory stands there is none that is always there. -/
theorem isGiven_of_get? (h : t.get? place ≠ some .directory) : t.isGiven place = false := by
  by_cases given : t.isGiven place = true
  · exact absurd (t.get?_of_isGiven given) h
  · exact Bool.eq_false_iff.mpr given

theorem lookup_putEntry (place other : Place) (e : Entry) (entries : List (Place × Entry)) :
    (putEntry place e entries).lookup other
      = if other = place then some e else entries.lookup other := by
  induction entries with
  | nil => by_cases h : other = place <;> simp [putEntry, h]
  | cons first more ih =>
    obtain ⟨name, f⟩ := first
    by_cases h : place = name
    · subst h
      by_cases ho : other = place
      · simp [putEntry, ho]
      · simp [putEntry, List.lookup_cons, ho, beq_false_of_ne ho]
    · by_cases ho : other = name
      · subst ho
        simp [putEntry, h, Ne.symm h]
      · simp [putEntry, h, List.lookup_cons, ih, beq_false_of_ne ho]

/-- Putting an entry changes what stands at its place, and nothing else. -/
theorem get?_put (h : t.isGiven place = false) (e : Entry) (other : Place) :
    (t.put place e).get? other = if other = place then some e else t.get? other := by
  grind [put, get?, isGiven, lookup_putEntry]

end FileTree

end CodableSynthesis
