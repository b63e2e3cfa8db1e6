/-!
Paths as they are written: pieces of text between slashes. Nothing here asks whether a path exists.
An empty piece and a single dot name nothing, so a path may be written in several ways; the last
name of a path, its parent and its extension do not depend on which of them is used.

The functions are those that a path library offers: `fileName?`, `stem?`, `extension?`, `parent?`
and `join` for `file_name`, `file_stem`, `extension`, `parent` and `join`. What a path leads to in a
tree of files is `FileTree.follow`.
-/

namespace CodableSynthesis.Path

/-- The pieces of a path: the texts between its slashes. -/
def pieces : List Char → List (List Char)
  | [] => [[]]
  | c :: cs =>
    if c = '/' then [] :: pieces cs
    else
      match pieces cs with
      | [] => [[c]]
      | piece :: more => (c :: piece) :: more

/-- Some pieces with a slash between each two. -/
def ofPieces (ps : List (List Char)) : List Char :=
  ['/'].intercalate ps

/-- Whether a piece names nothing. -/
def isIdle (piece : List Char) : Bool :=
  piece == [] || piece == ['.']

/-- Some pieces without those at the end that name nothing. -/
def dropIdle (ps : List (List Char)) : List (List Char) :=
  (ps.reverse.dropWhile isIdle).reverse

/-- Whether a path begins at the root. -/
def isAbsolute (path : List Char) : Bool :=
  path.head? == some '/'

/-- The last name of a path; a path that ends going up has none. -/
def fileName? (path : List Char) : Option (List Char) :=
  (dropIdle (pieces path)).getLast?.filter (· != ['.', '.'])

/-- A file name cut at its last dot; a dot at its beginning does not count, so that a hidden file
has no extension for its name. -/
def splitExtension (name : List Char) : List Char × Option (List Char) :=
  let extension := (name.reverse.takeWhile (· != '.')).reverse
  let stem := name.take (name.length - extension.length - 1)
  if stem.isEmpty then (name, none) else (stem, some extension)

/-- The last name of a path without its extension. -/
def stem? (path : List Char) : Option (List Char) :=
  (fileName? path).map fun name => (splitExtension name).1

/-- The extension of the last name of a path. -/
def extension? (path : List Char) : Option (List Char) :=
  (fileName? path).bind fun name => (splitExtension name).2

/-- A path below a directory. An absolute path stays as it is. -/
def join (directory path : List Char) : List Char :=
  if isAbsolute path then path
  else if directory.isEmpty || directory.getLast? == some '/' then directory ++ path
  else directory ++ '/' :: path

/-- The path without its last component; the root and the empty path have no parent. The first piece
of a path counts as a component even if it is a dot. -/
def parent? (path : List Char) : Option (List Char) :=
  match pieces path with
  | [] => none
  | first :: more =>
    let more := dropIdle more
    if more.isEmpty then (if first.isEmpty then none else some [])
    else
      let above := dropIdle more.dropLast
      if first.isEmpty && above.isEmpty then some ['/'] else some (ofPieces (first :: above))

/-- Even the empty path has a piece, which is empty. -/
theorem pieces_ne_nil (path : List Char) : pieces path ≠ [] := by
  induction path with
  | nil => simp [pieces]
  | cons c cs ih => grind [pieces]

/-- A text without a slash is one piece. -/
theorem pieces_of_not_mem {piece : List Char} (h : '/' ∉ piece) : pieces piece = [piece] := by
  induction piece with
  | nil => rfl
  | cons c cs ih =>
    simp only [List.mem_cons, not_or] at h
    simp [pieces, Ne.symm h.1, ih h.2]

/-- The pieces of two paths with a slash between them. -/
theorem pieces_append (front back : List Char) :
    pieces (front ++ '/' :: back) = pieces front ++ pieces back := by
  induction front with
  | nil => simp [pieces]
  | cons c cs ih =>
    by_cases hc : c = '/'
    · simp [pieces, hc, ih]
    · obtain ⟨p, ps, hp⟩ := List.exists_cons_of_ne_nil (pieces_ne_nil cs)
      simp [pieces, hc, ih, hp]

/-- The pieces of a path put together again make it up. -/
theorem ofPieces_pieces (path : List Char) : ofPieces (pieces path) = path := by
  induction path with
  | nil => rfl
  | cons c cs ih =>
    obtain ⟨p, ps, hp⟩ := List.exists_cons_of_ne_nil (pieces_ne_nil cs)
    rw [hp] at ih
    by_cases hc : c = '/'
    · subst hc
      simp only [pieces, hp, if_true]
      rw [← ih]
      rfl
    · simp only [pieces, hc, if_false, hp]
      rw [← ih]
      cases ps <;> rfl

/-- One step of putting pieces together. -/
theorem ofPieces_cons_cons (p q : List Char) (ps : List (List Char)) :
    ofPieces (p :: q :: ps) = p ++ '/' :: ofPieces (q :: ps) := by
  simp [ofPieces, List.intercalate]

/-- Pieces in front of others make up a path in front of theirs, with a slash between. -/
theorem ofPieces_append {front back : List (List Char)} (hf : front ≠ []) (hb : back ≠ []) :
    ofPieces (front ++ back) = ofPieces front ++ '/' :: ofPieces back := by
  obtain ⟨q, back, rfl⟩ := List.exists_cons_of_ne_nil hb
  induction front with
  | nil => exact absurd rfl hf
  | cons p front ih =>
    cases front with
    | nil => simp [ofPieces, List.intercalate]
    | cons r front =>
      have := ih (by simp)
      simp only [List.cons_append] at this
      simp [ofPieces_cons_cons, this]

/-- Only pieces at the end are dropped. -/
theorem dropIdle_initial (ps : List (List Char)) : dropIdle ps <+: ps := by
  simpa [dropIdle] using List.reverse_prefix.2 (List.dropWhile_suffix (l := ps.reverse) isIdle)

/-- A path is longer than its parent, so that going up ends: directories above a file are made from
the innermost missing one (`FileTree.ensureDirectories`). -/
theorem length_parent? {path above : List Char} (h : parent? path = some above) :
    above.length < path.length := by
  obtain ⟨first, more, hp⟩ := List.exists_cons_of_ne_nil (pieces_ne_nil path)
  have hpath : path = ofPieces (first :: more) := by rw [← hp, ofPieces_pieces]
  simp only [parent?, hp] at h
  by_cases he : (dropIdle more).isEmpty
  · simp only [he, if_true] at h
    split at h
    · simp at h
    · rename_i hf
      obtain rfl : [] = above := by simpa using h
      obtain ⟨c, first, rfl⟩ := List.exists_cons_of_ne_nil (by simpa using hf)
      cases more with
      | nil => simp [hpath, ofPieces, List.intercalate]
      | cons q more => simp [hpath, ofPieces_cons_cons]
  · obtain ⟨rest, hrest⟩ :=
      ((dropIdle_initial (dropIdle more).dropLast).trans (List.dropLast_prefix _)).trans
        (dropIdle_initial more)
    -- Going up drops at least the last piece that is not idle.
    have hlt : (dropIdle (dropIdle more).dropLast).length < more.length := by
      have h₁ := (dropIdle_initial (dropIdle more).dropLast).length_le
      have h₂ := (dropIdle_initial more).length_le
      have h₃ : (dropIdle more).length ≠ 0 := by simpa using he
      simp only [List.length_dropLast] at h₁
      omega
    have hne : rest ≠ [] := by
      rintro rfl
      rw [List.append_nil] at hrest
      rw [hrest] at hlt
      exact Nat.lt_irrefl _ hlt
    have hlong : path = ofPieces (first :: dropIdle (dropIdle more).dropLast)
        ++ '/' :: ofPieces rest := by
      rw [hpath, ← ofPieces_append (by simp) hne, List.cons_append, hrest]
    simp only [he] at h
    by_cases hroot : (first.isEmpty && (dropIdle (dropIdle more).dropLast).isEmpty) = true
    · obtain rfl : ['/'] = above := by simpa [hroot] using h
      simp only [Bool.and_eq_true, List.isEmpty_iff] at hroot
      obtain rfl : rest = more := by simpa [hroot] using hrest
      have : ofPieces rest ≠ [] := by
        intro hnil
        match rest with
        | [[]] => simp [dropIdle, isIdle] at he
        | (c :: p) :: ps => cases ps <;> simp [ofPieces, List.intercalate] at hnil
        | [] :: q :: ps => simp [ofPieces_cons_cons] at hnil
      have := List.length_pos_iff.2 this
      rw [hlong]
      simp
      omega
    · obtain rfl : ofPieces (first :: dropIdle (dropIdle more).dropLast) = above := by
        simpa [hroot] using h
      rw [hlong]
      simp

end CodableSynthesis.Path
