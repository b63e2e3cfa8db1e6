import CodableSynthesis.FileTree.Access
import CodableSynthesis.Settings
import Mathlib.Data.List.TakeWhile

/-!
The names of results. A result is stored in its directory under a name made from that of its input,
and two inputs of different names never share one: the dots of a suffix cannot be mistaken for the
dot in front of an extension.

* `Path.IsName`: a text that a directory may have as a name.
* `Path.splitExtension_cases`: how a name is cut at its last dot.
* `Settings.outputName_injective`: whatever dots the names and the suffix contain.
* `Path.pieces_join`, `Path.parent?_join`: where a name leads below a directory depends on the
  directory alone.

`output_path` puts a suffix between the stem and the extension, and both may contain dots, as may
the suffix. That no two names meet is an argument about the last dot: an extension contains none, so
the last dot of the new name is the one in front of the extension; and a name without an extension
gets no dot but those of the suffix, in front of which the name is found again.

A dot at the beginning of a name is not the one in front of an extension. This is why stems are not
empty in the cases below.
-/

namespace CodableSynthesis

namespace Path

/-- A text that a directory may have as a name. -/
structure IsName (name : List Char) : Prop where
  /-- It is one piece of a path. -/
  noSlash : '/' ∉ name
  /-- It names something. -/
  notIdle : isIdle name = false
  /-- It is not the name of the directory above. -/
  notUp : name ≠ FileTree.upPiece

theorem IsName.ne_nil {name : List Char} (h : IsName name) : name ≠ [] := by
  rintro rfl
  cases h.notIdle

/-- The pieces of a path have no slashes. -/
theorem not_mem_pieces {path piece : List Char} (h : piece ∈ pieces path) : '/' ∉ piece := by
  induction path generalizing piece with
  | nil =>
    obtain rfl := List.mem_singleton.mp h
    exact List.not_mem_nil
  | cons c cs ih =>
    by_cases slash : c = '/'
    · rw [pieces, if_pos slash] at h
      rcases List.mem_cons.mp h with rfl | mem
      · exact List.not_mem_nil
      · exact ih mem
    · obtain ⟨first, more, split⟩ := List.exists_cons_of_ne_nil (pieces_ne_nil cs)
      rw [pieces, if_neg slash, split] at h
      rw [split] at ih
      rcases List.mem_cons.mp h with rfl | mem
      · intro inside
        rcases List.mem_cons.mp inside with same | inside
        · exact slash same.symm
        · exact ih List.mem_cons_self inside
      · exact ih (List.mem_cons_of_mem _ mem)

/-- The last of some pieces that names something. -/
theorem getLast?_dropIdle {ps : List (List Char)} {piece : List Char}
    (h : (dropIdle ps).getLast? = some piece) : piece ∈ ps ∧ isIdle piece = false := by
  rw [dropIdle, List.getLast?_reverse] at h
  obtain ⟨more, split⟩ := List.head?_eq_some_iff.mp h
  constructor
  · have mem : piece ∈ ps.reverse.dropWhile isIdle := by rw [split]; exact List.mem_cons_self
    exact List.mem_reverse.mp ((List.dropWhile_sublist _).subset mem)
  · have stops := List.head_dropWhile_not isIdle (w := by rw [split]; simp)
    simpa [split] using stops

theorem isName_of_fileName? {path name : List Char} (h : fileName? path = some name) :
    IsName name := by
  obtain ⟨last, notUp⟩ := Option.filter_eq_some_iff.mp h
  obtain ⟨mem, notIdle⟩ := getLast?_dropIdle last
  exact ⟨not_mem_pieces mem, notIdle, by simpa [FileTree.upPiece] using notUp⟩

/-! ### Extensions

How names are put together and taken apart at dots. -/

/-- A name has an extension if a dot stands in it behind its first character; the last one
counts. -/
theorem splitExtension_cases (name : List Char) :
    (∃ stem extension, splitExtension name = (stem, some extension) ∧
      name = stem ++ '.' :: extension ∧ stem ≠ [] ∧ '.' ∉ extension) ∨
    (splitExtension name = (name, none) ∧ '.' ∉ name.tail) := by
  have noDot : '.' ∉ (name.reverse.takeWhile (· != '.')).reverse := by
    intro mem
    have := List.mem_takeWhile_imp (List.mem_reverse.mp mem)
    cases this
  have split : name = (name.reverse.dropWhile (· != '.')).reverse
      ++ (name.reverse.takeWhile (· != '.')).reverse := by
    rw [← List.reverse_append, List.takeWhile_append_dropWhile, List.reverse_reverse]
  rw [splitExtension]
  generalize (name.reverse.takeWhile (· != '.')).reverse = extension at *
  have stops := List.head?_dropWhile_not (· != '.') name.reverse
  generalize name.reverse.dropWhile (· != '.') = front at *
  cases front with
  | nil =>
    obtain rfl : name = extension := split
    exact .inr ⟨by simp, fun mem => noDot (List.mem_of_mem_tail mem)⟩
  | cons c front =>
    obtain rfl : c = '.' := by simpa using stops
    rw [List.reverse_cons, List.append_assoc, List.singleton_append] at split
    have stem : name.take (name.length - extension.length - 1) = front.reverse := by
      rw [split, List.length_append, List.length_reverse, List.length_cons,
        show front.length + (extension.length + 1) - extension.length - 1 = front.length by omega]
      exact List.take_left' (List.length_reverse)
    rw [stem]
    by_cases empty : front = []
    · subst empty
      refine .inr ⟨rfl, ?_⟩
      rw [split]
      exact noDot
    · exact .inl ⟨front.reverse, extension, by simp [empty], split, by simpa using empty, noDot⟩

/-- Two texts cut at their last dots. -/
theorem append_dot_inj {front front' back back' : List Char} (noDot : '.' ∉ back)
    (noDot' : '.' ∉ back') (same : front ++ '.' :: back = front' ++ '.' :: back') :
    front = front' ∧ back = back' := by
  rcases List.append_eq_append_iff.mp same with ⟨mid, made, behind⟩ | ⟨mid, made, behind⟩
  all_goals
    cases mid with
    | nil =>
      cases behind
      rw [List.append_nil] at made
      exact ⟨by rw [made], rfl⟩
    | cons c mid =>
      cases behind
      simp at noDot noDot'

/-- A suffix cannot make up for an extension. -/
theorem not_append_suffix {stem extension name suffix : List Char} (some_ : stem ≠ [])
    (noDot : '.' ∉ name.tail) : stem ++ suffix ++ '.' :: extension ≠ name ++ suffix := by
  intro same
  rw [List.append_assoc] at same
  rcases List.append_eq_append_iff.mp same with ⟨mid, rfl, behind⟩ | ⟨mid, rfl, behind⟩
  · -- what the name has behind the stem has as many dots as the extension and one more
    have dots := congrArg (List.count '.') behind
    simp only [List.count_append, List.count_cons_self] at dots
    have inside : '.' ∈ mid := List.count_pos_iff.mp (by omega)
    rw [List.tail_append_of_ne_nil some_] at noDot
    exact noDot (List.mem_append_right _ inside)
  · have lengths := congrArg List.length behind
    simp only [List.length_append, List.length_cons] at lengths
    omega

/-! ### Below a directory -/

theorem isAbsolute_of_noSlash {path : List Char} (h : '/' ∉ path) : isAbsolute path = false := by
  cases path with
  | nil => rfl
  | cons c cs =>
    rw [List.mem_cons, not_or] at h
    simpa [isAbsolute] using Ne.symm h.1

/-- The pieces of a directory in front of a name in it. -/
def frontPieces (directory : List Char) : List (List Char) :=
  if directory.isEmpty || directory.getLast? == some '/' then (pieces directory).dropLast
  else pieces directory

variable {directory name : List Char}

/-- The pieces of a path in a directory. -/
theorem pieces_join (h : '/' ∉ name) :
    pieces (join directory name) = frontPieces directory ++ [name] := by
  rw [join, if_neg (by simp [isAbsolute_of_noSlash h]), frontPieces]
  split
  · next ends =>
    rw [Bool.or_eq_true, List.isEmpty_iff, beq_iff_eq] at ends
    rcases ends with rfl | slash
    · exact pieces_of_not_mem h
    · obtain ⟨front, rfl⟩ := List.getLast?_eq_some_iff.mp slash
      rw [List.append_assoc, List.singleton_append, pieces_append, pieces_of_not_mem h,
        pieces_append, pieces, List.dropLast_concat]
  · rw [pieces_append, pieces_of_not_mem h]

theorem isAbsolute_join (h : '/' ∉ name) :
    isAbsolute (join directory name) = isAbsolute directory := by
  rw [join, if_neg (by simp [isAbsolute_of_noSlash h])]
  cases directory with
  | nil => exact isAbsolute_of_noSlash h
  | cons c cs => split <;> rfl

/-- The directory above the paths that are joined to a directory. -/
def parentOf (directory : List Char) : List Char :=
  match frontPieces directory with
  | [] => []
  | first :: more =>
    let above := dropIdle more
    if first.isEmpty && above.isEmpty then ['/'] else ofPieces (first :: above)

theorem dropIdle_append_name (h : IsName name) (ps : List (List Char)) :
    dropIdle (ps ++ [name]) = ps ++ [name] := by
  rw [dropIdle, List.reverse_append, List.reverse_singleton, List.singleton_append,
    List.dropWhile_cons_of_neg (by simp [h.notIdle]), List.reverse_cons, List.reverse_reverse]

theorem parent?_join (h : IsName name) :
    parent? (join directory name) = some (parentOf directory) := by
  rw [parent?, pieces_join h.noSlash, parentOf]
  cases frontPieces directory with
  | nil => simp [dropIdle, h.ne_nil]
  | cons first more =>
    simp only [List.cons_append, dropIdle_append_name h, List.dropLast_concat]
    rw [if_neg (by simp)]
    split <;> rfl

theorem fileName?_join (h : IsName name) : fileName? (join directory name) = some name := by
  rw [fileName?, pieces_join h.noSlash, dropIdle_append_name h, List.getLast?_concat]
  simpa [FileTree.upPiece] using h.notUp

end Path

namespace Settings

open CodableSynthesis.Path (IsName splitExtension splitExtension_cases)

/-- The name of the result of an input, by the name of the input. -/
def outputName (s : Settings) (name : List Char) : List Char :=
  let (stem, extension?) := splitExtension name
  let extension :=
    match extension? with
    | some extension => '.' :: extension
    | none => []
  stem ++ s.outputSuffix.toList ++ extension

variable {s : Settings} {name name' : List Char}

/-- A result is in the directory, under the name made from that of its input. -/
theorem outputPath_eq {directory input : String} (h : Path.fileName? input.toList = some name) :
    s.outputPath directory input
      = String.ofList (Path.join directory.toList (s.outputName name)) := by
  rw [outputPath, Path.extension?, Path.stem?, h]
  rfl

theorem outputName_cases (s : Settings) (name : List Char) :
    (∃ stem extension, s.outputName name = stem ++ s.outputSuffix.toList ++ '.' :: extension ∧
      name = stem ++ '.' :: extension ∧ stem ≠ [] ∧ '.' ∉ extension) ∨
    (s.outputName name = name ++ s.outputSuffix.toList ∧ '.' ∉ name.tail) := by
  rcases splitExtension_cases name with
    ⟨stem, extension, split, made, some_, noDot⟩ | ⟨split, noDot⟩
  · exact .inl ⟨stem, extension, by rw [outputName, split], made, some_, noDot⟩
  · exact .inr ⟨by rw [outputName, split]; simp, noDot⟩

/-- Different names give different results. -/
theorem outputName_injective (same : s.outputName name = s.outputName name') : name = name' := by
  rcases s.outputName_cases name with ⟨stem, extension, made, rfl, some_, noDot⟩ | ⟨made, noDot⟩ <;>
    rcases s.outputName_cases name' with
      ⟨stem', extension', made', rfl, some', noDot'⟩ | ⟨made', noDot'⟩ <;>
    rw [made, made'] at same
  · obtain ⟨front, rfl⟩ := Path.append_dot_inj noDot noDot' same
    rw [List.append_cancel_right front]
  · exact absurd same (Path.not_append_suffix some_ noDot')
  · exact absurd same.symm (Path.not_append_suffix some' noDot)
  · exact List.append_cancel_right same

/-- It is a name if the suffix has no slash. -/
theorem isName_outputName (plain : '/' ∉ s.outputSuffix.toList) (h : IsName name) :
    IsName (s.outputName name) := by
  rcases s.outputName_cases name with ⟨stem, extension, made, rfl, some_, -⟩ | ⟨made, -⟩
  all_goals rw [made]
  · obtain ⟨c, stem, rfl⟩ := List.exists_cons_of_ne_nil some_
    have noSlash := h.noSlash
    constructor
    · simp only [List.mem_append, List.mem_cons, not_or] at noSlash ⊢
      exact ⟨⟨noSlash.1, plain⟩, noSlash.2⟩
    · simp [Path.isIdle]
    · -- two dots would be the name itself
      intro up
      apply h.notUp
      rw [FileTree.upPiece] at up ⊢
      cases stem <;> cases suffix : s.outputSuffix.toList <;> simp_all
  · obtain ⟨c, name, rfl⟩ := List.exists_cons_of_ne_nil h.ne_nil
    have noSlash := h.noSlash
    have notIdle := h.notIdle
    have notUp := h.notUp
    constructor
    · rw [List.mem_append, not_or]
      exact ⟨noSlash, plain⟩
    · cases name <;> simp_all [Path.isIdle]
    · rw [FileTree.upPiece] at notUp ⊢
      cases name <;> simp_all [Path.isIdle]

end Settings

end CodableSynthesis
