import CodableSynthesis.Proofs.Storing.Names
import Mathlib.Data.List.Induction

/-!
Where results are put. Paths may be written in several ways: of the pieces behind the first one,
those that name nothing do not count. The result of an input stands directly in its directory, under
a name that keeps the extension of the input, and only inputs of one file name share a result.

* `Path.Same`: two paths with the same components.
* `Path.parent?_join_same`: the parent of a name below a directory is that directory.
* `Settings.PutsInto`: the result of an input is put directly into the directory, under the
  extension of the input.
* `Settings.outputPath_separates`: the law of destinations.

Paths are texts, and two texts may be one path. The law is stated for both: results have the same
text exactly if the inputs have one file name, and the same path exactly then as well. Neither says
where a path leads in some tree; that is for `Places` and `Directory`.

`Path.Same` is how the program compares paths: by components, where slashes that are repeated and
single dots behind the first component are passed over.
-/

namespace CodableSynthesis

namespace Path

/-- The pieces that are components of a path: the first one unless it is empty, and behind it those
that name something. -/
def counted : List (List Char) → List (List Char)
  | [] => []
  | first :: more => (if first.isEmpty then [] else [first]) ++ more.filter (!isIdle ·)

/-- The components of a path, the root apart. -/
def components (path : List Char) : List (List Char) :=
  counted (pieces path)

/-- Two paths are the same, however they are written. -/
structure Same (path path' : List Char) : Prop where
  /-- Both begin at the root, or neither does. -/
  root : isAbsolute path = isAbsolute path'
  /-- They have the same components. -/
  components : components path = Path.components path'

instance (path path' : List Char) : Decidable (Same path path') :=
  decidable_of_iff (isAbsolute path = isAbsolute path' ∧ components path = components path')
    ⟨fun ⟨root, components⟩ => ⟨root, components⟩, fun h => ⟨h.root, h.components⟩⟩

variable {directory name name' : List Char} {ps : List (List Char)}

/-! ### Components

Which pieces of a path count, and that they are found again when pieces are put together. -/

theorem counted_append_name (h : IsName name) (ps : List (List Char)) :
    counted (ps ++ [name]) = counted ps ++ [name] := by
  cases ps with
  | nil => simp [counted, h.ne_nil]
  | cons first more => simp [counted, h.notIdle]

theorem counted_append_nil (ps : List (List Char)) : counted (ps ++ [[]]) = counted ps := by
  cases ps with
  | nil => rfl
  | cons first more => simp [counted, isIdle]

/-- The pieces at the end that name nothing do not count. -/
theorem filter_dropIdle (ps : List (List Char)) :
    (dropIdle ps).filter (!isIdle ·) = ps.filter (!isIdle ·) := by
  induction ps using List.reverseRecOn with
  | nil => rfl
  | append_singleton ps p ih =>
    by_cases idle : isIdle p = true
    · have shorter : dropIdle (ps ++ [p]) = dropIdle ps := by simp [dropIdle, idle]
      rw [shorter, ih]
      simp [idle]
    · have whole : dropIdle (ps ++ [p]) = ps ++ [p] := by simp [dropIdle, idle]
      rw [whole]

/-- Pieces put together with slashes between them are found again. -/
theorem pieces_ofPieces (nonempty : ps ≠ []) (plain : ∀ p ∈ ps, '/' ∉ p) :
    pieces (ofPieces ps) = ps := by
  induction ps with
  | nil => exact absurd rfl nonempty
  | cons p ps ih =>
    have first : '/' ∉ p := plain p (.head _)
    cases ps with
    | nil =>
      have alone : ofPieces [p] = p := by simp [ofPieces, List.intercalate]
      rw [alone, pieces_of_not_mem first]
    | cons q ps =>
      have later := ih (by simp) fun r mem => plain r (.tail _ mem)
      rw [ofPieces_cons_cons, pieces_append, pieces_of_not_mem first, later]
      rfl

/-- A path with more than one piece begins at the root if its first piece is empty. -/
theorem isAbsolute_of_pieces {path first : List Char} {more : List (List Char)}
    (split : pieces path = first :: more) (several : more ≠ []) :
    isAbsolute path = first.isEmpty := by
  cases path with
  | nil =>
    cases split
    exact absurd rfl several
  | cons c cs =>
    by_cases slash : c = '/'
    · rw [pieces, if_pos slash] at split
      cases split
      simp [isAbsolute, slash]
    · obtain ⟨p, ps, behind⟩ := List.exists_cons_of_ne_nil (pieces_ne_nil cs)
      rw [pieces, if_neg slash, behind] at split
      cases split
      simp [isAbsolute, slash]

/-! ### Below a directory

The parent of a path is found by leaving out its last piece and what names nothing in front of it.
It need not be the text of the directory, but it is the same path. -/

/-- A slash at the end of a directory makes no difference. -/
theorem counted_frontPieces (directory : List Char) :
    counted (frontPieces directory) = components directory := by
  rw [frontPieces, components]
  split
  · next ends =>
    rw [Bool.or_eq_true, List.isEmpty_iff, beq_iff_eq] at ends
    rcases ends with rfl | slash
    · rfl
    · obtain ⟨front, rfl⟩ := List.getLast?_eq_some_iff.mp slash
      rw [pieces_append, show pieces [] = [[]] from rfl, List.dropLast_concat, counted_append_nil]
  · rfl

theorem components_join (h : IsName name) :
    components (join directory name) = components directory ++ [name] := by
  rw [components, pieces_join h.noSlash, counted_append_name h, counted_frontPieces]

theorem noSlash_of_frontPieces {p : List Char} (mem : p ∈ frontPieces directory) : '/' ∉ p := by
  rw [frontPieces] at mem
  split at mem
  · exact not_mem_pieces ((List.dropLast_sublist _).subset mem)
  · exact not_mem_pieces mem

/-- The parent of a name below a directory is the directory. -/
theorem parent?_join_same (h : IsName name) :
    ∃ above, parent? (join directory name) = some above ∧ Same above directory := by
  refine ⟨_, parent?_join h, ?_⟩
  have joined : isAbsolute (join directory name) = isAbsolute directory := isAbsolute_join h.noSlash
  have split : pieces (join directory name) = frontPieces directory ++ [name] :=
    pieces_join h.noSlash
  have counts := counted_frontPieces directory
  have plain : ∀ p ∈ frontPieces directory, '/' ∉ p := fun p => noSlash_of_frontPieces
  rw [parentOf]
  generalize frontPieces directory = front at split counts plain
  cases front with
  | nil =>
    -- The name stands alone.
    have alone : pieces name = [name] := pieces_of_not_mem h.noSlash
    have same : join directory name = name := by
      rw [← ofPieces_pieces (join directory name), split, List.nil_append, ← alone, ofPieces_pieces]
    constructor
    · rw [← joined, same, isAbsolute_of_noSlash h.noSlash]
      rfl
    · exact counts
  | cons first more =>
    have root : isAbsolute directory = first.isEmpty := by
      rw [← joined]
      exact isAbsolute_of_pieces split (by simp)
    have inside : ∀ p ∈ first :: dropIdle more, '/' ∉ p := by
      intro p mem
      rcases List.mem_cons.mp mem with rfl | mem
      · exact plain _ (.head _)
      · exact plain _ (.tail _ ((dropIdle_initial more).subset mem))
    have above : counted (first :: dropIdle more) = components directory := by
      rw [← counts, counted, counted, filter_dropIdle]
    dsimp only
    -- The parent of a name at the root is written as the root, every other without a slash at its
    -- end.
    by_cases top : (first.isEmpty && (dropIdle more).isEmpty) = true
    · rw [if_pos top]
      rw [Bool.and_eq_true, List.isEmpty_iff, List.isEmpty_iff] at top
      rw [top.1, top.2] at above
      constructor
      · rw [root, top.1]
        rfl
      · exact above
    · rw [if_neg top]
      have found : pieces (ofPieces (first :: dropIdle more)) = first :: dropIdle more :=
        pieces_ofPieces (by simp) inside
      constructor
      · rw [root]
        cases behind : dropIdle more with
        | nil =>
          have alone : ofPieces [first] = first := by simp [ofPieces, List.intercalate]
          rw [behind] at top
          rw [alone, isAbsolute_of_noSlash (inside first (.head _))]
          simpa using top
        | cons p ps =>
          rw [behind] at found
          exact isAbsolute_of_pieces found (by simp)
      · rw [components, found]
        exact above

/-- A dot at the beginning of a path is a component, one behind it is not. -/
example : Same "gen/.//".toList "gen".toList ∧ ¬ Same "./gen".toList "gen".toList := by
  decide

end Path

namespace Settings

open CodableSynthesis.Path (IsName)

variable {s : Settings} {directory input input' : String} {name name' : List Char}

/-- A name that is put together from a stem and an extension is taken apart again. -/
theorem splitExtension_append {stem extension : List Char} (nonempty : stem ≠ [])
    (noDot : '.' ∉ extension) :
    Path.splitExtension (stem ++ '.' :: extension) = (stem, some extension) := by
  rcases Path.splitExtension_cases (stem ++ '.' :: extension) with
    ⟨stem', extension', split, made, -, noDot'⟩ | ⟨-, noDot'⟩
  · obtain ⟨rfl, rfl⟩ := Path.append_dot_inj noDot noDot' made
    exact split
  · rw [List.tail_append_of_ne_nil nonempty] at noDot'
    exact absurd (List.mem_append_right _ (.head _)) noDot'

/-- The name of a result has the extension of the name it was made from. -/
theorem splitExtension_outputName {extension : List Char}
    (given : (Path.splitExtension name).2 = some extension) :
    (Path.splitExtension (s.outputName name)).2 = some extension := by
  rcases Path.splitExtension_cases name with
    ⟨stem, extension', split, -, nonempty, noDot⟩ | ⟨split, -⟩
  · rw [split] at given
    cases given
    have made : s.outputName name = stem ++ s.outputSuffix.toList ++ '.' :: extension := by
      rw [outputName, split]
    have some_ : stem ++ s.outputSuffix.toList ≠ [] := by simp [nonempty]
    rw [made, splitExtension_append some_ noDot]
  · rw [split] at given
    cases given

/-- The result of an input is put directly into the directory, under a name of its own that has the
extension of the input. -/
structure PutsInto (s : Settings) (directory input : String) : Prop where
  /-- Its parent is the directory, however that is written. -/
  parent : ∃ above, Path.parent? (s.outputPath directory input).toList = some above ∧
    Path.Same above directory.toList
  /-- It has a file name. -/
  name : ∃ name, Path.fileName? (s.outputPath directory input).toList = some name
  /-- It has the extension of the input, if that has one. -/
  extension : ∀ extension, Path.extension? input.toList = some extension →
    Path.extension? (s.outputPath directory input).toList = some extension

section Destinations

variable (plain : '/' ∉ s.outputSuffix.toList)

include plain

/-- So it is for every input that has a file name. -/
theorem putsInto (named : Path.fileName? input.toList = some name) :
    s.PutsInto directory input := by
  have isName : IsName (s.outputName name) :=
    isName_outputName plain (Path.isName_of_fileName? named)
  have path : (s.outputPath directory input).toList =
      Path.join directory.toList (s.outputName name) := by
    rw [outputPath_eq named, String.toList_ofList]
  constructor
  · rw [path]
    exact Path.parent?_join_same isName
  · rw [path]
    exact ⟨_, Path.fileName?_join isName⟩
  · intro extension given
    rw [Path.extension?, named, Option.bind_some] at given
    rw [Path.extension?, path, Path.fileName?_join isName, Option.bind_some]
    exact splitExtension_outputName given

/-- Results that are put to the same place come from inputs of one name. -/
theorem eq_of_same_outputPath (named : Path.fileName? input.toList = some name)
    (named' : Path.fileName? input'.toList = some name')
    (same : Path.Same (s.outputPath directory input).toList
      (s.outputPath directory input').toList) :
    name = name' := by
  have components := same.components
  rw [outputPath_eq named, outputPath_eq named', String.toList_ofList, String.toList_ofList,
    Path.components_join (isName_outputName plain (Path.isName_of_fileName? named)),
    Path.components_join (isName_outputName plain (Path.isName_of_fileName? named'))] at components
  apply s.outputName_injective
  simpa using components

end Destinations

/-- If the suffix has no slash, the result of every input that has a file name is put into the
directory, under the extension of the input. The results of two inputs are put to one place, however
its path is written, exactly if the inputs have one file name.

The directory may be any text, the empty one and a path from the root included. -/
theorem outputPath_separates (plain : '/' ∉ s.outputSuffix.toList) (directory : String) :
    (∀ input name, Path.fileName? input.toList = some name → s.PutsInto directory input) ∧
    ∀ input input' name name', Path.fileName? input.toList = some name →
      Path.fileName? input'.toList = some name' →
      (s.outputPath directory input = s.outputPath directory input' ↔ name = name') ∧
      (Path.Same (s.outputPath directory input).toList (s.outputPath directory input').toList ↔
        name = name') := by
  refine ⟨fun input name named => putsInto plain named, ?_⟩
  intro input input' name name' named named'
  have equal : name = name' → s.outputPath directory input = s.outputPath directory input' := by
    rintro rfl
    rw [outputPath_eq named, outputPath_eq named']
  have apart (same : Path.Same (s.outputPath directory input).toList
      (s.outputPath directory input').toList) : name = name' :=
    eq_of_same_outputPath plain named named' same
  constructor
  · refine ⟨fun same => apart ?_, equal⟩
    rw [same]
    exact ⟨rfl, rfl⟩
  · refine ⟨apart, fun same => ?_⟩
    rw [equal same]
    exact ⟨rfl, rfl⟩

/-- Two names that differ in a dot at the end, and a suffix that is the name of one of them. -/
theorem outputPath_separates_dots :
    (⟨4, ".b"⟩ : Settings).outputPath "out/./" "x/.b./." = "out/./.b.b." ∧
      (⟨4, ".b"⟩ : Settings).PutsInto "out/./" "x/.b./." ∧
      (⟨4, ".b"⟩ : Settings).outputPath "out/./" ".b" = "out/./.b.b" ∧
      ¬ Path.Same ((⟨4, ".b"⟩ : Settings).outputPath "out/./" "x/.b./.").toList
        ((⟨4, ".b"⟩ : Settings).outputPath "out/./" ".b").toList := by
  have named : Path.fileName? "x/.b./.".toList = some ".b.".toList := by decide
  have named' : Path.fileName? ".b".toList = some ".b".toList := by decide
  have plain : '/' ∉ (⟨4, ".b"⟩ : Settings).outputSuffix.toList := by decide
  obtain ⟨puts, separates⟩ := outputPath_separates plain "out/./"
  refine ⟨by decide, puts _ _ named, by decide, ?_⟩
  rw [(separates _ _ _ _ named named').2]
  decide

end Settings

end CodableSynthesis
