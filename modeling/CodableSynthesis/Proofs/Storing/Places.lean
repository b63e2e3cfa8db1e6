import CodableSynthesis.Proofs.Storing.Names

/-!
Where paths lead while a file tree changes. Following a path only asks which directories are there,
so a path that leads somewhere goes on leading there as long as no directory goes away. Making the
directories above a path takes nothing away.

* `FileTree.KeepsDirectories`, `FileTree.Grows`: the two ways in which a tree changes here.
* `FileTree.Leads`: where a path leads, piece by piece.
* `FileTree.follow_mono`: paths lead where they led.
* `FileTree.ensureDirectories_grows`: only directories are added, where nothing was.
* `FileTree.ensureDirectories_of_isDirectory`: what was made once is found afterwards.

A path that led nowhere may lead somewhere later, as soon as a directory is made. So everything
about later trees is stated of paths that lead somewhere, and the converse is used only where the
directories are the same.

The trees have no links. A path then leads to one place, which its components tell, and going up
from a directory leads to the one around it.
-/

namespace CodableSynthesis

namespace FileTree

/-- All directories of a tree are directories in another, and one of them is the working directory
of both. -/
structure KeepsDirectories (t t' : FileTree) : Prop where
  /-- Paths begin at the same directory. -/
  workingDirectory : t'.workingDirectory = t.workingDirectory
  /-- They can go wherever they could. -/
  directories : ∀ place, t.get? place = some .directory → t'.get? place = some .directory

/-- A tree has what another has, and besides only directories. -/
structure Grows (t t' : FileTree) : Prop where
  /-- Paths begin at the same directory. -/
  workingDirectory : t'.workingDirectory = t.workingDirectory
  /-- What is there stays, and where nothing was there may be a directory. -/
  entries : ∀ place, t'.get? place = t.get? place ∨
    t.get? place = none ∧ t'.get? place = some .directory

/-- The place that a path leads to. -/
def Target.place : Target → Place
  | .directory place => place
  | .entry place => place

variable {t t' t'' : FileTree} {path : String} {place place' : Place}

theorem KeepsDirectories.refl (t : FileTree) : t.KeepsDirectories t :=
  ⟨rfl, fun _ is => is⟩

theorem KeepsDirectories.trans (h : t.KeepsDirectories t') (h' : t'.KeepsDirectories t'') :
    t.KeepsDirectories t'' := by
  refine ⟨h'.workingDirectory.trans h.workingDirectory, ?_⟩
  intro place is
  exact h'.directories place (h.directories place is)

theorem Grows.refl (t : FileTree) : t.Grows t :=
  ⟨rfl, fun _ => .inl rfl⟩

theorem Grows.trans (h : t.Grows t') (h' : t'.Grows t'') : t.Grows t'' := by
  refine ⟨h'.workingDirectory.trans h.workingDirectory, ?_⟩
  intro place
  rcases h.entries place with same | ⟨none, made⟩ <;>
    rcases h'.entries place with same' | ⟨none', made'⟩
  · exact .inl (same'.trans same)
  · exact .inr ⟨same ▸ none', made'⟩
  · exact .inr ⟨none, same'.trans made⟩
  · rw [made] at none'
    cases none'

theorem Grows.keepsDirectories (h : t.Grows t') : t.KeepsDirectories t' := by
  refine ⟨h.workingDirectory, ?_⟩
  intro place is
  rcases h.entries place with same | ⟨none, -⟩
  · exact same.trans is
  · rw [is] at none
    cases none

/-! ### Following

`FileTree.follow` goes along the pieces of a path from the directory that it begins at. The relation
`Leads` is the same with the last piece told apart, since that may be something other than a
directory. -/

theorem enter_eq_ok_iff :
    t.enter place = .ok place' ↔ t.get? place = some .directory ∧ place' = place := by
  rw [enter]
  split
  · next is => simp [is, eq_comm]
  · next is => simp [is]
  · next is => simp [is]

theorem enter_mono (h : t.KeepsDirectories t') (led : t.enter place = .ok place') :
    t'.enter place = .ok place' := by
  obtain ⟨is, rfl⟩ := enter_eq_ok_iff.mp led
  exact enter_eq_ok_iff.mpr ⟨h.directories _ is, rfl⟩

theorem startOf_eq (h : t.KeepsDirectories t') (cs : List Char) : t'.startOf cs = t.startOf cs := by
  rw [startOf, startOf, h.workingDirectory]

theorem foldlM_goAlong_mono (h : t.KeepsDirectories t') {pieces : List (List Char)}
    (led : pieces.foldlM t.goAlong place = .ok place') :
    pieces.foldlM t'.goAlong place = .ok place' := by
  induction pieces generalizing place with
  | nil => exact led
  | cons piece more ih =>
    rw [List.foldlM_cons] at led ⊢
    cases first : t.goAlong place piece with
    | error e => rw [first] at led; cases led
    | ok mid =>
      rw [first] at led
      rw [show t'.goAlong place piece = .ok mid from enter_mono h first]
      exact ih led

/-- The pieces of a path up to the slashes it ends in. -/
def piecesAlong (cs : List Char) : List (List Char) :=
  ((Path.pieces cs).reverse.dropWhile List.isEmpty).reverse

/-- Where a path leads: every piece but the last goes to a directory, and so does a last one that
names nothing or goes up. -/
inductive Leads (t : FileTree) (cs : List Char) : Target → Prop
  /-- A path of slashes leads to where it begins. -/
  | slashes {start : Place} :
      cs ≠ [] → t.enter (t.startOf cs) = .ok start → piecesAlong cs = [] →
      Leads t cs (.directory start)
  /-- A last piece that names nothing, or goes up, leads to a directory. -/
  | directory {start mid place : Place} {front : List (List Char)} {last : List Char} :
      cs ≠ [] → t.enter (t.startOf cs) = .ok start → piecesAlong cs = front ++ [last] →
      front.foldlM t.goAlong start = .ok mid → Path.isIdle last = true ∨ last = upPiece →
      t.goAlong mid last = .ok place → Leads t cs (.directory place)
  /-- A last piece that is a name leads to the place of that name, whatever stands there. -/
  | entry {start mid : Place} {front : List (List Char)} {last : List Char} :
      cs ≠ [] → t.enter (t.startOf cs) = .ok start → piecesAlong cs = front ++ [last] →
      front.foldlM t.goAlong start = .ok mid → Path.isIdle last = false → last ≠ upPiece →
      Leads t cs (.entry (mid ++ [String.ofList last]))

theorem follow_of_start {start : Place} (some_ : path.toList ≠ [])
    (entered : t.enter (t.startOf path.toList) = .ok start) :
    t.follow path = match (piecesAlong path.toList).getLast? with
      | none => .ok (.directory start)
      | some last => do
        let mid ← (piecesAlong path.toList).dropLast.foldlM t.goAlong start
        if Path.isIdle last || last = upPiece then return .directory (← t.goAlong mid last)
        else return .entry (mid ++ [String.ofList last]) := by
  rw [follow]
  simp only [List.isEmpty_iff, some_, if_false, entered]
  rfl

theorem follow_of_last {start : Place} {front : List (List Char)} {last : List Char}
    (some_ : path.toList ≠ []) (entered : t.enter (t.startOf path.toList) = .ok start)
    (split : piecesAlong path.toList = front ++ [last]) :
    t.follow path = do
        let mid ← front.foldlM t.goAlong start
        if Path.isIdle last || last = upPiece then return .directory (← t.goAlong mid last)
        else return .entry (mid ++ [String.ofList last]) := by
  rw [follow_of_start some_ entered, split, List.getLast?_concat, List.dropLast_concat]

/-- Following a path is going along its pieces. -/
theorem follow_eq_ok_iff {target : Target} :
    t.follow path = .ok target ↔ t.Leads path.toList target := by
  constructor
  · intro led
    by_cases empty : path.toList = []
    · rw [follow, empty] at led
      cases led
    cases entered : t.enter (t.startOf path.toList) with
    | error e =>
      rw [follow] at led
      simp only [List.isEmpty_iff, empty, if_false, entered] at led
      cases led
    | ok start =>
      rcases List.eq_nil_or_concat (piecesAlong path.toList) with none | ⟨front, last, split⟩
      · rw [follow_of_start empty entered, none] at led
        cases led
        exact .slashes empty entered none
      · rw [List.concat_eq_append] at split
        rw [follow_of_last empty entered split] at led
        cases along : front.foldlM t.goAlong start with
        | error e => rw [along] at led; cases led
        | ok mid =>
          rw [along] at led
          -- Idle pieces and steps up stay among directories; any other last piece names an entry.
          change (if Path.isIdle last || last = upPiece then _ else _) = _ at led
          split at led
          · next stays =>
            cases went : t.goAlong mid last with
            | error e => rw [went] at led; cases led
            | ok place =>
              rw [went] at led
              cases led
              exact .directory empty entered split along (by simpa using stays) went
          · next names =>
            cases led
            rw [Bool.or_eq_true, not_or, Bool.not_eq_true, decide_eq_true_eq] at names
            exact .entry empty entered split along names.1 names.2
  · intro led
    cases led with
    | slashes some_ entered none =>
      rw [follow_of_start some_ entered, none]
      rfl
    | directory some_ entered split along stays went =>
      rw [follow_of_last some_ entered split, along]
      change (if _ then _ else _) = _
      rw [if_pos (by simpa using stays), went]
      rfl
    | entry some_ entered split along notIdle notUp =>
      rw [follow_of_last some_ entered split, along]
      change (if _ then _ else _) = _
      rw [if_neg (by simp [notIdle, notUp])]
      rfl

/-- A path goes along as long as no directory goes away. -/
theorem Leads.mono {cs : List Char} {target : Target} (h : t.KeepsDirectories t')
    (led : t.Leads cs target) : t'.Leads cs target := by
  have begins {start : Place} (entered : t.enter (t.startOf cs) = .ok start) :
      t'.enter (t'.startOf cs) = .ok start := by
    rw [startOf_eq h]
    exact enter_mono h entered
  cases led with
  | slashes some_ entered none => exact .slashes some_ (begins entered) none
  | directory some_ entered split along stays went =>
    exact .directory some_ (begins entered) split (foldlM_goAlong_mono h along) stays
      (enter_mono h went)
  | entry some_ entered split along notIdle notUp =>
    exact .entry some_ (begins entered) split (foldlM_goAlong_mono h along) notIdle notUp

/-- A path leads where it led as long as no directory goes away. -/
theorem follow_mono {target : Target} (h : t.KeepsDirectories t')
    (led : t.follow path = .ok target) : t'.follow path = .ok target :=
  follow_eq_ok_iff.mpr ((follow_eq_ok_iff.mp led).mono h)

/-- What a path leads to as a directory is one. -/
theorem Leads.is_directory {cs : List Char} (led : t.Leads cs (.directory place)) :
    t.get? place = some .directory := by
  cases led with
  | slashes _ entered _ =>
    obtain ⟨is, rfl⟩ := enter_eq_ok_iff.mp entered
    exact is
  | directory _ _ _ _ _ went =>
    obtain ⟨is, rfl⟩ := enter_eq_ok_iff.mp went
    exact is

/-- Leaving out slashes at the end does not matter where the last piece names something. -/
theorem dropIdle_of_piecesAlong {cs last : List Char} {front : List (List Char)}
    (split : piecesAlong cs = front ++ [last]) (notIdle : Path.isIdle last = false) :
    Path.dropIdle (Path.pieces cs) = front ++ [last] := by
  have reversed : (Path.pieces cs).reverse.dropWhile List.isEmpty = last :: front.reverse := by
    rw [piecesAlong, List.reverse_eq_iff] at split
    simpa using split
  have slashes : ∀ piece ∈ (Path.pieces cs).reverse.takeWhile List.isEmpty,
      Path.isIdle piece = true := by
    intro piece mem
    simp [Path.isIdle, List.isEmpty_iff.mp (List.mem_takeWhile_imp mem)]
  have parts := List.takeWhile_append_dropWhile (p := List.isEmpty) (l := (Path.pieces cs).reverse)
  rw [Path.dropIdle, ← parts, List.dropWhile_append_of_pos slashes, reversed,
    List.dropWhile_cons_of_neg (by simp [notIdle])]
  simp

theorem Leads.fileName {cs : List Char} (led : t.Leads cs (.entry place)) :
    ∃ name, Path.fileName? cs = some name := by
  cases led with
  | @entry _ mid front last _ _ split _ notIdle notUp =>
    refine ⟨last, ?_⟩
    rw [Path.fileName?, dropIdle_of_piecesAlong split notIdle, List.getLast?_concat]
    simpa [upPiece] using notUp

/-! ### Making directories

`create_dir_all` makes what is missing from the top down. It may fail halfway, and then some
directories were made; nothing else has changed. -/

/-- Where nothing or a file stands, something can be put, and all directories stay. -/
theorem keepsDirectories_put (e : Entry) (free : t.get? place ≠ some .directory) :
    t.KeepsDirectories (t.put place e) := by
  refine ⟨rfl, ?_⟩
  intro other is
  rw [get?_put t (t.isGiven_of_get? free)]
  by_cases same : other = place
  · subst same
    exact absurd is free
  · rwa [if_neg same]

/-- Where nothing was, a directory may be put. -/
theorem grows_put_directory (none : t.get? place = none) : t.Grows (t.put place .directory) := by
  have free : t.isGiven place = false := t.isGiven_of_get? (by simp [none])
  refine ⟨rfl, ?_⟩
  intro other
  rw [get?_put t free]
  by_cases same : other = place
  · subst same
    exact .inr ⟨none, by rw [if_pos rfl]⟩
  · exact .inl (by rw [if_neg same])

/-- A path is one of a directory if a directory stands where it leads. -/
theorem isDirectory_iff :
    t.isDirectory path = true ↔
      ∃ target, t.follow path = .ok target ∧ t.get? target.place = some .directory := by
  rw [isDirectory, directory?]
  constructor
  · intro is
    split at is
    · next place led => exact ⟨_, led, (follow_eq_ok_iff.mp led).is_directory⟩
    · next place led =>
      split at is
      · next here => exact ⟨_, led, here⟩
      · cases is
    · cases is
  · rintro ⟨target, led, is⟩
    rw [led]
    cases target with
    | directory place => rfl
    | entry place =>
      change (if t.get? place = some .directory then _ else _ : Option Place).isSome = true
      rw [if_pos (show t.get? place = some .directory from is)]
      rfl

theorem isDirectory_mono (h : t.KeepsDirectories t') (is : t.isDirectory path = true) :
    t'.isDirectory path = true := by
  obtain ⟨target, led, is⟩ := isDirectory_iff.mp is
  exact isDirectory_iff.mpr ⟨target, follow_mono h led, h.directories _ is⟩

/-- A directory is made where nothing was. -/
theorem makeDirectory_ok (made : t.makeDirectory path = .ok t') :
    ∃ place, t.follow path = .ok (.entry place) ∧ t.get? place = none ∧
      t' = t.put place .directory := by
  rw [makeDirectory] at made
  cases led : t.follow path with
  | error e => rw [led] at made; cases made
  | ok target =>
    rw [led] at made
    cases target with
    | directory place => cases made
    | entry place =>
      change (if (t.get? place).isSome then _ else _) = _ at made
      split at made
      · cases made
      · next none =>
        cases made
        exact ⟨place, rfl, by simpa using none, rfl⟩

theorem ensureDirectory_of_isDirectory (is : t.isDirectory path = true) :
    t.ensureDirectory path = .ok t := by
  obtain ⟨target, led, here⟩ := isDirectory_iff.mp is
  have taken : t.makeDirectory path = .error .alreadyExists := by
    rw [makeDirectory, led]
    cases target with
    | directory place => rfl
    | entry place =>
      change (if (t.get? place).isSome then _ else _) = _
      rw [if_pos (by rw [show t.get? place = some .directory from here]; rfl)]
      rfl
  rw [ensureDirectory, taken]
  exact if_pos is

theorem ensureDirectory_ok (ensured : t.ensureDirectory path = .ok t') :
    t.Grows t' ∧ t'.isDirectory path = true := by
  rw [ensureDirectory] at ensured
  split at ensured
  · split at ensured
    · next is =>
      cases ensured
      exact ⟨.refl t, is⟩
    · cases ensured
  · obtain ⟨place, led, none, rfl⟩ := makeDirectory_ok ensured
    have free : t.isGiven place = false := t.isGiven_of_get? (by simp [none])
    have grows := grows_put_directory none
    refine ⟨grows, isDirectory_iff.mpr ⟨_, follow_mono grows.keepsDirectories led, ?_⟩⟩
    rw [Target.place, get?_put t free, if_pos rfl]

/-- Making the directories above a path takes nothing away, also where it fails. -/
theorem ensureDirectories_grows (t : FileTree) (path : String) :
    t.Grows (t.ensureDirectories path).1 := by
  fun_induction ensureDirectories t path with
  | case1 | case3 | case7 => exact .refl _
  | case2 path _ t' ensured => exact (ensureDirectory_ok ensured).1
  | case4 path _ _ above _ t' e made ih =>
    rw [made] at ih
    exact ih
  | case5 path _ _ above _ t' made t'' ensured ih =>
    rw [made] at ih
    exact ih.trans (ensureDirectory_ok ensured).1
  | case6 path _ _ above _ t' made e _ ih =>
    rw [made] at ih
    exact ih

/-- After its directories were made, a path is one of a directory. -/
theorem isDirectory_of_ensureDirectories (some_ : path.isEmpty = false)
    (ensured : t.ensureDirectories path = (t', .ok ())) : t'.isDirectory path = true := by
  rw [ensureDirectories, if_neg (by simp [some_])] at ensured
  split at ensured
  · next made =>
    cases ensured
    exact (ensureDirectory_ok made).2
  · split at ensured
    · cases ensured
    · split at ensured
      · cases ensured
      · split at ensured
        · next made =>
          cases ensured
          exact (ensureDirectory_ok made).2
        · cases ensured
  · cases ensured

/-- Directories that are there are found, and nothing changes. -/
theorem ensureDirectories_of_isDirectory (is : t.isDirectory path = true) :
    t.ensureDirectories path = (t, .ok ()) := by
  rw [ensureDirectories]
  split
  · rfl
  · rw [ensureDirectory_of_isDirectory is]

theorem ensureDirectories_again (h : t'.KeepsDirectories t'')
    (ensured : t.ensureDirectories path = (t', .ok ())) :
    t''.ensureDirectories path = (t'', .ok ()) := by
  by_cases empty : path.isEmpty = true
  · rw [ensureDirectories, if_pos empty]
  · rw [Bool.not_eq_true] at empty
    have is := isDirectory_of_ensureDirectories empty ensured
    exact ensureDirectories_of_isDirectory (isDirectory_mono h is)

end FileTree

end CodableSynthesis
