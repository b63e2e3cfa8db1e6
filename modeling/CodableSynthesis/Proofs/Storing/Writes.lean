import CodableSynthesis.Proofs.Storing.Places
import CodableSynthesis.Run.Outcome
import Mathlib.Data.List.Nodup

/-!
What storing texts one after the other leaves. Every path leads where it led when its text was
stored, so that the last text stored at a place is the one found there.

* `FileTree.readText_eq_ok_iff`, `Run.store_eq_ok_iff`: what it takes to read and to store a text.
* `Run.Stored`: texts that were stored one after the other, and the tree they leave.
* `Run.Stored.get?`: what stands at a place in the end.
* `Run.Stored.readText_last`: what can be read at the paths in the end.
* `Run.Stored.readText_frame`: what can be read where nothing was stored.

A text is stored in two steps: the directories above its path are made, and the file is written.
`Opened` is the tree between the two. Making directories may turn nothing into something but takes
nothing away, so that one text after the other can be followed with the lemmas of `Places`.

Two paths may lead to one place. Then the last text is found there, and it may be another than the
one stored by the path that is read. `OnePerPlace` says that this does not matter, and is exactly
what it takes for every path to have its own text.
-/

namespace CodableSynthesis

open CodableSynthesis.Path (IsName)

namespace FileTree

variable {t t' t₁ t₂ : FileTree} {path : String} {place base : Place}

theorem find_of_entry (led : t.follow path = .ok (.entry place)) :
    t.find path = match t.get? place with
      | none => .error .notFound
      | some .directory => .ok .directory
      | some (.file content) =>
        if endsInSlash path then .error .notDirectory else .ok (.file content) := by
  rw [find, led]
  rfl

/-- Texts are read of files: of places that a path leads to without a slash at its end. -/
theorem readText_eq_ok_iff {text : String} :
    t.readText path = .ok text ↔ endsInSlash path = false ∧
      ∃ place, t.follow path = .ok (.entry place) ∧ t.get? place = some (.file (.text text)) := by
  constructor
  · intro read
    rw [readText] at read
    cases led : t.follow path with
    | error e =>
      rw [find, led] at read
      cases read
    | ok target =>
      cases target with
      | directory place =>
        rw [find, led] at read
        cases read
      | entry place =>
        rw [find_of_entry led] at read
        cases here : t.get? place with
        | none =>
          rw [here] at read
          cases read
        | some e =>
          rw [here] at read
          cases e with
          | directory => cases read
          | file content =>
            cases slash : endsInSlash path <;> rw [slash] at read
            · cases content <;> cases read
              exact ⟨rfl, place, rfl, here⟩
            · cases read
  · rintro ⟨noSlash, place, led, here⟩
    rw [readText, find_of_entry led, here, noSlash]
    rfl

theorem write_of_entry {content : Content} (led : t.follow path = .ok (.entry place)) :
    t.write path content =
      if endsInSlash path || t.get? place = some .directory then .error .isDirectory
      else .ok (t.put place (.file content)) := by
  rw [write, led]
  rfl

/-- Files are put where no directory is. -/
theorem write_eq_ok_iff {content : Content} :
    t.write path content = .ok t' ↔ endsInSlash path = false ∧
      ∃ place, t.follow path = .ok (.entry place) ∧ t.get? place ≠ some .directory ∧
        t' = t.put place (.file content) := by
  constructor
  · intro written
    cases led : t.follow path with
    | error e =>
      rw [write, led] at written
      cases written
    | ok target =>
      cases target with
      | directory place =>
        rw [write, led] at written
        cases written
      | entry place =>
        rw [write_of_entry led] at written
        split at written
        · cases written
        · next fits =>
          cases written
          rw [Bool.or_eq_true, not_or, Bool.not_eq_true, decide_eq_true_eq] at fits
          exact ⟨fits.1, place, rfl, fits.2, rfl⟩
  · rintro ⟨noSlash, place, led, noDirectory, rfl⟩
    rw [write_of_entry led, if_neg (by simp [noSlash, noDirectory])]

/-- Nothing of a tree is missing in another: directories are directories and files are files, though
perhaps with other contents. -/
structure Preserved (t t' : FileTree) : Prop where
  /-- Directories are where they were. -/
  directories : t.KeepsDirectories t'
  /-- Files are where they were, whatever they hold now. -/
  files : ∀ place content, t.get? place = some (.file content) →
    ∃ content', t'.get? place = some (.file content')

/-- A tree with some texts put at places, one after the other. -/
def putTexts (t : FileTree) (ws : List (Place × String)) : FileTree :=
  ws.foldl (fun t w => t.put w.1 (.file (.text w.2))) t

/-- At other places nothing changes. -/
theorem get?_putTexts_of_notMem {ws : List (Place × String)}
    (free : ∀ w ∈ ws, t.isGiven w.1 = false) (away : ∀ w ∈ ws, w.1 ≠ place) :
    (t.putTexts ws).get? place = t.get? place := by
  induction ws generalizing t with
  | nil => rfl
  | cons w ws ih =>
    rw [List.forall_mem_cons] at free away
    have later : ∀ other ∈ ws, (t.put w.1 (.file (.text w.2))).isGiven other.1 = false := free.2
    change ((t.put w.1 _).putTexts ws).get? place = _
    rw [ih later away.2, get?_put t free.1, if_neg away.1.symm]

/-- What stands at places that differ from one another, whichever text was put first. -/
theorem get?_putTexts {ws : List (Place × String)} (free : ∀ w ∈ ws, t.isGiven w.1 = false)
    (distinct : (ws.map (·.1)).Nodup) {w : Place × String} (mem : w ∈ ws) :
    (t.putTexts ws).get? w.1 = some (.file (.text w.2)) := by
  induction ws generalizing t with
  | nil => cases mem
  | cons first ws ih =>
    rw [List.forall_mem_cons] at free
    rw [List.map_cons, List.nodup_cons] at distinct
    have later : ∀ other ∈ ws, (t.put first.1 (.file (.text first.2))).isGiven other.1 = false :=
      free.2
    change ((t.put first.1 _).putTexts ws).get? w.1 = _
    rcases List.mem_cons.mp mem with rfl | mem
    · have away : ∀ other ∈ ws, other.1 ≠ w.1 := by
        intro other here same
        exact distinct.1 (List.mem_map.mpr ⟨other, here, same⟩)
      rw [get?_putTexts_of_notMem later away, get?_put t free.1, if_pos rfl]
    · exact ih later distinct.2 mem

/-- Texts at different places may be put in any order. -/
theorem get?_putTexts_perm {ws ws' : List (Place × String)} (same : ws.Perm ws')
    (free : ∀ w ∈ ws, t.isGiven w.1 = false) (distinct : (ws.map (·.1)).Nodup) (place : Place) :
    (t.putTexts ws').get? place = (t.putTexts ws).get? place := by
  have free' : ∀ w ∈ ws', t.isGiven w.1 = false := fun w mem => free w (same.mem_iff.mpr mem)
  have distinct' : (ws'.map (·.1)).Nodup := (same.map _).nodup_iff.mp distinct
  by_cases here : ∃ w ∈ ws, w.1 = place
  · obtain ⟨w, mem, rfl⟩ := here
    rw [get?_putTexts free distinct mem, get?_putTexts free' distinct' (same.mem_iff.mp mem)]
  · push Not at here
    rw [get?_putTexts_of_notMem free here,
      get?_putTexts_of_notMem free' fun w mem => here w (same.mem_iff.mpr mem)]

end FileTree

/-! ### One text after the other

The relation that a run which stores its results is brought to. It speaks of paths and texts only,
not of sources. -/

namespace Run

open FileTree

variable {t t' t₁ t₂ : FileTree} {path text : String} {place base : Place}
variable {ws ws' : List (String × String)}

/-- A tree with the directories made that stand above a path. -/
def Opened (t : FileTree) (path : String) (t₁ : FileTree) : Prop :=
  match Path.parent? path.toList with
  | some above => t.ensureDirectories (String.ofList above) = (t₁, .ok ())
  | none => t₁ = t

/-- Nothing goes away when directories are made. -/
theorem Opened.grows (h : Opened t path t₁) : t.Grows t₁ := by
  rw [Opened] at h
  split at h
  · next above _ =>
    have grows := t.ensureDirectories_grows (String.ofList above)
    rw [h] at grows
    exact grows
  · subst h
    exact .refl _

/-- Which tree it is, is determined. -/
theorem Opened.unique (h : Opened t path t₁) (h' : Opened t path t₂) : t₁ = t₂ := by
  rw [Opened] at h h'
  cases above : Path.parent? path.toList with
  | none =>
    simp only [above] at h h'
    rw [h, h']
  | some above =>
    simp only [above] at h h'
    exact congrArg Prod.fst (h.symm.trans h')

/-- Where the directories were made before, nothing is left to do. -/
theorem Opened.again (h : Opened t path t₁) (keeps : t₁.KeepsDirectories t₂) :
    Opened t₂ path t₂ := by
  rw [Opened] at h ⊢
  cases above : Path.parent? path.toList with
  | none => rfl
  | some above =>
    simp only [above] at h
    exact ensureDirectories_again keeps h

theorem Opened.of_store (stored : store t path text = (t', .ok ())) :
    ∃ t₁, Opened t path t₁ ∧ t₁.write path (.text text) = .ok t' := by
  rw [store] at stored
  unfold Opened
  cases parent : Path.parent? path.toList with
  | none =>
    simp only [parent] at stored
    cases written : t.write path (.text text) with
    | error e => simp [written] at stored
    | ok u =>
      simp only [written, Prod.mk.injEq, and_true] at stored
      exact ⟨t, rfl, written.trans (congrArg _ stored)⟩
  | some above =>
    cases ensured : t.ensureDirectories (String.ofList above) with
    | mk t₁ result =>
      cases result with
      | error e => simp [parent, ensured, Except.mapError] at stored
      | ok =>
        simp only [parent, ensured, Except.mapError] at stored
        cases written : t₁.write path (.text text) with
        | error e => simp [written] at stored
        | ok u =>
          simp only [written, Prod.mk.injEq, and_true] at stored
          exact ⟨t₁, ensured, written.trans (congrArg _ stored)⟩

theorem Opened.store (h : Opened t path t₁) (written : t₁.write path (.text text) = .ok t') :
    Run.store t path text = (t', .ok ()) := by
  rw [Opened] at h
  rw [Run.store]
  cases above : Path.parent? path.toList with
  | none =>
    simp only [above] at h
    subst h
    simp [written]
  | some above =>
    simp only [above] at h
    simp [h, Except.mapError, written]

/-- A text is stored by making the directories above and writing it. -/
theorem store_eq_ok_iff :
    store t path text = (t', .ok ()) ↔
      ∃ t₁, Opened t path t₁ ∧ t₁.write path (.text text) = .ok t' :=
  ⟨Opened.of_store, fun ⟨_, opened, written⟩ => opened.store written⟩

/-- Texts are stored at paths, one after the other. -/
inductive Stored : FileTree → List (String × String) → FileTree → Prop
  /-- No texts were stored. -/
  | nil {t : FileTree} : Stored t [] t
  /-- One text was stored, and then the others. -/
  | cons {t t₁ t' : FileTree} {path text : String} {ws : List (String × String)} :
      store t path text = (t₁, .ok ()) → Stored t₁ ws t' → Stored t ((path, text) :: ws) t'

/-- The first text is stored in the tree as it is, the others in what that leaves. -/
theorem stored_cons_iff {w : String × String} :
    Stored t (w :: ws) t' ↔ ∃ t₁, store t w.1 w.2 = (t₁, .ok ()) ∧ Stored t₁ ws t' := by
  constructor
  · rintro ⟨⟩
    next stored later => exact ⟨_, stored, later⟩
  · rintro ⟨_, stored, later⟩
    exact .cons stored later

/-- A path leads to a name in a directory, and that is the place, whatever stands there. Nothing
need stand there. -/
def LeadsTo (t : FileTree) (place : Place) (path : String) : Prop :=
  t.follow path = .ok (.entry place)

/-- What storing one text does to a tree: above it directories are made, and at one place, that is
no directory, the text is put. -/
theorem store_ok (stored : store t path text = (t', .ok ())) :
    ∃ t₁ place, t.Grows t₁ ∧ endsInSlash path = false ∧ LeadsTo t₁ place path ∧
      t₁.get? place ≠ some .directory ∧ t' = t₁.put place (.file (.text text)) := by
  obtain ⟨t₁, opened, written⟩ := store_eq_ok_iff.mp stored
  obtain ⟨noSlash, place, led, noDirectory, rfl⟩ := write_eq_ok_iff.mp written
  exact ⟨t₁, place, opened.grows, noSlash, led, noDirectory, rfl⟩

/-- Storing a text keeps all directories, and the path leads to the text. -/
theorem store_keeps (stored : store t path text = (t', .ok ())) :
    t.KeepsDirectories t' ∧ endsInSlash path = false ∧
      ∃ place, LeadsTo t' place path ∧ t'.get? place = some (.file (.text text)) ∧
        ∀ other, other ≠ place → t'.get? other = t.get? other ∨
          t.get? other = none ∧ t'.get? other = some .directory := by
  obtain ⟨t₁, place, grows, noSlash, led, noDirectory, rfl⟩ := store_ok stored
  have free : t₁.isGiven place = false := t₁.isGiven_of_get? noDirectory
  have keeps : t₁.KeepsDirectories (t₁.put place (.file (.text text))) :=
    keepsDirectories_put _ noDirectory
  refine ⟨grows.keepsDirectories.trans keeps, noSlash, place, follow_mono keeps led, ?_, ?_⟩
  · rw [get?_put t₁ free, if_pos rfl]
  · intro other away
    rw [get?_put t₁ free, if_neg away]
    exact grows.entries other

/-- A text is the last of some that go to the place of a path. Where paths lead is told in one tree,
which is the one that is left in the end. -/
def LastAt (t : FileTree) (ws : List (String × String)) (path text : String) : Prop :=
  ∃ front last back, ws = front ++ last :: back ∧ last.2 = text ∧
    t.follow last.1 = t.follow path ∧ ∀ later ∈ back, t.follow later.1 ≠ t.follow path

/-- Texts that go to one place are one text. -/
def OnePerPlace (t : FileTree) (ws : List (String × String)) : Prop :=
  ∀ w ∈ ws, ∀ w' ∈ ws, t.follow w.1 = t.follow w'.1 → w.2 = w'.2

instance (t : FileTree) (ws : List (String × String)) : Decidable (OnePerPlace t ws) :=
  inferInstanceAs (Decidable (∀ w ∈ ws, ∀ w' ∈ ws, t.follow w.1 = t.follow w'.1 → w.2 = w'.2))

namespace Stored

theorem keepsDirectories (h : Stored t ws t') : t.KeepsDirectories t' := by
  induction h with
  | nil => exact .refl _
  | cons stored _ ih => exact (store_keeps stored).1.trans ih

/-- Every path leads to a place in the end. -/
theorem leads (h : Stored t ws t') :
    ∀ w ∈ ws, endsInSlash w.1 = false ∧ ∃ place, LeadsTo t' place w.1 := by
  induction h with
  | nil => nofun
  | cons stored later ih =>
    obtain ⟨-, noSlash, place, led, -⟩ := store_keeps stored
    exact List.forall_mem_cons.mpr
      ⟨⟨noSlash, place, follow_mono later.keepsDirectories led⟩, ih⟩

/-- What stands at a place in the end: the last text that was stored there, or else what stood
there, where nothing may have become a directory. The induction is on the texts, and the paths are
followed in the last tree. -/
theorem get? (h : Stored t ws t') (place : Place) :
    (∃ front w back, ws = front ++ w :: back ∧ LeadsTo t' place w.1 ∧
      (∀ later ∈ back, ¬ LeadsTo t' place later.1) ∧
      t'.get? place = some (.file (.text w.2))) ∨
    ((∀ w ∈ ws, ¬ LeadsTo t' place w.1) ∧
      (t'.get? place = t.get? place ∨
        t.get? place = none ∧ t'.get? place = some .directory)) := by
  induction h with
  | nil => exact .inr ⟨nofun, .inl rfl⟩
  | @cons t t₁ t' path text ws stored later ih =>
    obtain ⟨-, -, here, led, is, others⟩ := store_keeps stored
    have led' : LeadsTo t' here path := follow_mono later.keepsDirectories led
    rcases ih with ⟨front, w, back, rfl, last, none, found⟩ | ⟨away, found⟩
    · exact .inl ⟨(path, text) :: front, w, back, rfl, last, none, found⟩
    · by_cases same : place = here
      · subst same
        refine .inl ⟨[], (path, text), ws, rfl, led', away, ?_⟩
        rw [is] at found
        exact found.resolve_right fun h => by cases h.1
      · refine .inr ⟨List.forall_mem_cons.mpr ⟨?_, away⟩, ?_⟩
        · intro also
          rw [LeadsTo, led'] at also
          cases also
          exact same rfl
        · rcases others place same with old | ⟨none, made⟩
          · rw [← old]
            exact found
          · rw [made] at found
            exact .inr ⟨none, found.resolve_right fun h => by cases h.1⟩

/-- At every path the last text can be read that was stored at its place. -/
theorem readText_last (h : Stored t ws t') {w : String × String} (mem : w ∈ ws) :
    ∃ text, LastAt t' ws w.1 text ∧ t'.readText w.1 = .ok text := by
  obtain ⟨noSlash, place, led⟩ := h.leads w mem
  rcases h.get? place with ⟨front, last, back, made, led', none, found⟩ | ⟨away, -⟩
  · refine ⟨last.2, ⟨front, last, back, made, rfl, led'.trans led.symm, ?_⟩, ?_⟩
    · intro later mem same
      exact none later mem (same.trans led)
    · exact readText_eq_ok_iff.mpr ⟨noSlash, place, led, found⟩
  · exact absurd led (away w mem)

/-- At every path its own text can be read exactly if texts that go to one place are the same. -/
theorem readText_iff (h : Stored t ws t') :
    (∀ w ∈ ws, t'.readText w.1 = .ok w.2) ↔ OnePerPlace t' ws := by
  constructor
  · intro read w mem w' mem' same
    obtain ⟨-, place, led, found⟩ := readText_eq_ok_iff.mp (read w mem)
    obtain ⟨-, place', led', found'⟩ := readText_eq_ok_iff.mp (read w' mem')
    rw [led, led'] at same
    cases same
    rw [found] at found'
    simpa using found'
  · intro one w mem
    obtain ⟨_, ⟨front, last, back, rfl, rfl, same, -⟩, read⟩ := h.readText_last mem
    have here : last ∈ front ++ last :: back := List.mem_append_right _ List.mem_cons_self
    rw [read, one w mem last here same.symm]

/-- Files at places that no path leads to are the files that were there. -/
theorem file_iff (h : Stored t ws t') (away : ∀ w ∈ ws, ¬ LeadsTo t' place w.1)
    (content : Content) :
    t'.get? place = some (.file content) ↔ t.get? place = some (.file content) := by
  rcases h.get? place with ⟨front, w, back, rfl, led, -⟩ | ⟨-, same | ⟨none, made⟩⟩
  · exact absurd led (away w (List.mem_append_right _ List.mem_cons_self))
  · rw [same]
  · rw [none, made]
    exact ⟨nofun, nofun⟩

/-- A file that nothing was stored at is read as before. Texts that went to other paths may have led
to directories above it, which does not matter to it. -/
theorem readText_frame (h : Stored t ws t') (away : ∀ w ∈ ws, t'.follow w.1 ≠ t'.follow path)
    (read : t.readText path = .ok text) : t'.readText path = .ok text := by
  obtain ⟨noSlash, place, led, found⟩ := readText_eq_ok_iff.mp read
  have led' := follow_mono h.keepsDirectories led
  refine readText_eq_ok_iff.mpr ⟨noSlash, place, led', ?_⟩
  apply (h.file_iff _ _).mpr found
  intro w mem also
  exact away w mem (also.trans led'.symm)

theorem preserves (h : Stored t ws t') : t.Preserved t' := by
  refine ⟨h.keepsDirectories, fun place content is => ?_⟩
  rcases h.get? place with ⟨-, w, -, -, -, -, found⟩ | ⟨-, same | ⟨none, -⟩⟩
  · exact ⟨_, found⟩
  · exact ⟨content, same.trans is⟩
  · rw [is] at none
    cases none

end Stored

end Run

end CodableSynthesis
