import CodableSynthesis.Proofs.Storing.Writes

/-!
Storing texts under names in one directory. Where a name leads depends on the directory alone, and
the directory is made when the first text is stored; so the texts are put side by side, and it does
not matter in which order.

* `FileTree.Reaches`: the names in a directory lead to places side by side.
* `Run.Prepared`: a tree with a directory made, and where that is.
* `Run.stored_iff`: storing is making the directory once and putting the texts there.
* `Run.stored_perm`: under names that differ, any order leaves the same.

A run stores its results one after the other, and every time makes the directories above. From the
second text on there is nothing to make. What is left is to put texts at places that differ, which
commutes.

The trees that two orders leave are compared place by place. They need not be the same list of
entries.
-/

namespace CodableSynthesis

open CodableSynthesis.Path (IsName)

/-- The path of a name in a directory. -/
def pathIn (directory : String) (name : List Char) : String :=
  String.ofList (Path.join directory.toList name)

/-- The place of a name in a directory, by the place of the directory. -/
def Place.below (base : Place) (name : List Char) : Place :=
  base ++ [String.ofList name]

theorem Place.below_injective {base : Place} {name name' : List Char}
    (same : base.below name = base.below name') : name = name' := by
  have last := List.append_cancel_left same
  rw [List.cons.injEq] at last
  rw [← String.toList_ofList (l := name), last.1, String.toList_ofList]

namespace Path

variable {directory name : List Char}

theorem join_eq_append (directory : List Char) (h : '/' ∉ name) :
    ∃ front, join directory name = front ++ name := by
  rw [join, if_neg (by simp [isAbsolute_of_noSlash h])]
  split
  · exact ⟨directory, rfl⟩
  · exact ⟨directory ++ ['/'], by simp⟩

end Path

namespace FileTree

variable {t t' : FileTree} {directory : String} {base : Place} {name : List Char}

theorem endsInSlash_pathIn (h : IsName name) : endsInSlash (pathIn directory name) = false := by
  obtain ⟨front, made⟩ := Path.join_eq_append directory.toList h.noSlash
  rw [endsInSlash, pathIn, String.toList_ofList, made, List.getLast?_append_of_ne_nil _ h.ne_nil]
  rw [beq_eq_false_iff_ne]
  intro slash
  exact h.noSlash (List.mem_of_getLast? slash)

/-- It goes along the pieces of the directory, and then to the name. -/
theorem piecesAlong_join (h : IsName name) {directory : List Char} :
    piecesAlong (Path.join directory name) = Path.frontPieces directory ++ [name] := by
  rw [piecesAlong, Path.pieces_join h.noSlash, List.reverse_append, List.reverse_singleton,
    List.singleton_append, List.dropWhile_cons_of_neg (by simp [h.ne_nil])]
  simp

/-- The names in a directory lead to places side by side. -/
def Reaches (t : FileTree) (directory : String) (base : Place) : Prop :=
  ∀ name, IsName name → t.follow (pathIn directory name) = .ok (.entry (base.below name))

theorem Reaches.mono (h : t.Reaches directory base) (keeps : t.KeepsDirectories t') :
    t'.Reaches directory base :=
  fun name isName => follow_mono keeps (h name isName)

/-- If one name leads somewhere, all do. -/
theorem reaches_of_follow {place : Place} (h : IsName name)
    (led : t.follow (pathIn directory name) = .ok (.entry place)) :
    ∃ base, place = base.below name ∧ t.Reaches directory base := by
  have led := follow_eq_ok_iff.mp led
  rw [pathIn, String.toList_ofList] at led
  cases led with
  | @entry start mid front last some_ entered split along notIdle notUp =>
    rw [piecesAlong_join h] at split
    obtain ⟨rfl, same⟩ := List.append_inj' split rfl
    cases same
    refine ⟨mid, rfl, fun other isName => follow_eq_ok_iff.mpr ?_⟩
    rw [pathIn, String.toList_ofList]
    refine .entry ?_ ?_ (piecesAlong_join isName) along isName.notIdle isName.notUp
    · obtain ⟨front, made⟩ := Path.join_eq_append directory.toList isName.noSlash
      simp [made, isName.ne_nil]
    · rw [startOf, Path.isAbsolute_join isName.noSlash]
      rwa [startOf, Path.isAbsolute_join h.noSlash] at entered

end FileTree

namespace Run

open FileTree

variable {t t' t₁ t₂ : FileTree} {directory text : String} {base : Place} {name : List Char}
variable {ws ws' : List (List Char × String)}

/-- A tree with a directory made, and where that is. -/
structure Prepared (t : FileTree) (directory : String) (t₁ : FileTree) (base : Place) : Prop where
  /-- Its directories were made for any name in it. -/
  opened : ∀ name, IsName name → Opened t (pathIn directory name) t₁
  /-- The names lead to it. -/
  reaches : t₁.Reaches directory base

theorem Prepared.again (h : Prepared t directory t₁ base) (keeps : t₁.KeepsDirectories t₂) :
    Prepared t₂ directory t₂ base :=
  ⟨fun name isName => (h.opened name isName).again keeps, h.reaches.mono keeps⟩

theorem opened_pathIn {other : List Char} (h : IsName name) (isName : IsName other)
    (opened : Opened t (pathIn directory name) t₁) : Opened t (pathIn directory other) t₁ := by
  rw [Opened, pathIn, String.toList_ofList, Path.parent?_join h] at opened
  rw [Opened, pathIn, String.toList_ofList, Path.parent?_join isName]
  exact opened

theorem prepared_of_store (h : IsName name)
    (stored : store t (pathIn directory name) text = (t', .ok ())) :
    ∃ t₁ base, Prepared t directory t₁ base := by
  obtain ⟨t₁, opened, written⟩ := store_eq_ok_iff.mp stored
  obtain ⟨-, place, led, -⟩ := write_eq_ok_iff.mp written
  obtain ⟨base, -, reaches⟩ := reaches_of_follow h led
  exact ⟨t₁, base, fun other isName => opened_pathIn h isName opened, reaches⟩

/-- In a directory that was made, a text is put at its place unless that is a directory. -/
theorem store_prepared_iff (p : Prepared t directory t₁ base) (h : IsName name) :
    store t (pathIn directory name) text = (t', .ok ()) ↔
      t₁.get? (base.below name) ≠ some .directory ∧
        t' = t₁.put (base.below name) (.file (.text text)) := by
  have opened := p.opened name h
  have led := p.reaches name h
  constructor
  · intro stored
    obtain ⟨t₂, opened', written⟩ := store_eq_ok_iff.mp stored
    obtain rfl := opened.unique opened'
    obtain ⟨-, place, led', noDirectory, made⟩ := write_eq_ok_iff.mp written
    rw [led] at led'
    cases led'
    exact ⟨noDirectory, made⟩
  · rintro ⟨noDirectory, made⟩
    exact store_eq_ok_iff.mpr ⟨t₁, opened, write_eq_ok_iff.mpr
      ⟨endsInSlash_pathIn h, _, led, noDirectory, made⟩⟩

/-- The paths of some names in a directory, each with its text. -/
def pathsIn (directory : String) (ws : List (List Char × String)) : List (String × String) :=
  ws.map fun w => (pathIn directory w.1, w.2)

/-- The places of some names in a directory, each with its text. -/
def placesBelow (base : Place) (ws : List (List Char × String)) : List (Place × String) :=
  ws.map fun w => (base.below w.1, w.2)

/-- Some texts can be put below a place, none where a directory is. -/
def Fits (t : FileTree) (base : Place) (ws : List (List Char × String)) : Prop :=
  ∀ w ∈ ws, t.get? (base.below w.1) ≠ some .directory

/-- A text that was put in the directory does not matter to those that follow. -/
theorem fits_put_iff (free : t.get? (base.below name) ≠ some .directory) :
    Fits (t.put (base.below name) (.file (.text text))) base ws ↔ Fits t base ws := by
  refine forall₂_congr fun w _ => not_congr ?_
  rw [get?_put t (t.isGiven_of_get? free)]
  split
  · next same =>
    rw [same]
    exact ⟨nofun, fun is => absurd is free⟩
  · rfl

/-- Storing in a directory that was made. The induction is on the texts; each of them leaves the
directory as it is. -/
theorem stored_prepared_iff (names : ∀ w ∈ ws, IsName w.1) (p : Prepared t directory t base) :
    Stored t (pathsIn directory ws) t' ↔
      Fits t base ws ∧ t' = t.putTexts (placesBelow base ws) := by
  induction ws generalizing t with
  | nil =>
    constructor
    · rintro ⟨⟩
      exact ⟨nofun, rfl⟩
    · rintro ⟨-, rfl⟩
      exact .nil
  | cons w ws ih =>
    rw [List.forall_mem_cons] at names
    have later (free : t.get? (base.below w.1) ≠ some .directory) :
        Stored (t.put (base.below w.1) (.file (.text w.2))) (pathsIn directory ws) t' ↔
          Fits t base ws ∧ t' = t.putTexts (placesBelow base (w :: ws)) := by
      have keeps := keepsDirectories_put (.file (.text w.2)) free
      rw [ih names.2 (p.again keeps), fits_put_iff free]
      rfl
    refine stored_cons_iff.trans ?_
    constructor
    · rintro ⟨u, stored, more⟩
      obtain ⟨free, rfl⟩ := (store_prepared_iff p names.1).mp stored
      obtain ⟨fits, made⟩ := (later free).mp more
      exact ⟨List.forall_mem_cons.mpr ⟨free, fits⟩, made⟩
    · rintro ⟨fits, made⟩
      obtain ⟨free, fits⟩ := List.forall_mem_cons.mp fits
      exact ⟨_, (store_prepared_iff p names.1).mpr ⟨free, rfl⟩, (later free).mpr ⟨fits, made⟩⟩

/-- Where a directory is made, storing begins as in the tree that has it. -/
theorem stored_of_prepared {w : List Char × String} (h : IsName w.1)
    (p : Prepared t directory t₁ base) :
    Stored t (pathsIn directory (w :: ws)) t' ↔ Stored t₁ (pathsIn directory (w :: ws)) t' := by
  have again := p.again (.refl _)
  have first {u : FileTree} : store t (pathIn directory w.1) w.2 = (u, .ok ()) ↔
      store t₁ (pathIn directory w.1) w.2 = (u, .ok ()) :=
    (store_prepared_iff p h).trans (store_prepared_iff again h).symm
  refine stored_cons_iff.trans (Iff.trans ?_ stored_cons_iff.symm)
  exact exists_congr fun u => and_congr_left fun _ => first

/-- Storing texts under names in a directory is making it and putting them there. -/
theorem stored_iff (names : ∀ w ∈ ws, IsName w.1) (some_ : ws ≠ []) :
    Stored t (pathsIn directory ws) t' ↔
      ∃ t₁ base, Prepared t directory t₁ base ∧ Fits t₁ base ws ∧
        t' = t₁.putTexts (placesBelow base ws) := by
  obtain ⟨w, ws, rfl⟩ := List.exists_cons_of_ne_nil some_
  have name := names w List.mem_cons_self
  constructor
  · intro h
    obtain ⟨t₁, base, p⟩ : ∃ t₁ base, Prepared t directory t₁ base := by
      obtain ⟨_, stored, -⟩ := stored_cons_iff.mp h
      exact prepared_of_store name stored
    have again := p.again (.refl _)
    exact ⟨t₁, base, p, (stored_prepared_iff names again).mp ((stored_of_prepared name p).mp h)⟩
  · rintro ⟨t₁, base, p, h⟩
    have again := p.again (.refl _)
    exact (stored_of_prepared name p).mpr ((stored_prepared_iff names again).mpr h)

/-- Under names that differ, texts can be stored in any order, and leave the same. -/
theorem stored_perm (names : ∀ w ∈ ws, IsName w.1) (distinct : (ws.map (·.1)).Nodup)
    (same : ws.Perm ws') (h : Stored t (pathsIn directory ws) t') :
    ∃ t'', Stored t (pathsIn directory ws') t'' ∧ ∀ place, t''.get? place = t'.get? place := by
  by_cases some_ : ws = []
  · subst some_
    obtain rfl := same.nil_eq
    exact ⟨t', h, fun _ => rfl⟩
  obtain ⟨t₁, base, p, fits, rfl⟩ := (stored_iff names some_).mp h
  have names' : ∀ w ∈ ws', IsName w.1 := fun w mem => names w (same.mem_iff.mpr mem)
  have some' : ws' ≠ [] := by
    rintro rfl
    exact some_ same.eq_nil
  have fits' : Fits t₁ base ws' := fun w mem => fits w (same.mem_iff.mpr mem)
  refine ⟨_, (stored_iff names' some').mpr ⟨t₁, base, p, fits', rfl⟩, fun place => ?_⟩
  apply get?_putTexts_perm (same.map _)
  · intro w mem
    obtain ⟨v, here, rfl⟩ := List.mem_map.mp mem
    exact t₁.isGiven_of_get? (fits v here)
  · have places : (placesBelow base ws).map (·.1) = (ws.map (·.1)).map base.below := by
      simp [placesBelow]
    change ((placesBelow base ws).map (·.1)).Nodup
    rw [places]
    exact distinct.map fun _ _ => Place.below_injective

end Run

end CodableSynthesis
