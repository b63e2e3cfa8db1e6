import CodableSynthesis.Expansion.Source

/-!
Making edits. `Edit.Made` says what it means that edits were made in a text: between them everything
is kept, and each replaces what it names. Edits that follow one another in the text, each between
two characters, are made by `Edit.applyAll`.

* `Edit.Replaces`: what an edit replaces, as a stretch of the source.
* `Edit.made_applyAll`: `applyAll` makes such edits.
* `Edit.sorted_eq`: sorting such edits by their offsets gives the order of the text.
* `Edit.Within`: edits that follow one another between two offsets.

The program collects edits in the order in which it visits declarations and sorts them before it
makes them. `Edit.sorted_eq` is the link between that and edits that are listed in the order of the
text: edits that do not overlap are sorted in one way only, so the order in which they were
collected does not matter.

Two edits may be at the same place only if one of them takes something away: an insertion behind a
declaration and the removal of the attribute that follows directly. `Edit.Before` asks for a little
more than not overlapping so that this has one order, too.
-/

namespace CodableSynthesis

open Text (byteLength byteLength_append)

namespace Text

theorem byteLength_eq_zero {cs : List Char} (h : byteLength cs = 0) : cs = [] := by
  cases cs with
  | nil => rfl
  | cons c cs =>
    have := c.utf8Size_pos
    rw [byteLength_cons] at h
    omega

theorem byteLength_pos {cs : List Char} (h : cs ≠ []) : 0 < byteLength cs :=
  Nat.pos_of_ne_zero fun zero => h (byteLength_eq_zero zero)

/-- Of two fronts of one text, the one with fewer bytes is a front of the other. -/
theorem front_of_byteLength_le {a b x y : List Char} (same : a ++ x = b ++ y)
    (le : byteLength a ≤ byteLength b) : ∃ kept, b = a ++ kept ∧ x = kept ++ y := by
  rcases List.append_eq_append_iff.mp same with ⟨kept, hb, hx⟩ | ⟨kept, ha, hy⟩
  · exact ⟨kept, hb, hx⟩
  · rw [ha, byteLength_append] at le
    obtain rfl := show kept = [] from byteLength_eq_zero (by omega)
    exact ⟨[], by simpa using ha.symm, by simpa using hy.symm⟩

theorem append_inj_of_byteLength {a b x y : List Char} (same : a ++ x = b ++ y)
    (length : byteLength a = byteLength b) : a = b ∧ x = y := by
  obtain ⟨kept, rfl, rfl⟩ := front_of_byteLength_le same (Nat.le_of_eq length)
  rw [byteLength_append] at length
  obtain rfl := show kept = [] from byteLength_eq_zero (by omega)
  simp

end Text

namespace Edit

/-- The edit replaces `cut`, which stands between `front` and `back`. -/
structure Replaces (e : Edit) (source front cut back : List Char) : Prop where
  /-- The source around what is replaced. -/
  made : source = front ++ (cut ++ back)
  /-- The edit begins behind the front. -/
  start : e.start = byteLength front
  /-- Ends behind what is replaced. -/
  stop : e.stop = byteLength (front ++ cut)

theorem Replaces.forward {e : Edit} {source front cut back : List Char}
    (h : e.Replaces source front cut back) : e.start ≤ e.stop := by
  rw [h.start, h.stop, byteLength_append]
  exact Nat.le_add_right _ _

/-- The edit `a` ends before `b` begins, and both are not the same place. -/
def Before (a b : Edit) : Prop :=
  a.stop ≤ b.start ∧ a.stop < b.stop

/-- `Made offset edits text out`: making the edits in `text`, which begins at byte `offset`, gives
`out`. What lies between the edits is kept. -/
inductive Made : Nat → List Edit → List Char → List Char → Prop
  /-- Behind the last edit, the text is kept. -/
  | done {offset : Nat} {rest : List Char} : Made offset [] rest rest
  /-- The text up to the next edit is kept, and what that names is replaced. -/
  | edit {offset : Nat} {e : Edit} {edits : List Edit} {kept cut rest out : List Char} :
      e.start = offset + byteLength kept → e.stop = e.start + byteLength cut →
      Made e.stop edits rest out →
      Made offset (e :: edits) (kept ++ (cut ++ rest)) (kept ++ (e.text ++ out))

/-- Edits that follow one another in what remains of the text are made in it. The induction is on
the edits, with the offset of what remains moving along. -/
theorem made_applyFrom {source : List Char} {edits : List Edit} (ordered : edits.Pairwise Before)
    (exact_ : ∀ e ∈ edits, ∃ front cut back, e.Replaces source front cut back)
    {before text : List Char} (split : source = before ++ text)
    (later : ∀ e ∈ edits, byteLength before ≤ e.start) :
    Made (byteLength before) edits text (applyFrom (byteLength before) text edits) := by
  induction edits generalizing before text with
  | nil => exact .done
  | cons e edits ih =>
    obtain ⟨front, cut, back, made, start, stop⟩ := exact_ e (.head _)
    obtain ⟨kept, rfl, rfl⟩ := Text.front_of_byteLength_le (split.symm.trans made)
      (start ▸ later e (.head _))
    have keptLength : e.start - byteLength before = byteLength kept := by
      rw [start, byteLength_append]
      omega
    have cutLength : e.stop - byteLength before = byteLength (kept ++ cut) := by
      rw [stop, byteLength_append, byteLength_append, byteLength_append]
      omega
    obtain ⟨first, ordered⟩ := List.pairwise_cons.mp ordered
    have rest := ih ordered (fun e mem => exact_ e (.tail _ mem)) (by simpa using made)
      (fun b mem => stop ▸ (first b mem).1)
    rw [applyFrom, keptLength, cutLength, Text.takeBytes_byteLength_append,
      ← List.append_assoc kept,
      Text.dropBytes_byteLength_append, List.append_assoc, List.append_assoc kept]
    refine .edit ?_ ?_ ?_
    · rw [start, byteLength_append]
    · rw [start, stop, byteLength_append]
    · rwa [stop]

/-- Edits that follow one another in the text are made by `applyAll`. -/
theorem made_applyAll {source : List Char} {edits : List Edit} (ordered : edits.Pairwise Before)
    (exact_ : ∀ e ∈ edits, ∃ front cut back, e.Replaces source front cut back) :
    Made 0 edits source (applyAll edits source) :=
  @made_applyFrom source edits ordered exact_ [] source rfl fun _ _ => Nat.zero_le _

namespace Made

variable {offset : Nat} {edits : List Edit} {kept rest out : List Char}

/-- What lies in front of all edits is kept. -/
theorem keep (h : Made offset edits (kept ++ rest) out)
    (later : ∀ e ∈ edits, offset + byteLength kept ≤ e.start) :
    ∃ left, out = kept ++ left ∧ Made (offset + byteLength kept) edits rest left := by
  generalize made : kept ++ rest = text at h
  cases h with
  | done =>
    subst made
    exact ⟨rest, rfl, .done⟩
  | @edit _ e edits kept' cut rest' out start stop more =>
    have first := later e (.head _)
    obtain ⟨front, rfl, rfl⟩ := Text.front_of_byteLength_le made (by omega)
    rw [byteLength_append] at start
    exact ⟨front ++ (e.text ++ out), by simp, .edit (by omega) stop more⟩

/-- The first edit is made where it stands. -/
theorem first {e : Edit} {cut : List Char}
    (h : Made offset (e :: edits) (kept ++ (cut ++ rest)) out)
    (start : e.start = offset + byteLength kept) (stop : e.stop = e.start + byteLength cut) :
    ∃ left, out = kept ++ (e.text ++ left) ∧ Made e.stop edits rest left := by
  generalize made : kept ++ (cut ++ rest) = text at h
  cases h with
  | @edit _ _ _ kept' cut' rest' out start' stop' more =>
    obtain ⟨rfl, same⟩ := Text.append_inj_of_byteLength made (by omega)
    obtain ⟨rfl, rfl⟩ := Text.append_inj_of_byteLength same (by omega)
    exact ⟨out, rfl, more⟩

end Made

/-! ### Order -/

/-- The order by offsets: first by where edits begin, then by where they end. -/
def le (a b : Edit) : Bool :=
  a.start < b.start || (a.start == b.start && a.stop ≤ b.stop)

theorem le_of_before {a b : Edit} (h : a.Before b) (hb : a.start ≤ a.stop) : le a b = true := by
  obtain ⟨stop, strict⟩ := h
  simp only [le, Bool.or_eq_true, Bool.and_eq_true, decide_eq_true_eq, beq_iff_eq]
  omega

theorem not_le_of_before {a b : Edit} (h : a.Before b) (hb : a.start ≤ a.stop) :
    le b a = false := by
  obtain ⟨stop, strict⟩ := h
  simp only [le, Bool.or_eq_false_iff, Bool.and_eq_false_iff, decide_eq_false_iff_not,
    beq_eq_false_iff_ne]
  omega

theorem le_trans (a b c : Edit) (ab : le a b = true) (bc : le b c = true) : le a c = true := by
  simp only [le, Bool.or_eq_true, Bool.and_eq_true, decide_eq_true_eq, beq_iff_eq] at *
  omega

theorem le_total (a b : Edit) : (le a b || le b a) = true := by
  simp only [le, Bool.or_eq_true, Bool.and_eq_true, decide_eq_true_eq, beq_iff_eq]
  omega

/-- Of two edits that follow one another, one is before the other unless they are the same. -/
theorem comparable {edits : List Edit} (ordered : edits.Pairwise Before) {a b : Edit}
    (ha : a ∈ edits) (hb : b ∈ edits) : a = b ∨ a.Before b ∨ b.Before a := by
  induction ordered with
  | nil => cases ha
  | cons first _ ih =>
    rcases List.mem_cons.mp ha with rfl | later
    · rcases List.mem_cons.mp hb with rfl | later'
      · exact .inl rfl
      · exact .inr (.inl (first b later'))
    · rcases List.mem_cons.mp hb with rfl | later'
      · exact .inr (.inr (first a later))
      · exact ih later later'

/-- Sorting by offsets puts edits that follow one another in the text into that order. -/
theorem sorted_eq {collected edits : List Edit} (same : collected.Perm edits)
    (ordered : edits.Pairwise Before) (forward : ∀ e ∈ edits, e.start ≤ e.stop) :
    collected.mergeSort le = edits := by
  have sorted : edits.Pairwise (fun a b => le a b = true) :=
    ordered.imp_of_mem fun ha _ before => le_of_before before (forward _ ha)
  have result : (collected.mergeSort le).Pairwise (fun a b => le a b = true) :=
    List.pairwise_mergeSort le_trans le_total collected
  refine List.Perm.eq_of_pairwise ?_ result sorted ((List.mergeSort_perm _ _).trans same)
  intro a b ha hb ab ba
  have ha : a ∈ edits := ((List.mergeSort_perm _ _).trans same).subset ha
  rcases comparable ordered ha hb with same | before | before
  · exact same
  · rw [not_le_of_before before (forward a ha)] at ba
    cases ba
  · rw [not_le_of_before before (forward b hb)] at ab
    cases ab

/-! ### Edits within a stretch -/

/-- Edits that follow one another between two offsets, none of which is empty at the first and none
of which reaches the second. -/
structure Within (lo hi : Nat) (edits : List Edit) : Prop where
  /-- The stretch is one. -/
  le : lo ≤ hi
  /-- No edit begins in front of it. -/
  starts : ∀ e ∈ edits, lo ≤ e.start
  /-- No edit ends before it begins. -/
  forward : ∀ e ∈ edits, e.start ≤ e.stop
  /-- No edit ends where the stretch begins. -/
  beyond : ∀ e ∈ edits, lo < e.stop
  /-- Every edit ends in front of its end. -/
  stops : ∀ e ∈ edits, e.stop < hi
  /-- The edits follow one another. -/
  ordered : edits.Pairwise Before

namespace Within

variable {lo mid hi : Nat} {e : Edit} {edits later : List Edit}

theorem nil (le : lo ≤ hi) : Within lo hi [] :=
  ⟨le, nofun, nofun, nofun, nofun, .nil⟩

theorem sublist (h : Within lo hi edits) (less : later.Sublist edits) : Within lo hi later :=
  ⟨h.le, fun e mem => h.starts e (less.subset mem), fun e mem => h.forward e (less.subset mem),
    fun e mem => h.beyond e (less.subset mem), fun e mem => h.stops e (less.subset mem),
    h.ordered.sublist less⟩

theorem widen {lo' hi' : Nat} (h : Within lo hi edits) (below : lo' ≤ lo) (above : hi ≤ hi') :
    Within lo' hi' edits :=
  ⟨Nat.le_trans below (Nat.le_trans h.le above), fun e mem => Nat.le_trans below (h.starts e mem),
    h.forward, fun e mem => Nat.lt_of_le_of_lt below (h.beyond e mem),
    fun e mem => Nat.lt_of_lt_of_le (h.stops e mem) above, h.ordered⟩

/-- Edits that begin behind a stretch follow those in it. -/
theorem followed (h : Within lo mid edits) (h' : Within lo hi later) (le : mid ≤ hi)
    (starts : ∀ e ∈ later, mid ≤ e.start) : Within lo hi (edits ++ later) := by
  refine ⟨h'.le, ?_, ?_, ?_, ?_, ?_⟩
  · exact List.forall_mem_append.mpr ⟨h.starts, h'.starts⟩
  · exact List.forall_mem_append.mpr ⟨h.forward, h'.forward⟩
  · exact List.forall_mem_append.mpr ⟨h.beyond, h'.beyond⟩
  · exact List.forall_mem_append.mpr
      ⟨fun a mem => Nat.lt_of_lt_of_le (h.stops a mem) le, h'.stops⟩
  · refine List.pairwise_append.mpr ⟨h.ordered, h'.ordered, fun a ha b hb => ?_⟩
    have := h.stops a ha
    have := starts b hb
    have := h'.forward b hb
    exact ⟨by omega, by omega⟩

theorem append (h : Within lo mid edits) (h' : Within mid hi later) :
    Within lo hi (edits ++ later) :=
  h.followed (h'.widen h.le (Nat.le_refl _)) h'.le h'.starts

/-- An edit that may end where the stretch of those behind it begins. -/
theorem cons (h : Within mid hi edits) (proper : mid < hi) (starts : lo ≤ e.start)
    (forward : e.start ≤ e.stop) (beyond : lo < e.stop) (stops : e.stop ≤ mid) :
    Within lo hi (e :: edits) := by
  refine ⟨by have := h.le; omega, ?_, ?_, ?_, ?_, ?_⟩
  · exact List.forall_mem_cons.mpr ⟨starts, fun b mem => by have := h.starts b mem; omega⟩
  · exact List.forall_mem_cons.mpr ⟨forward, h.forward⟩
  · exact List.forall_mem_cons.mpr ⟨beyond, fun b mem => by have := h.beyond b mem; omega⟩
  · exact List.forall_mem_cons.mpr ⟨by omega, h.stops⟩
  · refine List.pairwise_cons.mpr ⟨fun b mem => ⟨?_, ?_⟩, h.ordered⟩
    · exact Nat.le_trans stops (h.starts b mem)
    · exact Nat.lt_of_le_of_lt stops (h.beyond b mem)

theorem snoc (h : Within lo mid edits) (starts : mid ≤ e.start) (forward : e.start ≤ e.stop)
    (beyond : lo < e.stop) (stops : e.stop < hi) : Within lo hi (edits ++ [e]) := by
  have first : lo ≤ e.start := Nat.le_trans h.le starts
  refine h.followed ?_ (by omega) (List.forall_mem_singleton.mpr starts)
  exact (nil (Nat.le_of_lt stops)).cons stops first forward beyond (Nat.le_refl _)

end Within

end Edit

end CodableSynthesis
