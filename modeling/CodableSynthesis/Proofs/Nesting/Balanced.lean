import CodableSynthesis.Proofs.Grammar.Groups

/-!
Balanced stretches of tokens: every bracket in them has its counterpart in them, and groups nest.

* `Group.Balanced`: the stretches, as a grammar.
* `Group.balanced_iff`: a stretch is balanced if no bracket is open behind it that was not open in
  front of it, none having closed out of turn.
* `Group.closes_iff`: a group reaches to the closing bracket behind a balanced stretch.

There are two descriptions. `Balanced` is the one that statements use: it is built from groups
inside groups and says nothing about a stack. `opened` runs over the tokens with a stack of
brackets, as `skip_balanced` does, and is what proofs compute with. `balanced_iff` makes them one,
and makes balance decidable on the way.

`Closes`, from the grammar of groups, is what the program's loop was shown to accept. Here it is
brought into terms of balanced stretches, so that statements about groups, initializers and
observers need not speak of the loop.
-/

namespace CodableSynthesis

theorem Token.bracket_cases (t : Token) :
    (∃ b, t.kind = .opening b) ∨ (∃ b, t.kind = .closing b) ∨
      ((∀ b, t.kind ≠ .opening b) ∧ ∀ b, t.kind ≠ .closing b) := by
  by_cases opens : ∃ b, t.kind = .opening b
  · exact .inl opens
  · by_cases closes : ∃ b, t.kind = .closing b
    · exact .inr (.inl closes)
    · exact .inr (.inr ⟨not_exists.mp opens, not_exists.mp closes⟩)

namespace Group

/-- Every bracket among the tokens has its counterpart, and groups nest. -/
inductive Balanced : List Token → Prop
  /-- Nothing is balanced. -/
  | nil : Balanced []
  /-- A token that is no bracket, in front of more. -/
  | plain {t : Token} {ts : List Token} :
      (∀ b, t.kind ≠ .opening b) → (∀ b, t.kind ≠ .closing b) → Balanced ts → Balanced (t :: ts)
  /-- A group, in front of more. The two brackets are of the same kind. -/
  | group {b : Bracket} {t u : Token} {inner ts : List Token} :
      t.kind = .opening b → Balanced inner → u.kind = .closing b → Balanced ts →
      Balanced (t :: (inner ++ u :: ts))

/-- The brackets that are open behind a token, innermost first, those of `stack` being open in front
of it; nothing if it closes another than the innermost. This is one round of the loop that passes
over groups, kept apart from what that loop reports. -/
def openedBy (stack : List Bracket) (t : Token) : Option (List Bracket) :=
  match t.kind with
  | .opening b => some (b :: stack)
  | .closing b => if stack.head? = some b then some stack.tail else none
  | _ => some stack

/-- The brackets that are open behind some tokens, those of `stack` being open in front of them. It
is nothing as soon as one bracket closes another than the innermost. -/
def opened (stack : List Bracket) (ts : List Token) : Option (List Bracket) :=
  ts.foldlM openedBy stack

section Opened

variable {b : Bracket} {stack stack' : List Bracket} {t : Token} {ts us : List Token}

@[simp]
theorem opened_nil : opened stack [] = some stack :=
  rfl

theorem opened_cons : opened stack (t :: ts) = (openedBy stack t).bind (opened · ts) :=
  List.foldlM_cons

theorem opened_append : opened stack (ts ++ us) = (opened stack ts).bind (opened · us) :=
  List.foldlM_append

theorem opened_opening (h : t.kind = .opening b) :
    opened stack (t :: ts) = opened (b :: stack) ts := by
  rw [opened_cons, openedBy, h]
  rfl

theorem opened_closing (h : t.kind = .closing b) :
    opened (b :: stack) (t :: ts) = opened stack ts := by
  rw [opened_cons, openedBy, h]
  simp

/-- Other tokens leave the stack as it is. -/
theorem opened_plain (notOpening : ∀ b, t.kind ≠ .opening b)
    (notClosing : ∀ b, t.kind ≠ .closing b) : opened stack (t :: ts) = opened stack ts := by
  have same : openedBy stack t = some stack := by
    rw [openedBy.eq_def]
    split
    · next opens => exact absurd opens (notOpening _)
    · next closes => exact absurd closes (notClosing _)
    · rfl
  rw [opened_cons, same, Option.bind_some]

/-- Only the innermost open bracket closes. -/
theorem eq_cons_of_opened_closing (h : t.kind = .closing b)
    (leaves : opened stack (t :: ts) = some stack') : ∃ outer, stack = b :: outer := by
  rw [opened_cons, openedBy, h] at leaves
  cases stack with
  | nil => simp at leaves
  | cons top outer =>
    by_cases same : top = b
    · exact ⟨outer, by rw [same]⟩
    · simp [same] at leaves

/-- Brackets that are open around some tokens stay so. -/
theorem opened_within (outer : List Bracket) (h : opened stack ts = some stack') :
    opened (stack ++ outer) ts = some (stack' ++ outer) := by
  induction ts generalizing stack with
  | nil => cases h; rfl
  | cons t ts ih =>
    rcases t.bracket_cases with ⟨b, opens⟩ | ⟨b, closes⟩ | ⟨notOpening, notClosing⟩
    · rw [opened_opening opens] at h ⊢
      exact ih h
    · obtain ⟨more, rfl⟩ := eq_cons_of_opened_closing closes h
      rw [opened_closing closes] at h
      rw [List.cons_append, opened_closing closes]
      exact ih h
    · rw [opened_plain notOpening notClosing] at h ⊢
      exact ih h

end Opened

/-! ### Balanced stretches

The two descriptions agree. From `Balanced` to `opened` is an induction on the grammar; the converse
has to find the groups, which `split_of_opened` does. -/

section Balanced

variable {b : Bracket} {ts us : List Token}

/-- The same brackets are open behind a balanced stretch as in front of it. -/
theorem Balanced.opened_eq (h : Balanced ts) (stack : List Bracket) :
    opened stack ts = some stack := by
  induction h generalizing stack with
  | nil => rfl
  | plain notOpening notClosing _ ih => rw [opened_plain notOpening notClosing, ih]
  | group opens _ closes _ inner ih =>
    rw [opened_opening opens, opened_append, inner, Option.bind_some, opened_closing closes, ih]

/-- Where all open brackets close, the innermost does so behind a balanced stretch. The recursion is
on the tokens: an opening bracket in front makes two stretches of what follows, one up to its
counterpart and one from there on. -/
theorem split_of_opened {b : Bracket} {stack : List Bracket} {ts : List Token}
    (h : opened (b :: stack) ts = some []) :
    ∃ inner u rest, ts = inner ++ u :: rest ∧ Balanced inner ∧ u.kind = .closing b ∧
      opened stack rest = some [] :=
  match ts with
  | [] => nomatch h
  | t :: ts => by
    rcases t.bracket_cases with ⟨c, opens⟩ | ⟨c, closes⟩ | ⟨notOpening, notClosing⟩
    · rw [opened_opening opens] at h
      -- The inner group closes first, and then the one that was open before it.
      obtain ⟨inner, u, mid, rfl, within, closes, h⟩ := split_of_opened h
      obtain ⟨inner', u', rest, rfl, behind, closes', h⟩ := split_of_opened h
      exact ⟨t :: (inner ++ u :: inner'), u', rest, by simp, .group opens within closes behind,
        closes', h⟩
    · obtain ⟨outer, same⟩ := eq_cons_of_opened_closing closes h
      obtain ⟨rfl, rfl⟩ := List.cons.inj same
      rw [opened_closing closes] at h
      exact ⟨[], t, ts, rfl, .nil, closes, h⟩
    · rw [opened_plain notOpening notClosing] at h
      obtain ⟨inner, u, rest, rfl, within, closer, h⟩ := split_of_opened h
      exact ⟨t :: inner, u, rest, rfl, .plain notOpening notClosing within, closer, h⟩
termination_by ts.length

/-- Tokens that leave nothing open are balanced. The recursion is that of `split_of_opened`, which
cuts the first group off. -/
theorem balanced_of_opened {ts : List Token} (h : opened [] ts = some []) : Balanced ts :=
  match ts with
  | [] => .nil
  | t :: ts => by
    rcases t.bracket_cases with ⟨c, opens⟩ | ⟨c, closes⟩ | ⟨notOpening, notClosing⟩
    · rw [opened_opening opens] at h
      obtain ⟨inner, u, rest, rfl, within, closes, h⟩ := split_of_opened h
      exact .group opens within closes (balanced_of_opened h)
    · obtain ⟨outer, same⟩ := eq_cons_of_opened_closing closes h
      exact nomatch same
    · rw [opened_plain notOpening notClosing] at h
      exact .plain notOpening notClosing (balanced_of_opened h)
termination_by ts.length

/-- A stretch is balanced if and only if it leaves no bracket open that was not. -/
theorem balanced_iff : Balanced ts ↔ opened [] ts = some [] :=
  ⟨fun h => h.opened_eq [], balanced_of_opened⟩

instance : Decidable (Balanced ts) :=
  decidable_of_iff _ balanced_iff.symm

/-- Two balanced stretches in a row are one. -/
theorem Balanced.append (h : Balanced ts) (h' : Balanced us) : Balanced (ts ++ us) := by
  rw [balanced_iff, opened_append, h.opened_eq, Option.bind_some, h'.opened_eq]

end Balanced

/-! ### Groups -/

section Groups

variable {b : Bracket} {outer : List Bracket} {ts rest : List Token} {u : Token}

/-- A balanced stretch in front of the rest of a group belongs to the group. -/
theorem Closes.within (h : Closes b outer ts u rest) {inner : List Token}
    (balanced : Balanced inner) : Closes b outer (inner ++ ts) u rest := by
  induction balanced generalizing b outer ts rest with
  | nil => exact h
  | plain notOpening notClosing _ ih => exact .plain notOpening notClosing (ih h)
  | group opens _ closes _ inner ih =>
    rw [List.cons_append, List.append_assoc]
    exact .inner opens (inner (.outer closes (ih h)))

/-- The brackets that are open around a group all close by its end. -/
theorem Closes.opened_eq (h : Closes b outer ts u rest) :
    ∃ front, ts = front ++ rest ∧ opened (b :: outer) front = some [] := by
  induction h with
  | @last b t ts closes => exact ⟨[t], rfl, opened_closing closes⟩
  | @outer b next outer t u ts rest closes _ ih =>
    obtain ⟨front, rfl, ih⟩ := ih
    exact ⟨t :: front, rfl, (opened_closing closes).trans ih⟩
  | @inner b inside outer t u ts rest opens _ ih =>
    obtain ⟨front, rfl, ih⟩ := ih
    exact ⟨t :: front, rfl, (opened_opening opens).trans ih⟩
  | @plain b outer t u ts rest notOpening notClosing _ ih =>
    obtain ⟨front, rfl, ih⟩ := ih
    exact ⟨t :: front, rfl, (opened_plain notOpening notClosing).trans ih⟩

/-- A group reaches to the closing bracket behind a balanced stretch. This is the only form in which
later modules use that a group was passed over. -/
theorem closes_iff : Closes b [] ts u rest ↔
    ∃ inner, ts = inner ++ u :: rest ∧ Balanced inner ∧ u.kind = .closing b := by
  constructor
  · intro h
    obtain ⟨front, rfl, closed⟩ := h.opened_eq
    obtain ⟨inner, u', more, rfl, within, closes, -⟩ := split_of_opened closed
    rw [List.append_assoc, List.cons_append] at h
    have first : Closes b [] (inner ++ u' :: (more ++ rest)) u' (more ++ rest) :=
      (Closes.last closes).within within
    obtain ⟨rfl, nothing⟩ := (reads_close_iff.mpr first).unique (reads_close_iff.mpr h)
    obtain rfl : more = [] := by simpa using nothing
    exact ⟨inner, by simp, within, closes⟩
  · rintro ⟨inner, rfl, within, closes⟩
    exact (Closes.last closes).within within

end Groups

end Group

end CodableSynthesis
