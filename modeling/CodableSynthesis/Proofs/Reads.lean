import CodableSynthesis.Step

/-!
What it means that a reader succeeds. Every reader gives its rest together with a bound on the
length of that. The bound serves the recursion and nothing else, and it makes two readers that do
the same things differ in type; so the statements about readers use one of two views that forget it.

* `Reads r x rest`: the reader succeeds with `x` and leaves `rest`. Its introduction and elimination
  rules follow how readers are put together: `Reads.bind` and `Reads.of_bind` for sequences,
  `Reads.wider` and its kind for readers that pass on what another one gives.
* `outcome r`: the value and the rest, or the fault. Statements that are about failures too, or that
  compare two readers, are about outcomes.

Which of the two a module uses is a matter of what it has to say. The grammars of tokens describe
success and use `Reads`; the statements that a source is read alike in two spellings use `outcome`.
-/

namespace CodableSynthesis

variable {ε τ α β : Type} {m n : Nat}

/-- The reader succeeds with the value `x` and leaves `rest`. -/
def Reads (r : Except ε (Step τ α n)) (x : α) (rest : List τ) : Prop :=
  ∃ shorter, r = .ok ⟨x, rest, shorter⟩

theorem ok_of_any {r : Except ε α} {p : α → Bool} (h : r.toOption.any p = true) :
    ∃ x, r = .ok x ∧ p x = true := by
  cases r with
  | error => cases h
  | ok x => exact ⟨x, rfl, h⟩

theorem error_of_map {r : Except ε α} {f : α → β} {e : ε} (h : r.map f = .error e) :
    r = .error e := by
  cases r with
  | error =>
    cases h
    rfl
  | ok => cases h

/-- A sequence of two readers fails if the first one does, or else the second. -/
theorem fails_of_bind {r : Except ε α} {g : α → Except ε β} {e : ε}
    (h : r >>= g = .error e) : r = .error e ∨ ∃ x, r = .ok x ∧ g x = .error e := by
  cases r with
  | error =>
    cases h
    exact .inl rfl
  | ok x => exact .inr ⟨x, rfl, h⟩

namespace Reads

/-- A reader that gives a step reads exactly what the step says. -/
theorem ok_iff {s : Step τ α n} {x : α} {rest : List τ} :
    Reads (.ok s : Except ε (Step τ α n)) x rest ↔ s.value = x ∧ s.rest = rest := by
  obtain ⟨value, left, shorter⟩ := s
  constructor
  · rintro ⟨_, same⟩
    cases same
    exact ⟨rfl, rfl⟩
  · rintro ⟨rfl, rfl⟩
    exact ⟨shorter, rfl⟩

theorem ok {s : Step τ α n} : Reads (.ok s : Except ε (Step τ α n)) s.value s.rest :=
  ok_iff.mpr ⟨rfl, rfl⟩

theorem not_error {e : ε} {x : α} {rest : List τ} :
    ¬ Reads (.error e : Except ε (Step τ α n)) x rest := by
  rintro ⟨_, same⟩
  cases same

/-- A sequence of two readers succeeds only if the first one does, and then the second. -/
theorem of_bind {r : Except ε (Step τ α m)} {f : Step τ α m → Except ε (Step τ β n)} {y : β}
    {rest : List τ}
    (h : Reads (r >>= f) y rest) :
    ∃ x mid shorter, r = .ok ⟨x, mid, shorter⟩ ∧ Reads (f ⟨x, mid, shorter⟩) y rest := by
  cases r with
  | error e => exact absurd h not_error
  | ok s => exact ⟨s.value, s.rest, s.shorter, rfl, h⟩

/-- A sequence of two readers succeeds if the first one does, and then the second, whatever bound
the first one leaves it. -/
theorem bind {r : Except ε (Step τ α m)} {f : Step τ α m → Except ε (Step τ β n)} {x : α}
    {mid : List τ}
    {y : β} {rest : List τ} (h : Reads r x mid)
    (hf : ∀ shorter, Reads (f ⟨x, mid, shorter⟩) y rest) : Reads (r >>= f) y rest := by
  obtain ⟨shorter, rfl⟩ := h
  exact hf shorter

/-- A reader that passes on what another one gives under another bound. -/
theorem of_pass {r : Except ε (Step τ α m)} {g : Step τ α m → Step τ α n} {x : α}
    {rest : List τ} (h : Reads (r >>= fun s => pure (g s)) x rest)
    (value : ∀ s, (g s).value = s.value) (left : ∀ s, (g s).rest = s.rest) : Reads r x rest := by
  obtain ⟨_, _, shorter, hr, h⟩ := h.of_bind
  obtain ⟨rfl, rfl⟩ := ok_iff.mp h
  rw [left, value]
  exact ⟨shorter, hr⟩

/-- Passing a step on under a wider bound changes nothing about what is read. -/
theorem of_wider {r : Except ε (Step τ α m)} {x : α} {rest : List τ}
    (h : Reads (r >>= fun s => pure s.wider) x rest) : Reads r x rest :=
  h.of_pass (fun _ => rfl) (fun _ => rfl)

theorem of_widen {r : Except ε (Step τ α m)} {bound : m ≤ n} {x : α} {rest : List τ}
    (h : Reads (r >>= fun s => pure (s.widen bound)) x rest) : Reads r x rest :=
  h.of_pass (fun _ => rfl) (fun _ => rfl)

theorem wider {r : Except ε (Step τ α m)} {x : α} {rest : List τ} (h : Reads r x rest) :
    Reads (r >>= fun s => pure s.wider) x rest :=
  h.bind fun _ => ok

theorem widen {r : Except ε (Step τ α m)} {bound : m ≤ n} {x : α} {rest : List τ}
    (h : Reads r x rest) :
    Reads (r >>= fun s => pure (s.widen bound)) x rest :=
  h.bind fun _ => ok

/-- A reader gives one value and one rest. -/
theorem unique {r : Except ε (Step τ α n)} {x y : α} {rest rest' : List τ} (h : Reads r x rest)
    (h' : Reads r y rest') : x = y ∧ rest = rest' := by
  obtain ⟨_, rfl⟩ := h
  obtain ⟨rfl, rfl⟩ := ok_iff.mp h'
  exact ⟨rfl, rfl⟩

end Reads

/-! ### Outcomes

Two readers are compared by their outcomes. The lemmas push `outcome` through the ways in which
readers are put together, so that it ends at the readers that are called. -/

/-- What a reader gives without the bound: a value and what is left, or a fault. -/
def outcome (r : Except ε (Step τ α n)) : Except ε (α × List τ) :=
  r.map fun s => (s.value, s.rest)

section Outcomes

variable {r : Except ε (Step τ α m)} {x : α} {rest : List τ} {e : ε}

@[simp] theorem outcome_ok (s : Step τ α n) :
    outcome (.ok s : Except ε (Step τ α n)) = .ok (s.value, s.rest) := rfl

@[simp] theorem outcome_error : outcome (.error e : Except ε (Step τ α n)) = .error e := rfl

theorem reads_iff_outcome_eq : Reads r x rest ↔ outcome r = .ok (x, rest) := by
  cases r with
  | error => simp [Reads.not_error]
  | ok s => simp [Reads.ok_iff]

theorem outcome_eq_error_iff : outcome r = .error e ↔ r = .error e := by
  cases r with
  | error => simp
  | ok => simp

theorem shorter_of_outcome (h : outcome r = .ok (x, rest)) : rest.length < m := by
  obtain ⟨shorter, -⟩ := reads_iff_outcome_eq.mpr h
  exact shorter

/-- The outcome of a sequence is the sequence of the outcomes, if the second reader's does not
depend on the bound that the first one leaves it. -/
theorem outcome_bind {f : Step τ α m → Except ε (Step τ β n)}
    {g : α × List τ → Except ε (β × List τ)}
    (later : ∀ x rest shorter, outcome (f ⟨x, rest, shorter⟩) = g (x, rest)) :
    outcome (r >>= f) = outcome r >>= g := by
  cases r with
  | error => rfl
  | ok s => exact later s.value s.rest s.shorter

theorem outcome_pass {f : α → β} {g : Step τ α m → Step τ β n}
    (value : ∀ s, (g s).value = f s.value) (left : ∀ s, (g s).rest = s.rest) :
    outcome (r >>= fun s => pure (g s)) = (outcome r).map (Prod.map f id) := by
  cases r with
  | error => rfl
  | ok s => exact congrArg Except.ok (Prod.ext (value s) (left s))

theorem outcome_wider : outcome (r >>= fun s => pure s.wider) = outcome r := by
  cases r <;> rfl

theorem outcome_widen {bound : m ≤ n} :
    outcome (r >>= fun s => pure (s.widen bound)) = outcome r := by
  cases r <;> rfl

end Outcomes

end CodableSynthesis
