/-!
Reading from the front of a list. A reader gives back what it made of the front and the rest it
left, with the proof that the rest is shorter than a bound; that proof is what lets one reader call
another on the rest. A reader that has to consume something is bounded by the length of its input,
one that may leave its input alone by that length and one.

The same type serves the lexer, whose list is characters, and the readers of tokens. How a reader
fails is no part of it: `Step` stands inside an `Except`.
-/

namespace CodableSynthesis

/-- What reading the front of a list gives: a value, and a rest shorter than `bound`. -/
structure Step (τ α : Type) (bound : Nat) where
  value : α
  rest : List τ
  shorter : rest.length < bound

namespace Step

variable {τ α β : Type} {m n : Nat}

/-- Reads nothing. -/
def stay (x : α) (ts : List τ) : Step τ α (ts.length + 1) :=
  ⟨x, ts, Nat.lt_add_one _⟩

/-- Reads the first element. -/
def past {t : τ} (x : α) (rest : List τ) : Step τ α (t :: rest).length :=
  ⟨x, rest, Nat.lt_add_one _⟩

/-- The same outcome under a bound that is larger by one, as for a reader that was called behind one
more element. -/
def wider (s : Step τ α n) : Step τ α (n + 1) :=
  ⟨s.value, s.rest, Nat.lt_add_right 1 s.shorter⟩

/-- The same outcome under a larger bound. -/
def widen (s : Step τ α m) (h : m ≤ n) : Step τ α n :=
  ⟨s.value, s.rest, Nat.lt_of_lt_of_le s.shorter h⟩

/-- The same rest with another value. -/
def map (f : α → β) (s : Step τ α n) : Step τ β n :=
  ⟨f s.value, s.rest, s.shorter⟩

@[simp] theorem stay_value (x : α) (ts : List τ) : (stay x ts).value = x := rfl

@[simp] theorem stay_rest (x : α) (ts : List τ) : (stay x ts).rest = ts := rfl

@[simp] theorem past_value {t : τ} (x : α) (rest : List τ) :
    (past x rest : Step τ α (t :: rest).length).value = x := rfl

@[simp] theorem past_rest {t : τ} (x : α) (rest : List τ) :
    (past x rest : Step τ α (t :: rest).length).rest = rest := rfl

@[simp] theorem wider_value (s : Step τ α n) : s.wider.value = s.value := rfl

@[simp] theorem wider_rest (s : Step τ α n) : s.wider.rest = s.rest := rfl

@[simp] theorem widen_value (s : Step τ α m) (h : m ≤ n) : (s.widen h).value = s.value := rfl

@[simp] theorem widen_rest (s : Step τ α m) (h : m ≤ n) : (s.widen h).rest = s.rest := rfl

@[simp] theorem map_value (f : α → β) (s : Step τ α n) : (s.map f).value = f s.value := rfl

@[simp] theorem map_rest (f : α → β) (s : Step τ α n) : (s.map f).rest = s.rest := rfl

end Step

/-- The front of a list that reading consumed, given what it left. It is counted from the lengths,
so `rest` need only be an end of `input`. -/
def consumed {τ : Type} (input rest : List τ) : List τ :=
  input.take (input.length - rest.length)

@[simp] theorem consumed_append {τ : Type} (front rest : List τ) :
    consumed (front ++ rest) rest = front := by
  simp [consumed]

end CodableSynthesis
