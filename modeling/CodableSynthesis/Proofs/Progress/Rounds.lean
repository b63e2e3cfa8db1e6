import CodableSynthesis.Proofs.Reads
import CodableSynthesis.Token.Reading

/-!
Loops of readers, round by round. A reader that goes on as long as it finds something is a loop;
what counts is how many rounds it takes before it is left or fails.

* `Loop.Round`: what one round comes to.
* `Loop.within`: what a loop gives if it may take so many rounds and no more.
* `Loop.Describes`: rounds describe a reader if it gives what they come to, and each of them leaves
  fewer tokens to the next one.
* `Loop.Describes.within_length`, `Loop.Describes.within_cons`: then it takes no more rounds than
  there are tokens.

The readers are defined by recursion on the number of tokens that are left, so that they end is
built into them. The number of rounds is not: it is a property of the loops of the program, and a
reader that gave the same result in another way would not satisfy it. So the rounds are written down
a second time, one definition for each loop, and `Loop.within` runs them with an explicit bound.

`Describes` ties the two together. Its first field is an equation for the reader, its second the
measure; the bound on the rounds follows from them once and for all.
-/

namespace CodableSynthesis.Loop

variable {α β : Type}

/-- What a loop gives: a value and what is left, or a fault. -/
abbrev Result (α : Type) :=
  Except ReadFault (α × List Token)

/-- What a round of a loop comes to. -/
inductive Round (α : Type) where
  /-- There is no round: the loop is left in front of it. -/
  | ended (result : Result α)
  /-- The round is the last one: it leaves the loop, or fails. -/
  | last (result : Result α)
  /-- The next round begins at `rest`; `complete` adds to what the loop gives from there. -/
  | next (complete : α → α) (rest : List Token)

namespace Round

/-- What the loop gives from the round on, `read` telling what it gives from the next one on. -/
def result (read : List Token → Result α) : Round α → Result α
  | .ended result | .last result => result
  | .next complete rest => (read rest).map (Prod.map complete id)

/-- If there is a next round, it has fewer than `n` tokens to read. -/
def Below (n : Nat) : Round α → Prop
  | .ended _ | .last _ => True
  | .next _ rest => rest.length < n

/-- A round that goes on behind what is read, and is the last one if that fails. Most rounds begin
with reading something. -/
def after (r : Result β) (more : β → List Token → Round α) : Round α :=
  match r with
  | .error fault => .last (.error fault)
  | .ok (x, rest) => more x rest

theorem result_after {read : List Token → Result α} (r : Except ReadFault (β × List Token))
    (more : β → List Token → Round α) :
    (after r more).result read = r >>= fun p => (more p.1 p.2).result read := by
  cases r <;> rfl

/-- A round that only passes over something. -/
@[simp] theorem result_next_id {read : List Token → Result α} {rest : List Token} :
    (next id rest).result read = read rest := by
  rw [result]
  cases read rest <;> rfl

/-- Such a round goes on with fewer tokens if it does so for everything that may be read. -/
theorem below_after {n : Nat} {r : Result β} {more : β → List Token → Round α}
    (h : ∀ x rest, r = .ok (x, rest) → (more x rest).Below n) : (after r more).Below n := by
  cases r with
  | error => exact trivial
  | ok p => exact h p.1 p.2 rfl

end Round

/-- What a loop gives within `n` rounds; nothing if it takes more. Finding that the loop is left
does not count as a round. -/
def within (round : List Token → Round α) : Nat → List Token → Option (Result α)
  | 0, ts =>
    match round ts with
    | .ended result => some result
    | .last _ | .next .. => none
  | n + 1, ts =>
    match round ts with
    | .ended result | .last result => some result
    | .next complete rest => (within round n rest).map (·.map (Prod.map complete id))

/-- The reader `read` is the loop of the rounds `round`, each of which has fewer tokens to read than
the one before it. -/
structure Describes (round : List Token → Round α) (read : List Token → Result α) : Prop where
  /-- The reader gives what the first round comes to. -/
  unfolds (ts : List Token) : read ts = (round ts).result read
  /-- The next round has fewer tokens. -/
  shortens (ts : List Token) : (round ts).Below ts.length

namespace Describes

variable {round : List Token → Round α} {read : List Token → Result α}

/-- A round more than there are tokens is only taken where none is left. The induction is on the
number of rounds that are allowed. -/
theorem within_of_le (h : Describes round read) (spare : Nat)
    (ends : spare = 0 → ∃ result, round [] = .ended result) (n : Nat) (ts : List Token)
    (enough : ts.length + spare ≤ n) : within round n ts = some (read ts) := by
  induction n generalizing ts with
  | zero =>
    obtain rfl : ts = [] := List.length_eq_zero_iff.mp (by omega)
    obtain ⟨result, ended⟩ := ends (by omega)
    rw [within, h.unfolds, ended]
    rfl
  | succ n ih =>
    have unfolds := h.unfolds ts
    have shortens := h.shortens ts
    rw [within]
    cases is : round ts with
    | ended result | last result =>
      rw [is] at unfolds
      rw [unfolds]
      rfl
    | next complete rest =>
      rw [is] at unfolds shortens
      have fewer : rest.length < ts.length := shortens
      dsimp only
      rw [ih rest (by omega), unfolds]
      rfl

/-- A loop that is left where no token is left takes at most as many rounds as there are tokens. -/
theorem within_length (h : Describes round read) (ends : ∃ result, round [] = .ended result)
    (ts : List Token) : within round ts.length ts = some (read ts) :=
  h.within_of_le 0 (fun _ => ends) ts.length ts (Nat.le_refl _)

/-- A loop takes at most as many rounds as there are tokens, with the one in front of it. -/
theorem within_cons (h : Describes round read) (t : Token) (ts : List Token) :
    within round (t :: ts).length ts = some (read ts) :=
  h.within_of_le 1 nofun (t :: ts).length ts (Nat.le_refl _)

end Describes

/-! ### Lists

Three kinds of lists share their rounds: a list without an end of its own, such as that of the
inherited types, and two that are closed by a parenthesis. -/

/-- Items with commas between them: one item, and another round behind a comma. -/
def listed (item : List Token → Result α) (ts : List Token) : Round (List α) :=
  .after (item ts) fun x rest =>
    match rest with
    | [] => .last (.ok ([x], []))
    | t :: more =>
      if t.kind = .comma then .next (x :: ·) more else .last (.ok ([x], t :: more))

/-- What may stand behind an item in parentheses: a comma or the closing parenthesis. -/
def behindItem (x : α) : List Token → Round (List α)
  | [] => .last (.error (.endOfInput .commaOrParenthesis))
  | t :: more =>
    if t.kind = .comma then .next (x :: ·) more
    else if t.kind = .closing .parenthesis then .last (.ok ([x], more))
    else .last (.error (.unexpected .commaOrParenthesis t))

/-- Items up to a closing parenthesis, in front of which there is no further round. -/
def enclosed (item : List Token → Result α) : List Token → Round (List α)
  | [] => .after (item []) behindItem
  | t :: ts =>
    if t.kind = .closing .parenthesis then .ended (.ok ([], ts))
    else .after (item (t :: ts)) behindItem

section Lists

variable {item : List Token → Result α}
  (shorter : ∀ ts x rest, item ts = .ok (x, rest) → rest.length < ts.length)

include shorter

theorem listed_below (ts : List Token) : (listed item ts).Below ts.length := by
  refine Round.below_after fun x rest read => ?_
  have fewer := shorter ts x rest read
  cases rest with
  | nil => exact trivial
  | cons t more =>
    dsimp only
    split
    · exact Nat.lt_of_succ_lt fewer
    · exact trivial

theorem enclosed_below (ts : List Token) : (enclosed item ts).Below ts.length := by
  have behind (us : List Token) : (Round.after (item us) behindItem).Below us.length := by
    refine Round.below_after fun x rest read => ?_
    have fewer := shorter us x rest read
    rw [behindItem.eq_def]
    split
    · exact trivial
    · split
      · exact Nat.lt_of_succ_lt fewer
      · split <;> exact trivial
  cases ts with
  | nil => exact behind []
  | cons t ts =>
    rw [enclosed]
    split
    · exact trivial
    · exact behind (t :: ts)

end Lists

end CodableSynthesis.Loop
