import CodableSynthesis.Proofs.Reads
import CodableSynthesis.Token.Group

/-!
The grammar of bracketed groups, the first of the grammars of tokens.

Each reader of tokens is described by a grammar: an inductive relation between the tokens in front,
the value, and the tokens left. A grammar says what is read without saying how. It has one
constructor for each way to go on, its side conditions are about the next token or two, and a
statement about everything that a reader may do is an induction on it. The modules of this group
give a grammar to every reader, from groups up to whole files, and prove for each that the reader
reads exactly what it describes.

* `Group.reads_close_iff`: `Group.close` reads exactly the groups of `Group.Closes`, the rests of
  well-nested groups.
* `Group.reads_skipArguments_iff`: arguments in parentheses, if they touch what stands before them.
* `Group.reads_closeAngle_iff`: the rest of a generic clause, with the groups in it stepped over.
* `Group.closesArguments_of_after`, `Group.ClosesArguments.after`: the tokens that are taken for
  generic arguments in an expression. There is no step over groups here, so brackets need not match.

Only success is described. What a reader does to tokens that it cannot read is the subject of
`Grammar.Failures`.
-/

namespace CodableSynthesis

namespace Token

theorem kind_of_isWord {t : Token} {word : String} (h : t.isWord word = true) :
    t.kind = .ident := by
  simp only [isWord, Bool.and_eq_true, beq_iff_eq] at h
  exact h.1

theorem kind_of_isWordIn {t : Token} {words : List String} (h : t.isWordIn words = true) :
    t.kind = .ident := by
  simp only [isWordIn, Bool.and_eq_true, beq_iff_eq] at h
  exact h.1

/-- A token is expected: it has to be the next one and of the right kind. -/
theorem reads_expect_iff {kind : TokenKind} {expected : Expectation} {ts rest : List Token}
    {t : Token} : Reads (expect kind expected ts) t rest ↔ ts = t :: rest ∧ t.kind = kind := by
  cases ts with
  | nil => simp [expect, Reads.not_error]
  | cons u us =>
    by_cases same : u.kind = kind
    · simp only [expect, if_pos same, Reads.ok_iff, Step.past_value, Step.past_rest]
      grind
    · simp only [expect, if_neg same, Reads.not_error, false_iff]
      grind

end Token

namespace Group

/-- `Closes b outer ts last rest`: the tokens `ts` begin with the rest of a group in the bracket
`b`, which was opened inside `outer`, innermost first; its last token is `last`. -/
inductive Closes : Bracket → List Bracket → List Token → Token → List Token → Prop
  /-- The bracket that closes the group itself, with nothing open around it. -/
  | last {b : Bracket} {t : Token} {ts : List Token} :
      t.kind = .closing b → Closes b [] (t :: ts) t ts
  /-- A bracket that closes an inner group; the next one out goes on. -/
  | outer {b next : Bracket} {outer : List Bracket} {t u : Token} {ts rest : List Token} :
      t.kind = .closing b → Closes next outer ts u rest → Closes b (next :: outer) (t :: ts) u rest
  /-- An opening bracket begins a group within. -/
  | inner {b inside : Bracket} {outer : List Bracket} {t u : Token} {ts rest : List Token} :
      t.kind = .opening inside → Closes inside (b :: outer) ts u rest →
      Closes b outer (t :: ts) u rest
  /-- Any other token is in the group. -/
  | plain {b : Bracket} {outer : List Bracket} {t u : Token} {ts rest : List Token} :
      (∀ b', t.kind ≠ .opening b') → (∀ b', t.kind ≠ .closing b') → Closes b outer ts u rest →
      Closes b outer (t :: ts) u rest

theorem Closes.ends_last {b : Bracket} {outer : List Bracket} {ts rest : List Token} {u : Token}
    (h : Closes b outer ts u rest) : ∃ inner, ts = inner ++ u :: rest := by
  induction h with
  | last => exact ⟨[], rfl⟩
  | outer _ _ ih | inner _ _ ih | plain _ _ _ ih =>
    obtain ⟨inner, rfl⟩ := ih
    exact ⟨_ :: inner, rfl⟩

/-- What `Group.close` reads is the rest of a well-nested group. -/
theorem closes_of_reads {b : Bracket} {outer : List Bracket} {ts rest : List Token} {u : Token}
    (h : Reads (close b outer ts) u rest) : Closes b outer ts u rest := by
  induction ts generalizing b outer with
  | nil => exact absurd h Reads.not_error
  | cons t ts ih =>
    rw [close.eq_def] at h
    dsimp only at h
    split at h
    · next inside opens =>
      exact .inner opens (ih h.of_wider)
    · next kind closes =>
      split at h
      · next same =>
        subst same
        split at h
        · obtain ⟨rfl, rfl⟩ := Reads.ok_iff.mp h
          exact .last closes
        · exact .outer closes (ih h.of_wider)
      · exact absurd h Reads.not_error
    · next notOpening notClosing =>
      exact .plain notOpening notClosing (ih h.of_wider)

/-- `Group.close` reads exactly the rests of well-nested groups. -/
theorem reads_close_iff {b : Bracket} {outer : List Bracket} {ts rest : List Token} {u : Token} :
    Reads (close b outer ts) u rest ↔ Closes b outer ts u rest := by
  refine ⟨closes_of_reads, fun h => ?_⟩
  induction h with
  | last closes =>
    rw [close.eq_def]
    simp only [closes, ↓reduceIte]
    exact Reads.ok
  | outer closes _ ih =>
    rw [close.eq_def]
    simp only [closes, ↓reduceIte]
    exact ih.wider
  | inner opens _ ih =>
    rw [close.eq_def]
    simp only [opens]
    exact ih.wider
  | plain notOpening notClosing _ ih =>
    rw [close.eq_def]
    dsimp only
    split
    · next b' opens => exact absurd opens (notOpening b')
    · next b' closes => exact absurd closes (notClosing b')
    · exact ih.wider

/-- The tokens begin with a parenthesis that nothing separates from what stands before it. -/
def StartsArguments (ts : List Token) : Prop :=
  ∃ t ∈ ts.head?, t.kind = .opening .parenthesis ∧ t.touches = true

/-- Arguments in parentheses that touch what stands before them, if there are any; the value is the
token that closes them. -/
inductive Arguments : List Token → Option Token → List Token → Prop
  | none {ts : List Token} : ¬ StartsArguments ts → Arguments ts none ts
  | some {t u : Token} {ts rest : List Token} :
      t.kind = .opening .parenthesis → t.touches = true → Closes .parenthesis [] ts u rest →
      Arguments (t :: ts) (some u) rest

/-- Arguments are skipped if a parenthesis touches what stands before it, and to its end; otherwise
nothing is read. An unclosed parenthesis is read by neither case. -/
theorem reads_skipArguments_iff {ts rest : List Token} {closer? : Option Token} :
    Reads (skipArguments ts) closer? rest ↔ Arguments ts closer? rest := by
  cases ts with
  | nil =>
    rw [skipArguments, Reads.ok_iff]
    constructor
    · rintro ⟨rfl, rfl⟩
      exact .none (by simp [StartsArguments])
    · rintro ⟨⟩
      exact ⟨rfl, rfl⟩
  | cons t ts =>
    rw [skipArguments]
    by_cases starts : t.kind = .opening .parenthesis ∧ t.touches = true
    · obtain ⟨kind, touches⟩ := starts
      simp only [kind, touches, decide_true, Bool.and_self, ↓reduceIte]
      constructor
      · intro h
        obtain ⟨u, mid, shorter, closes, h⟩ := h.of_bind
        obtain ⟨rfl, rfl⟩ := Reads.ok_iff.mp h
        exact .some kind touches (reads_close_iff.mp ⟨shorter, closes⟩)
      · rintro (absent | ⟨-, -, closes⟩)
        · exact absurd ⟨t, rfl, kind, touches⟩ absent
        · exact (reads_close_iff.mpr closes).bind fun _ => Reads.ok
    · have stays : (decide (t.kind = .opening .parenthesis) && t.touches) = false := by
        simpa using starts
      simp only [stays, Bool.false_eq_true, ↓reduceIte, Reads.ok_iff, Step.stay_value,
        Step.stay_rest]
      constructor
      · rintro ⟨rfl, rfl⟩
        exact .none (by rintro ⟨_, ⟨⟩, begins⟩; exact starts begins)
      · rintro (- | ⟨kind, touches, -⟩)
        · exact ⟨rfl, rfl⟩
        · exact absurd ⟨kind, touches⟩ starts

/-- `ClosesAngle depth ts rest`: the tokens `ts` begin with the rest of a generic clause within
which `depth` further angle brackets are open. -/
inductive ClosesAngle : Nat → List Token → List Token → Prop
  | last {t : Token} {ts : List Token} : t.kind = .greater → ClosesAngle 0 (t :: ts) ts
  | outer {depth : Nat} {t : Token} {ts rest : List Token} :
      t.kind = .greater → ClosesAngle depth ts rest → ClosesAngle (depth + 1) (t :: ts) rest
  | inner {depth : Nat} {t : Token} {ts rest : List Token} :
      t.kind = .less → ClosesAngle (depth + 1) ts rest → ClosesAngle depth (t :: ts) rest
  /-- A group in parentheses or square brackets is stepped over, so an angle bracket in it does not
  count. -/
  | group {depth : Nat} {b : Bracket} {t u : Token} {ts mid rest : List Token} :
      t.kind = .opening b → b ≠ .brace → Closes b [] ts u mid → ClosesAngle depth mid rest →
      ClosesAngle depth (t :: ts) rest
  /-- Any other token, an opening brace included. -/
  | plain {depth : Nat} {t : Token} {ts rest : List Token} :
      t.kind ≠ .less → t.kind ≠ .greater → (∀ b, t.kind = .opening b → b = .brace) →
      ClosesAngle depth ts rest → ClosesAngle depth (t :: ts) rest

/-- What is skipped of a generic clause is the rest of one: angle brackets are counted, and groups
in other brackets are stepped over as a whole. -/
theorem closesAngle_of_reads {depth : Nat} {ts rest : List Token} {x : Unit}
    (h : Reads (closeAngle depth ts) x rest) : ClosesAngle depth ts rest := by
  induction hn : ts.length using Nat.strongRecOn generalizing depth ts with
  | ind n ih =>
    subst hn
    cases ts with
    | nil => rw [closeAngle] at h; exact absurd h Reads.not_error
    | cons t ts =>
      rw [closeAngle.eq_def] at h
      dsimp only at h
      split at h
      · next less => exact .inner less (ih _ (Nat.lt_add_one _) h.of_wider rfl)
      · next greater =>
        split at h
        · obtain ⟨-, rfl⟩ := Reads.ok_iff.mp h
          exact .last greater
        · exact .outer greater (ih _ (Nat.lt_add_one _) h.of_wider rfl)
      · next opens =>
        obtain ⟨u, mid, shorter, closes, h⟩ := h.of_bind
        exact .group opens (by simp) (reads_close_iff.mp ⟨shorter, closes⟩)
          (ih mid.length (Nat.lt_succ_of_lt shorter) h.of_widen rfl)
      · next opens =>
        obtain ⟨u, mid, shorter, closes, h⟩ := h.of_bind
        exact .group opens (by simp) (reads_close_iff.mp ⟨shorter, closes⟩)
          (ih mid.length (Nat.lt_succ_of_lt shorter) h.of_widen rfl)
      · next notLess notGreater notParenthesis notSquare =>
        refine .plain notLess notGreater (fun b opens => ?_)
          (ih _ (Nat.lt_add_one _) h.of_wider rfl)
        cases b with
        | brace => rfl
        | parenthesis => exact absurd opens notParenthesis
        | square => exact absurd opens notSquare

/-- The rest of a generic clause is skipped up to the angle bracket that closes it. -/
theorem reads_closeAngle_iff {depth : Nat} {ts rest : List Token} :
    Reads (closeAngle depth ts) () rest ↔ ClosesAngle depth ts rest := by
  refine ⟨closesAngle_of_reads, fun h => ?_⟩
  induction h with
  | last greater =>
    rw [closeAngle.eq_def]
    simp only [greater]
    exact Reads.ok
  | outer greater _ ih =>
    rw [closeAngle.eq_def]
    simp only [greater]
    exact ih.wider
  | inner less _ ih =>
    rw [closeAngle.eq_def]
    simp only [less]
    exact ih.wider
  | @group depth b t u ts mid rest opens notBrace closes _ ih =>
    rw [closeAngle.eq_def]
    cases b with
    | brace => exact absurd rfl notBrace
    | parenthesis | square =>
      simp only [opens]
      exact (reads_close_iff.mpr closes).bind fun _ => ih.widen
  | plain notLess notGreater notOpening _ ih =>
    rw [closeAngle.eq_def]
    dsimp only
    split
    · next less => exact absurd less notLess
    · next greater => exact absurd greater notGreater
    · next opens => exact absurd (notOpening _ opens) (by simp)
    · next opens => exact absurd (notOpening _ opens) (by simp)
    · exact ih.wider

/-- `ClosesArguments depth ts rest`: the tokens `ts` begin with the rest of generic arguments within
which `depth` further angle brackets are open, and with nothing that no type is made of. -/
inductive ClosesArguments : Nat → List Token → List Token → Prop
  | last {t : Token} {ts : List Token} : t.kind = .greater → ClosesArguments 0 (t :: ts) ts
  | outer {depth : Nat} {t : Token} {ts rest : List Token} :
      t.kind = .greater → ClosesArguments depth ts rest → ClosesArguments (depth + 1) (t :: ts) rest
  | inner {depth : Nat} {t : Token} {ts rest : List Token} :
      t.kind = .less → ClosesArguments (depth + 1) ts rest → ClosesArguments depth (t :: ts) rest
  | plain {depth : Nat} {t : Token} {ts rest : List Token} :
      isArgumentToken t = true → ClosesArguments depth ts rest →
      ClosesArguments depth (t :: ts) rest

theorem isArgumentToken_of_less {t : Token} (h : t.kind = .less) : isArgumentToken t = false := by
  simp [isArgumentToken, h]

theorem isArgumentToken_of_greater {t : Token} (h : t.kind = .greater) :
    isArgumentToken t = false := by
  simp [isArgumentToken, h]

/-- What is taken for generic arguments is made of nothing but tokens of types and angle brackets,
and closes as often as it opens. -/
theorem closesArguments_of_after {depth : Nat} {ts : List Token} {s : Step Token Unit ts.length}
    (h : afterArguments? depth ts = some s) : ClosesArguments depth ts s.rest := by
  induction ts generalizing depth with
  | nil => cases h
  | cons t ts ih =>
    rw [afterArguments?.eq_def] at h
    dsimp only at h
    split at h
    · next less =>
      obtain ⟨inner, more, rfl⟩ := Option.map_eq_some_iff.mp h
      exact .inner less (ih more)
    · next greater =>
      split at h
      · cases h
        exact .last greater
      · obtain ⟨inner, more, rfl⟩ := Option.map_eq_some_iff.mp h
        exact .outer greater (ih more)
    · split at h
      · next isArgument =>
        obtain ⟨inner, more, rfl⟩ := Option.map_eq_some_iff.mp h
        exact .plain isArgument (ih more)
      · cases h

/-- Conversely, tokens of that kind are always taken for generic arguments, whatever they were meant
for. -/
theorem ClosesArguments.after {depth : Nat} {ts rest : List Token}
    (h : ClosesArguments depth ts rest) :
    ∃ shorter, afterArguments? depth ts = some ⟨(), rest, shorter⟩ := by
  induction h with
  | last greater =>
    rw [afterArguments?.eq_def]
    simp only [greater]
    exact ⟨Nat.lt_add_one _, rfl⟩
  | outer greater _ ih =>
    obtain ⟨shorter, ih⟩ := ih
    rw [afterArguments?.eq_def]
    simp only [greater, ih]
    exact ⟨Nat.lt_succ_of_lt shorter, rfl⟩
  | inner less _ ih =>
    obtain ⟨shorter, ih⟩ := ih
    rw [afterArguments?.eq_def]
    simp only [less, ih]
    exact ⟨Nat.lt_succ_of_lt shorter, rfl⟩
  | plain isArgument _ ih =>
    obtain ⟨shorter, ih⟩ := ih
    rw [afterArguments?.eq_def]
    dsimp only
    split
    · next less => rw [isArgumentToken_of_less less] at isArgument; cases isArgument
    · next greater => rw [isArgumentToken_of_greater greater] at isArgument; cases isArgument
    · rw [if_pos isArgument, ih]
      exact ⟨Nat.lt_succ_of_lt shorter, rfl⟩

end Group

end CodableSynthesis
