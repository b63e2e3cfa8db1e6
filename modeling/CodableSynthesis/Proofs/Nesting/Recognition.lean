import CodableSynthesis.Proofs.Nesting.Balanced
import CodableSynthesis.Proofs.Respelling.Laid
import Mathlib.Data.List.Induction

/-!
Which groups are read to their end, and where the reading of the others fails. Behind an opening
bracket the tokens go on in one of three ways: the group closes, a bracket in it closes out of turn,
or the tokens end before it closes.

* `Group.IsGroup`, `Group.LeavesOpen`: groups, and the brackets that some tokens open and leave
  open, both without a stack that is run over the tokens.
* `Group.LeavesOpen.outcome_close`: behind such tokens a group is read on inside these brackets.
* `Group.close_cases`: the three ways, each with its outcome.
* `Group.exists_reads_close_iff`, `Group.close_eq_unexpected_iff`, `Group.close_eq_endOfInput_iff`:
  when each of the outcomes arises.
* `Group.close_outcomes`: all of this for the group at an opening bracket, and how far it reaches.

`skip_balanced` keeps a stack of the brackets that are open. Its errors are exact: a bracket that
closes out of turn is reported as unexpected where it stands, and at the end of the tokens the
bracket that is missing is that of the innermost group. The expectation that an error names is the
closing bracket that was found, or the one that is missing.

`close_cases` is proved from the tokens: either all of them can be passed over with some stack, or
there is a first bracket that closes out of turn. The characterizations follow because the outcome
of a reading is one: each case excludes the others.
-/

namespace CodableSynthesis.Group

/-! ### Groups and open brackets -/

/-- One group: an opening bracket, a balanced stretch and the closing bracket of the same kind. -/
inductive IsGroup : List Token → Prop
  | mk {b : Bracket} {t u : Token} {inner : List Token} :
      t.kind = .opening b → Balanced inner → u.kind = .closing b → IsGroup (t :: (inner ++ [u]))

/-- `LeavesOpen ts stack`: every bracket that closes among the tokens closes one that they open, and
those of `stack`, innermost first, they leave open. Between the open brackets stand balanced
stretches. -/
inductive LeavesOpen : List Token → List Bracket → Prop
  /-- Balanced tokens leave nothing open. -/
  | balanced {ts : List Token} : Balanced ts → LeavesOpen ts []
  /-- One more bracket opens, and is not closed. -/
  | opening {b : Bracket} {stack : List Bracket} {t : Token} {before inside : List Token} :
      LeavesOpen before stack → t.kind = .opening b → Balanced inside →
      LeavesOpen (before ++ t :: inside) (b :: stack)

/-- The tokens `ts` begin with the group `group`, with `rest` behind it, and with no shorter stretch
that is balanced. There may be longer ones, if further groups follow. -/
structure BeginsWith (ts group rest : List Token) : Prop where
  /-- The group stands in front of the rest. -/
  made : ts = group ++ rest
  /-- It is one. -/
  isGroup : IsGroup group
  /-- It ends where the first balanced stretch ends. -/
  shortest (other rest' : List Token) :
    ts = other ++ rest' → Balanced other → other ≠ [] → group.length ≤ other.length

variable {b c top : Bracket} {stack under outer : List Bracket} {t u : Token}
  {ts us front inner rest : List Token}

namespace LeavesOpen

/-- A balanced stretch behind them changes nothing. -/
theorem append (h : LeavesOpen ts stack) (balanced : Balanced us) :
    LeavesOpen (ts ++ us) stack := by
  cases h with
  | balanced before => exact .balanced (before.append balanced)
  | opening before opens inside =>
    rw [List.append_assoc, List.cons_append]
    exact .opening before opens (inside.append balanced)

/-- One more token that does not close out of turn. -/
theorem concat (h : LeavesOpen ts stack) (next : openedBy stack t = some under) :
    LeavesOpen (ts ++ [t]) under := by
  rcases t.bracket_cases with ⟨b, opens⟩ | ⟨b, closes⟩ | ⟨notOpening, notClosing⟩
  · rw [openedBy, opens] at next
    cases next
    exact .opening h opens .nil
  · rw [openedBy, closes] at next
    -- The bracket that it closes is the one that the tokens left open last.
    cases h with
    | balanced => simp at next
    | @opening c stack o before inside before' opens inside' =>
      obtain ⟨rfl, rfl⟩ : c = b ∧ stack = under := by simpa using next
      have group : Balanced (o :: (inside ++ [t])) := .group opens inside' closes .nil
      simpa using before'.append group
  · have same : openedBy stack t = some stack := by
      rw [← opened_nil, ← opened_plain notOpening notClosing, opened_cons]
      simp
    obtain rfl : stack = under := Option.some.inj (same.symm.trans next)
    exact h.append (.plain notOpening notClosing .nil)

/-- Inside a group in the bracket `b` some bracket is always innermost. -/
theorem exists_under (b : Bracket) (stack : List Bracket) :
    ∃ under, stack ++ [b] = stack.headD b :: under := by
  cases stack with
  | nil => exact ⟨[], rfl⟩
  | cons top stack => exact ⟨stack ++ [b], rfl⟩

end LeavesOpen

/-- A token that is not passed over closes a bracket, and not the innermost. -/
theorem closes_of_openedBy_eq_none (h : openedBy stack t = none) :
    ∃ c, t.kind = .closing c ∧ stack.head? ≠ some c := by
  rw [openedBy.eq_def] at h
  split at h
  · cases h
  · next c closes =>
    refine ⟨c, closes, fun innermost => ?_⟩
    rw [if_pos innermost] at h
    cases h
  · cases h

/-- Either no bracket closes out of turn, or there is a first one that does. The induction is on the
tokens from the back, so that what is in front of the last one is already one or the other. -/
theorem leavesOpen_or_closes (ts : List Token) :
    (∃ stack, LeavesOpen ts stack) ∨ ∃ front u back stack c, ts = front ++ u :: back ∧
      LeavesOpen front stack ∧ u.kind = .closing c ∧ stack.head? ≠ some c := by
  induction ts using List.reverseRecOn with
  | nil => exact .inl ⟨[], .balanced .nil⟩
  | append_singleton ts t ih =>
    rcases ih with ⟨stack, leaves⟩ | ⟨front, u, back, stack, c, rfl, leaves, closes, outOfTurn⟩
    · cases next : openedBy stack t with
      | some stack' => exact .inl ⟨stack', leaves.concat next⟩
      | none =>
        obtain ⟨c, closes, outOfTurn⟩ := closes_of_openedBy_eq_none next
        exact .inr ⟨ts, t, [], stack, c, rfl, leaves, closes, outOfTurn⟩
    · exact .inr ⟨front, u, back ++ [t], stack, c, by simp, leaves, closes, outOfTurn⟩

/-! ### Reading a group token by token

The rounds of the loop, one kind of token at a time. Only the outcome is stated here; that each
round leaves fewer tokens is part of the reader's type. -/

theorem outcome_close_opening (opens : t.kind = .opening c) :
    outcome (close b outer (t :: ts)) = outcome (close c (b :: outer) ts) := by
  rw [close.eq_def]
  simp only [opens]
  exact outcome_wider

theorem outcome_close_plain (notOpening : ∀ b, t.kind ≠ .opening b)
    (notClosing : ∀ b, t.kind ≠ .closing b) :
    outcome (close b outer (t :: ts)) = outcome (close b outer ts) := by
  rw [close.eq_def]
  dsimp only
  split
  · next b' opens => exact absurd opens (notOpening b')
  · next b' closes => exact absurd closes (notClosing b')
  · exact outcome_wider

theorem outcome_close_outer {next : Bracket} (closes : t.kind = .closing b) :
    outcome (close b (next :: outer) (t :: ts)) = outcome (close next outer ts) := by
  rw [close.eq_def]
  simp only [closes, ↓reduceIte]
  exact outcome_wider

theorem close_outOfTurn (closes : t.kind = .closing c) (other : c ≠ b) :
    close b outer (t :: ts) = .error (.unexpected (.closing c) t) := by
  rw [close.eq_def]
  simp only [closes, if_neg other]

/-- Balanced tokens within a group are passed over. -/
theorem Balanced.outcome_close (h : Balanced inner) :
    outcome (close b outer (inner ++ ts)) = outcome (close b outer ts) := by
  induction h generalizing b outer ts with
  | nil => rfl
  | plain notOpening notClosing _ ih =>
    rw [List.cons_append, outcome_close_plain notOpening notClosing, ih]
  | group opens _ closes _ inner ih =>
    rw [List.cons_append, List.append_assoc, outcome_close_opening opens, inner, List.cons_append,
      outcome_close_outer closes, ih]

/-- Behind tokens that leave some brackets open, a group is read on inside these. -/
theorem LeavesOpen.outcome_close (h : LeavesOpen front stack)
    (inside : stack ++ [b] = top :: under) :
    outcome (close b [] (front ++ ts)) = outcome (close top under ts) := by
  induction h generalizing top under ts with
  | balanced balanced =>
    obtain ⟨rfl, rfl⟩ := List.cons.inj inside
    exact balanced.outcome_close
  | @opening c stack o before inside' _ opens balanced ih =>
    obtain ⟨rfl, rfl⟩ := List.cons.inj inside
    obtain ⟨under, around⟩ := exists_under b stack
    calc outcome (close b [] (before ++ o :: inside' ++ ts))
        = outcome (close b [] (before ++ o :: (inside' ++ ts))) := by
          rw [List.append_assoc, List.cons_append]
      _ = outcome (close (stack.headD b) under (o :: (inside' ++ ts))) := ih around
      _ = outcome (close c (stack.headD b :: under) (inside' ++ ts)) := outcome_close_opening opens
      _ = outcome (close c (stack ++ [b]) ts) := by rw [balanced.outcome_close, around]

/-! ### The three outcomes

Each outcome has a shape of tokens that leads to it, and the shapes exclude one another. -/

theorem LeavesOpen.close_outOfTurn {back : List Token} (h : LeavesOpen front stack)
    (closes : u.kind = .closing c) (other : c ≠ stack.headD b) :
    close b [] (front ++ u :: back) = .error (.unexpected (.closing c) u) := by
  obtain ⟨under, around⟩ := exists_under b stack
  rw [← outcome_eq_error_iff, h.outcome_close around, outcome_eq_error_iff]
  exact Group.close_outOfTurn closes other

/-- Where the tokens end, the innermost open bracket is missing its counterpart. -/
theorem LeavesOpen.close_eq_endOfInput (h : LeavesOpen ts stack) :
    close b [] ts = .error (.endOfInput (.closing (stack.headD b))) := by
  obtain ⟨under, around⟩ := exists_under b stack
  have passed : outcome (close b [] (ts ++ [])) = _ := h.outcome_close around
  rw [List.append_nil] at passed
  rw [← outcome_eq_error_iff, passed]
  rfl

/-- Behind its opening bracket a group closes, or a bracket closes out of turn, or the tokens end.
The second and third come with the brackets that are open at the fault. -/
theorem close_cases (b : Bracket) (ts : List Token) :
    (∃ u rest, Reads (close b [] ts) u rest) ∨
      (∃ front u back stack c, ts = front ++ u :: back ∧ LeavesOpen front stack ∧
        u.kind = .closing c ∧ c ≠ stack.headD b ∧
        close b [] ts = .error (.unexpected (.closing c) u)) ∨
      ∃ stack, LeavesOpen ts stack ∧
        close b [] ts = .error (.endOfInput (.closing (stack.headD b))) := by
  rcases leavesOpen_or_closes ts with
    ⟨stack, leaves⟩ | ⟨front, u, back, stack, c, rfl, leaves, closes, outOfTurn⟩
  · exact .inr (.inr ⟨stack, leaves, leaves.close_eq_endOfInput⟩)
  · by_cases turn : c = stack.headD b
    · -- Nothing is open in the group, so it is the group that closes.
      cases leaves with
      | balanced balanced =>
        refine .inl ⟨u, back, reads_close_iff.mpr (closes_iff.mpr ⟨front, rfl, balanced, ?_⟩)⟩
        rw [closes, turn]
        rfl
      | opening => exact absurd (congrArg some turn.symm) outOfTurn
    · exact .inr (.inl
        ⟨front, u, back, stack, c, rfl, leaves, closes, turn, leaves.close_outOfTurn closes turn⟩)

/-- Of the balanced stretches that begin with an opening bracket, its group is the shortest. -/
theorem beginsWith_of_closes (opens : t.kind = .opening b) (h : Closes b [] ts u rest) :
    ∃ group, BeginsWith (t :: ts) group rest ∧ group.getLast? = some u := by
  obtain ⟨inner, rfl, within, closes⟩ := closes_iff.mp h
  refine ⟨t :: (inner ++ [u]), ⟨by simp, .mk opens within closes, ?_⟩,
    List.getLast?_concat (l := t :: inner)⟩
  intro other rest' made balanced nonempty
  obtain ⟨o, other, rfl⟩ := List.exists_cons_of_ne_nil nonempty
  obtain ⟨rfl, behind⟩ : t = o ∧ inner ++ u :: rest = other ++ rest' := List.cons.inj made
  rw [balanced_iff, opened_opening opens] at balanced
  obtain ⟨inner', u', more, rfl, within', closes', -⟩ := split_of_opened balanced
  -- The other stretch begins with a group too, and a group ends in one place.
  have again : Closes b [] (inner ++ u :: rest) u' (more ++ rest') :=
    closes_iff.mpr ⟨inner', by simpa using behind, within', closes'⟩
  obtain ⟨-, left⟩ := (reads_close_iff.mpr h).unique (reads_close_iff.mpr again)
  have lengths := congrArg List.length behind
  have lefts := congrArg List.length left
  simp only [List.length_append, List.length_cons, List.length_nil] at lengths lefts ⊢
  omega

theorem IsGroup.closes {group : List Token} (h : IsGroup group) (opens : t.kind = .opening b)
    (made : t :: ts = group ++ rest) : ∃ u, Closes b [] ts u rest := by
  obtain @⟨c, o, u, inner, opens', within, closes⟩ := h
  rw [List.cons_append, List.append_assoc] at made
  obtain ⟨rfl, rfl⟩ := List.cons.inj made
  obtain rfl : b = c := TokenKind.opening.inj (opens.symm.trans opens')
  exact ⟨u, closes_iff.mpr ⟨inner, rfl, within, closes⟩⟩

/-- At an opening bracket a group is read exactly if there is one. -/
theorem exists_reads_close_iff (opens : t.kind = .opening b) :
    (∃ u rest, Reads (close b [] ts) u rest) ↔
      ∃ group rest, t :: ts = group ++ rest ∧ IsGroup group := by
  constructor
  · rintro ⟨u, rest, read⟩
    obtain ⟨group, begins, -⟩ := beginsWith_of_closes opens (reads_close_iff.mp read)
    exact ⟨group, rest, begins.made, begins.isGroup⟩
  · rintro ⟨group, rest, made, isGroup⟩
    obtain ⟨u, closes⟩ := isGroup.closes opens made
    exact ⟨u, rest, reads_close_iff.mpr closes⟩

/-- Something is unexpected exactly if it closes out of turn, and nothing in front of it does. -/
theorem close_eq_unexpected_iff {expected : Expectation} :
    close b [] ts = .error (.unexpected expected u) ↔
      ∃ front back stack c, ts = front ++ u :: back ∧ LeavesOpen front stack ∧
        u.kind = .closing c ∧ c ≠ stack.headD b ∧ expected = .closing c := by
  constructor
  · intro fault
    rcases close_cases b ts with
      ⟨v, rest, read⟩ | ⟨front, v, back, stack, c, made, leaves, closes, other, fault'⟩ |
      ⟨stack, -, fault'⟩
    · rw [fault] at read
      exact absurd read Reads.not_error
    · rw [fault] at fault'
      cases fault'
      exact ⟨front, back, stack, c, made, leaves, closes, other, rfl⟩
    · rw [fault] at fault'
      cases fault'
  · rintro ⟨front, back, stack, c, rfl, leaves, closes, other, rfl⟩
    exact leaves.close_outOfTurn closes other

/-- The tokens end too early exactly if they leave the group open, and nothing in them closes out of
turn. -/
theorem close_eq_endOfInput_iff {expected : Expectation} :
    close b [] ts = .error (.endOfInput expected) ↔
      ∃ stack, LeavesOpen ts stack ∧ expected = .closing (stack.headD b) := by
  constructor
  · intro fault
    rcases close_cases b ts with
      ⟨u, rest, read⟩ | ⟨front, u, back, stack, c, -, -, -, -, fault'⟩ | ⟨stack, leaves, fault'⟩
    · rw [fault] at read
      exact absurd read Reads.not_error
    · rw [fault] at fault'
      cases fault'
    · rw [fault] at fault'
      cases fault'
      exact ⟨stack, leaves, rfl⟩
  · rintro ⟨stack, leaves, rfl⟩
    exact leaves.close_eq_endOfInput

/-- At an opening bracket a group is read exactly if there is one, and then the shortest. Otherwise
the fault is at the first bracket that closes while another one is innermost, and if there is none,
at the end of the tokens, where the innermost open bracket is missing its counterpart.

The four parts are equivalences, and hold for every list of tokens. Together they leave no other
outcome. -/
theorem close_outcomes (opens : t.kind = .opening b) (ts : List Token) :
    ((∃ u rest, Reads (close b [] ts) u rest) ↔
        ∃ group rest, t :: ts = group ++ rest ∧ IsGroup group) ∧
      (∀ u rest, Reads (close b [] ts) u rest →
        ∃ group, BeginsWith (t :: ts) group rest ∧ group.getLast? = some u) ∧
      (∀ expected u, close b [] ts = .error (.unexpected expected u) ↔
        ∃ front back stack c, ts = front ++ u :: back ∧ LeavesOpen front stack ∧
          u.kind = .closing c ∧ c ≠ stack.headD b ∧ expected = .closing c) ∧
      (∀ expected, close b [] ts = .error (.endOfInput expected) ↔
        ∃ stack, LeavesOpen ts stack ∧ expected = .closing (stack.headD b)) := by
  refine ⟨exists_reads_close_iff opens, ?_, ?_, ?_⟩
  · intro u rest read
    exact beginsWith_of_closes opens (reads_close_iff.mp read)
  · intro expected u
    exact close_eq_unexpected_iff
  · intro expected
    exact close_eq_endOfInput_iff

/-- `(x) [y } ]` -/
def crossedBrackets : List Token :=
  [.laid false (.opening .parenthesis) "(", .laid true .ident "x",
    .laid true (.closing .parenthesis) ")", .laid false (.opening .square) "[",
    .laid true .ident "y", .laid false (.closing .brace) "\x7d",
    .laid false (.closing .square) "]"]

/-- The brace closes out of turn, though the group itself is in braces. -/
theorem close_outcomes_crossed :
    (Token.laid false (.opening .brace) "\x7b").kind = .opening .brace ∧
      close .brace [] crossedBrackets =
        .error (.unexpected (.closing .brace) (.laid false (.closing .brace) "\x7d")) := by
  have opens : (Token.laid false (.opening .brace) "\x7b").kind = .opening .brace := rfl
  have group : Balanced (crossedBrackets.take 3) := by decide
  have leaves : LeavesOpen (crossedBrackets.take 5) [.square] :=
    .opening (.balanced group) rfl (.plain nofun nofun .nil)
  obtain ⟨-, -, unexpected, -⟩ := close_outcomes opens crossedBrackets
  refine ⟨opens, (unexpected _ _).mpr ?_⟩
  exact ⟨_, crossedBrackets.drop 6, [.square], .brace, rfl, leaves, rfl, by decide, rfl⟩

end CodableSynthesis.Group
