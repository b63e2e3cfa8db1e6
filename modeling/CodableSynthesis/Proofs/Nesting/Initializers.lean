import CodableSynthesis.Proofs.Grammar.Ends
import CodableSynthesis.Proofs.Nesting.Balanced
import CodableSynthesis.FieldModel.Extraction
import CodableSynthesis.Expansion.Source

/-!
What the expression of an initializer takes with it. It is taken token by token, but for groups and
for generic arguments, which are taken at once.

* `Skipping.Takes`: the pieces that an expression is taken in.
* `Skipping.reads_expression_iff_takes`: reading an expression is taking such pieces up to where it
  ends.
* `Skipping.Exact`: a stretch that holds groups as a whole and no declaration behind them.
* `Skipping.Takes.exact_iff`: only the generic arguments matter to it.
* `Skipping.expression_exact`: an expression is exact if and only if the generic arguments in it,
  one behind the other, are.
* `Skipping.Takes.exact_of_spaced`: so it is if every angle bracket has a gap in front of it.

`skip_expression` stops in front of a token that begins a declaration, and passes over groups as a
whole, so what it takes would always be exact. The exception is `try_skip_generic_arguments`, which
takes an angle bracket for the opening of generic arguments whenever a matching one is found further
on, across lines and across brackets that do not match. Its comment promises less: only what looks
like types up to the closing bracket is to be taken, so that the boundaries between members stay
exact.

`expression_not_exact` is a class in which a comparison in one member and an operator two members on
are taken for generic arguments, with the stored property between them. The theorem states what
holds of every list of tokens: a violation lies within pieces of this one kind.
-/

namespace CodableSynthesis.Skipping

open CodableSynthesis.Group (Balanced opened openedBy)

/-! ### Pieces

What is taken, piece by piece, as the loop of the program takes it. -/

/-- What an expression is taken in. The pieces are what the loop of `skip_expression` takes in one
round. -/
inductive Piece where
  /-- One token that opens nothing. -/
  | token (t : Token)
  /-- A group in brackets. -/
  | group (ts : List Token)
  /-- What stands between two angle brackets, with these. -/
  | arguments (ts : List Token)

namespace Piece

/-- The tokens of a piece. -/
def tokens : Piece → List Token
  | .token t => [t]
  | .group ts | .arguments ts => ts

/-- The tokens of a piece that is generic arguments, and no tokens of any other piece. Put one
behind the other these are the part of an expression that may fail to be exact. -/
def angled : Piece → List Token
  | .token _ | .group _ => []
  | .arguments ts => ts

end Piece

/-- `Takes started ts ps rest`: of `ts` the pieces `ps` are taken and `rest` is left, `started`
telling whether some of the expression was read before. In each case the expression does not end in
front of the piece; where it does end is not part of this. -/
inductive Takes : Bool → List Token → List Piece → List Token → Prop
  /-- Nothing is taken. -/
  | nothing {started : Bool} {ts : List Token} : Takes started ts [] ts
  /-- A token is taken alone if it opens neither a group nor generic arguments. -/
  | token {started : Bool} {t : Token} {ts rest : List Token} {ps : List Piece} :
      ¬ EndsExpression started (t :: ts) → (∀ b, t.kind ≠ .opening b) →
      (∀ mid, ¬ OpensArguments t ts mid) → Takes true ts ps rest →
      Takes started (t :: ts) (.token t :: ps) rest
  /-- A group is taken with both its brackets. -/
  | group {started : Bool} {b : Bracket} {t u : Token} {inner mid rest : List Token}
      {ps : List Piece} :
      ¬ EndsExpression started (t :: (inner ++ u :: mid)) → t.kind = .opening b → Balanced inner →
      u.kind = .closing b → Takes true mid ps rest →
      Takes started (t :: (inner ++ u :: mid)) (.group (t :: (inner ++ [u])) :: ps) rest
  /-- Generic arguments are taken up to where the search for the closing angle bracket left off. -/
  | arguments {started : Bool} {t : Token} {inner mid rest : List Token} {ps : List Piece} :
      ¬ EndsExpression started (t :: (inner ++ mid)) → OpensArguments t (inner ++ mid) mid →
      Takes true mid ps rest →
      Takes started (t :: (inner ++ mid)) (.arguments (t :: inner) :: ps) rest

theorem OpensArguments.suffix {t : Token} {ts mid : List Token} (h : OpensArguments t ts mid) :
    mid <:+ ts := by
  obtain ⟨-, -, closes⟩ := h
  exact (show Consumes AtAttribute ts mid from closes.consumes).leaves.suffix

/-- An expression that is read comes in pieces, and ends behind them. -/
theorem Expression.takes {started : Bool} {ts rest : List Token} (h : Expression started ts rest) :
    ∃ ps, Takes started ts ps rest ∧ EndsExpression (started || !ps.isEmpty) rest := by
  induction h with
  | stop ends => exact ⟨[], .nothing, by simpa using ends⟩
  | group goesOn opens closes _ ih =>
    obtain ⟨ps, taken, ends⟩ := ih
    obtain ⟨inner, rfl, within, closer⟩ := Group.closes_iff.mp closes
    exact ⟨_, .group goesOn opens within closer taken, by simpa using ends⟩
  | arguments goesOn opens _ ih =>
    obtain ⟨ps, taken, ends⟩ := ih
    obtain ⟨inner, rfl⟩ := opens.suffix
    exact ⟨_, .arguments goesOn opens taken, by simpa using ends⟩
  | plain goesOn notOpening noArguments _ ih =>
    obtain ⟨ps, taken, ends⟩ := ih
    exact ⟨_, .token goesOn notOpening noArguments taken, by simpa using ends⟩

/-- An expression goes on as one from wherever it has got to. -/
theorem Takes.expression {started : Bool} {ts mid rest : List Token} {ps : List Piece}
    (h : Takes started ts ps mid) (more : Expression (started || !ps.isEmpty) mid rest) :
    Expression started ts rest := by
  induction h with
  | nothing => simpa using more
  | token goesOn notOpening noArguments _ ih =>
    exact .plain goesOn notOpening noArguments (ih (by simpa using more))
  | group goesOn opens within closes _ ih =>
    exact .group goesOn opens (Group.closes_iff.mpr ⟨_, rfl, within, closes⟩)
      (ih (by simpa using more))
  | arguments goesOn opens _ ih => exact .arguments goesOn opens (ih (by simpa using more))

/-- An expression is read to where it ends behind some pieces. This is the interface to the grammar:
everything below is about pieces. -/
theorem reads_expression_iff_takes {started : Bool} {ts rest : List Token} :
    Reads (expression started ts) () rest ↔
      ∃ ps, Takes started ts ps rest ∧ EndsExpression (started || !ps.isEmpty) rest := by
  rw [reads_expression_iff]
  refine ⟨Expression.takes, ?_⟩
  rintro ⟨ps, taken, ends⟩
  exact taken.expression (.stop ends)

theorem Takes.eq_append {started : Bool} {ts rest : List Token} {ps : List Piece}
    (h : Takes started ts ps rest) : ts = ps.flatMap Piece.tokens ++ rest := by
  induction h with
  | nothing => rfl
  | token _ _ _ _ ih | group _ _ _ _ _ ih | arguments _ _ _ ih => simp [Piece.tokens, ← ih]

/-- Outside of groups the expression ends nowhere among the tokens, which `rest` is behind, and
every angle bracket has a gap in front of it. Such tokens are taken as a whole, with no generic
arguments among the pieces. -/
structure GoesOn (started : Bool) (ts rest : List Token) : Prop where
  /-- Groups are among the tokens as a whole. -/
  balanced : Balanced ts
  /-- No token outside of groups ends the expression. -/
  endless (front : List Token) (t : Token) (back : List Token) :
    ts = front ++ t :: back → Balanced front →
    ¬ EndsExpression (started || !front.isEmpty) (t :: (back ++ rest))
  /-- No angle bracket outside of groups touches the token before it. -/
  spaced (front : List Token) (t : Token) (back : List Token) :
    ts = front ++ t :: back → Balanced front → t.kind = .less → t.touches = false

/-- The same of what is behind some groups and tokens. -/
theorem GoesOn.behind {started : Bool} {front ts rest : List Token}
    (h : GoesOn started (front ++ ts) rest) (level : Balanced front) (nonempty : front ≠ [])
    (balanced : Balanced ts) : GoesOn true ts rest where
  balanced := balanced
  endless front' t back made level' := by
    have later := h.endless (front ++ front') t back (by rw [made, List.append_assoc])
      (level.append level')
    have begun : (front ++ front').isEmpty = false := by simp [nonempty]
    rw [begun] at later
    simpa using later
  spaced front' t back made level' :=
    h.spaced (front ++ front') t back (by rw [made, List.append_assoc]) (level.append level')

/-- Where nothing ends an expression, all of it is taken. -/
theorem GoesOn.takes {started : Bool} {ts rest : List Token} (h : GoesOn started ts rest) :
    ∃ ps, Takes started (ts ++ rest) ps rest := by
  have balanced := h.balanced
  induction balanced generalizing started with
  | nil => exact ⟨[], .nothing⟩
  | @plain t ts notOpening notClosing balanced ih =>
    have first : Balanced [t] := .plain notOpening notClosing .nil
    obtain ⟨ps, taken⟩ := ih (GoesOn.behind h first (by simp) balanced)
    refine ⟨.token t :: ps, .token ?_ notOpening ?_ taken⟩
    · simpa using h.endless [] t ts rfl .nil
    · rintro mid ⟨less, touches, -⟩
      simp [h.spaced [] t ts rfl .nil less] at touches
  | @group b t u inner ts opens within closes balanced _ ih =>
    have first : Balanced (t :: (inner ++ [u])) := .group opens within closes .nil
    have split : t :: (inner ++ u :: ts) = t :: (inner ++ [u]) ++ ts := by simp
    obtain ⟨ps, taken⟩ := ih (GoesOn.behind (split ▸ h) first (by simp) balanced)
    refine ⟨.group (t :: (inner ++ [u])) :: ps, ?_⟩
    rw [List.cons_append, List.append_assoc, List.cons_append]
    exact .group (by simpa using h.endless [] t _ rfl .nil) opens within closes taken

/-! ### Exactness

Whether a stretch is exact is a matter of two things that are handed on from token to token: the
brackets that are open, and whether a declaration begins where none is. Both are followed through
the pieces, and only generic arguments turn out to change them. -/

/-- The tokens hold groups as a whole, and behind the first one no token outside of groups, with a
line break in front of it, begins a declaration. This is what an initializer should take: no bracket
without its counterpart, and nothing of the member behind it. -/
structure Exact (ts : List Token) : Prop where
  /-- Groups are in it as a whole. -/
  balanced : Balanced ts
  /-- No further member begins in it. -/
  together {front back : List Token} {t : Token} :
    ts = front ++ t :: back → front ≠ [] → Balanced front → t.newlineBefore = true →
    Modifier.startsDeclaration t = false

/-- A line of the tokens begins a declaration where no bracket is open, those of `stack` being open
in front of them; the first of them counts for one only if the expression has `started` before. It
is the negation of the second half of `Exact`, in a form that can be told piece by piece. -/
def Oversteps (started : Bool) (stack : List Bracket) (ts : List Token) : Prop :=
  ∃ front t back, ts = front ++ t :: back ∧ (started = true ∨ front ≠ []) ∧
    opened stack front = some [] ∧ t.newlineBefore = true ∧ Modifier.startsDeclaration t = true

/-- Exactness in terms of the stack, which makes it decidable. -/
theorem exact_iff {ts : List Token} :
    Exact ts ↔ opened [] ts = some [] ∧ ¬ Oversteps false [] ts := by
  constructor
  · intro h
    refine ⟨Group.balanced_iff.mp h.balanced, ?_⟩
    rintro ⟨front, t, back, made, begun, level, newline, starts⟩
    have continues := h.together made (by simpa using begun) (Group.balanced_iff.mpr level) newline
    simp [starts] at continues
  · rintro ⟨balanced, none_⟩
    refine ⟨Group.balanced_iff.mpr balanced, fun made begun level newline => ?_⟩
    refine Bool.eq_false_iff.mpr fun starts => none_ ?_
    exact ⟨_, _, _, made, .inr begun, Group.balanced_iff.mp level, newline, starts⟩

section Oversteps

variable {started : Bool} {stack : List Bracket} {t : Token} {ts us : List Token}

@[simp]
theorem not_oversteps_nil : ¬ Oversteps started stack [] := by
  rintro ⟨front, t, back, made, -⟩
  simp at made

/-- Either the first token begins a declaration there, or one behind it does. -/
theorem oversteps_cons : Oversteps started stack (t :: ts) ↔
    (started = true ∧ stack = [] ∧ t.newlineBefore = true ∧ Modifier.startsDeclaration t = true) ∨
      ∃ stack', openedBy stack t = some stack' ∧ Oversteps true stack' ts := by
  constructor
  · rintro ⟨front, u, back, made, begun, level, newline, starts⟩
    cases front with
    | nil =>
      obtain ⟨rfl, rfl⟩ := List.cons.inj made
      exact .inl ⟨by simpa using begun, by simpa using level, newline, starts⟩
    | cons v front =>
      obtain ⟨rfl, rfl⟩ := List.cons.inj made
      rw [Group.opened_cons] at level
      obtain ⟨stack', step, level⟩ := Option.bind_eq_some_iff.mp level
      exact .inr ⟨stack', step, front, u, back, rfl, .inl rfl, level, newline, starts⟩
  · rintro (⟨rfl, rfl, newline, starts⟩ | ⟨stack', step, front, u, back, rfl, -, level, line⟩)
    · exact ⟨[], t, ts, rfl, .inl rfl, rfl, newline, starts⟩
    · refine ⟨t :: front, u, back, rfl, .inr (by simp), ?_, line⟩
      rw [Group.opened_cons, step]
      exact level

/-- Of two stretches, one of them oversteps: the second with the brackets that the first leaves
open. -/
theorem oversteps_append (begun : started = true ∨ ts ≠ []) :
    Oversteps started stack (ts ++ us) ↔ Oversteps started stack ts ∨
      ∃ stack', opened stack ts = some stack' ∧ Oversteps true stack' us := by
  induction ts generalizing started stack with
  | nil =>
    obtain rfl : started = true := by simpa using begun
    simp
  | cons t ts ih =>
    rw [List.cons_append, oversteps_cons, oversteps_cons, or_assoc, Group.opened_cons]
    refine or_congr_right ?_
    cases openedBy stack t with
    | none => simp
    | some stack' => simpa using ih (.inl rfl)

/-- A token that begins no declaration oversteps no more than what is behind it. -/
theorem oversteps_cons_of_not_starts (other : Modifier.startsDeclaration t = false) :
    Oversteps started stack (t :: ts) ↔
      ∃ stack', openedBy stack t = some stack' ∧ Oversteps true stack' ts := by
  simp [oversteps_cons, other]

/-- Only words, signs of attributes and number signs begin a declaration. -/
theorem startsDeclaration_eq_false (noIdent : t.kind ≠ .ident) (noAt : t.kind ≠ .atSign)
    (noPound : t.kind ≠ .pound) : Modifier.startsDeclaration t = false := by
  rw [Modifier.startsDeclaration.eq_def]
  split
  · next kind => exact absurd kind noAt
  · next kind => exact absurd kind noPound
  · simp [Token.isWordIn, noIdent]

theorem OpensArguments.not_startsDeclaration {mid : List Token} (h : OpensArguments t ts mid) :
    Modifier.startsDeclaration t = false :=
  startsDeclaration_eq_false (by simp [h.1]) (by simp [h.1]) (by simp [h.1])

/-- Where a bracket is open around balanced tokens, none of them is outside of groups. -/
theorem not_oversteps_of_balanced {b : Bracket} (balanced : Balanced ts) :
    ¬ Oversteps started (b :: stack) ts := by
  rintro ⟨front, t, back, rfl, -, level, -⟩
  have whole := balanced.opened_eq []
  rw [Group.opened_append] at whole
  obtain ⟨within, level', -⟩ := Option.bind_eq_some_iff.mp whole
  have around := Group.opened_within (b :: stack) level'
  rw [List.nil_append, level] at around
  simp at around

/-- A group does not overstep. -/
theorem not_oversteps_group {b : Bracket} {u : Token} (opens : t.kind = .opening b)
    (within : Balanced ts) (closes : u.kind = .closing b) :
    ¬ Oversteps started stack (t :: (ts ++ [u])) := by
  have first : Modifier.startsDeclaration t = false :=
    startsDeclaration_eq_false (by simp [opens]) (by simp [opens]) (by simp [opens])
  have last : Modifier.startsDeclaration u = false :=
    startsDeclaration_eq_false (by simp [closes]) (by simp [closes]) (by simp [closes])
  rw [oversteps_cons_of_not_starts first]
  rintro ⟨stack', step, oversteps⟩
  obtain rfl : b :: stack = stack' := by simpa [openedBy, opens] using step
  rcases (oversteps_append (.inl rfl)).mp oversteps with inside | ⟨stack'', -, behind⟩
  · exact not_oversteps_of_balanced within inside
  · obtain ⟨_, -, none_⟩ := (oversteps_cons_of_not_starts last).mp behind
    exact not_oversteps_nil none_

/-- Whether tokens overstep is found by going through them. -/
def decidableOversteps : (started : Bool) → (stack : List Bracket) → (ts : List Token) →
    Decidable (Oversteps started stack ts)
  | _, _, [] => .isFalse not_oversteps_nil
  | started, stack, t :: ts =>
    have : Decidable (∃ stack', openedBy stack t = some stack' ∧ Oversteps true stack' ts) :=
      match step : openedBy stack t with
      | none => .isFalse (by simp)
      | some stack' =>
        have := decidableOversteps true stack' ts
        decidable_of_iff (Oversteps true stack' ts) (by simp)
    decidable_of_iff _ oversteps_cons.symm

instance : Decidable (Oversteps started stack ts) :=
  decidableOversteps started stack ts

instance : Decidable (Exact ts) :=
  decidable_of_iff _ exact_iff.symm

end Oversteps

section Takes

variable {started : Bool} {ts rest : List Token} {ps : List Piece}

/-- Only generic arguments may leave a bracket open, or close one of what is around them. -/
theorem Takes.opened_eq (h : Takes started ts ps rest) (stack : List Bracket) :
    opened stack (ps.flatMap Piece.tokens) = opened stack (ps.flatMap Piece.angled) := by
  induction h generalizing stack with
  | nothing => rfl
  | token goesOn notOpening _ _ ih =>
    have notClosing := fun b kind => goesOn (.closing (b := b) kind)
    simp only [List.flatMap_cons, Piece.tokens, Piece.angled, List.singleton_append,
      List.nil_append, Group.opened_plain notOpening notClosing, ih]
  | group _ opens within closes _ ih =>
    have whole : Balanced _ := .group opens within closes .nil
    simp only [List.flatMap_cons, Piece.tokens, Piece.angled, List.nil_append,
      Group.opened_append, whole.opened_eq, Option.bind_some, ih]
  | arguments _ _ _ ih =>
    simp only [List.flatMap_cons, Piece.tokens, Piece.angled, Group.opened_append, ih]

/-- Only generic arguments may overstep. -/
theorem Takes.oversteps_iff (h : Takes started ts ps rest) (stack : List Bracket) :
    Oversteps started stack (ps.flatMap Piece.tokens) ↔
      Oversteps true stack (ps.flatMap Piece.angled) := by
  induction h generalizing stack with
  | nothing => simp
  | @token started t _ _ ps goesOn notOpening _ _ ih =>
    have notClosing := fun b kind => goesOn (.closing (b := b) kind)
    have stays : openedBy stack t = some stack := by
      rw [← Group.opened_nil, ← Group.opened_plain notOpening notClosing, Group.opened_cons]
      simp
    simp only [List.flatMap_cons, Piece.tokens, Piece.angled, List.singleton_append,
      List.nil_append, oversteps_cons, stays]
    rw [or_iff_right fun ⟨begun, _, newline, starts⟩ => goesOn (.declaration begun newline starts)]
    simpa using ih stack
  | @group started b t u inner _ _ ps _ opens within closes _ ih =>
    have whole : Balanced (t :: (inner ++ [u])) := .group opens within closes .nil
    simp only [List.flatMap_cons, Piece.tokens, Piece.angled, List.nil_append]
    rw [oversteps_append (.inr (by simp)), whole.opened_eq,
      or_iff_right (not_oversteps_group opens within closes)]
    simpa using ih stack
  | arguments _ opens _ ih =>
    simp only [List.flatMap_cons, Piece.tokens, Piece.angled]
    rw [oversteps_append (.inr (by simp)), oversteps_append (.inl rfl),
      oversteps_cons_of_not_starts opens.not_startsDeclaration,
      oversteps_cons_of_not_starts opens.not_startsDeclaration]
    simp only [ih]

theorem Takes.oversteps_angled_iff (h : Takes started ts ps rest) :
    Oversteps false [] (ps.flatMap Piece.angled) ↔ Oversteps true [] (ps.flatMap Piece.angled) := by
  induction h with
  | nothing => simp
  | token _ _ _ _ ih | group _ _ _ _ _ ih => simpa [Piece.angled] using ih
  | arguments _ opens _ _ =>
    simp only [List.flatMap_cons, Piece.angled, List.cons_append,
      oversteps_cons_of_not_starts opens.not_startsDeclaration]

/-- What is taken is exact if and only if the generic arguments in it are, one behind the other.
Single tokens and groups change neither the open brackets nor whether a declaration begins, so they
may be left out. -/
theorem Takes.exact_iff (h : Takes false ts ps rest) :
    Exact (ps.flatMap Piece.tokens) ↔ Exact (ps.flatMap Piece.angled) := by
  rw [Skipping.exact_iff, Skipping.exact_iff, h.opened_eq, h.oversteps_iff, h.oversteps_angled_iff]

/-- Where every angle bracket has a gap in front of it, none opens generic arguments. -/
theorem Takes.angled_eq_nil (h : Takes started ts ps rest)
    (spaced : ∀ t ∈ ps.flatMap Piece.tokens, t.kind = .less → t.touches = false) :
    ps.flatMap Piece.angled = [] := by
  induction h with
  | nothing => rfl
  | token _ _ _ _ ih | group _ _ _ _ _ ih =>
    exact ih fun t mem => spaced t (List.mem_append_right _ mem)
  | arguments _ opens _ _ =>
    have gap := spaced _ (List.mem_flatMap.mpr ⟨_, .head _, .head _⟩) opens.1
    simp [opens.2.1] at gap

/-- An initializer without an angle bracket that touches the token before it is exact. -/
theorem Takes.exact_of_spaced (h : Takes false ts ps rest)
    (spaced : ∀ t ∈ ps.flatMap Piece.tokens, t.kind = .less → t.touches = false) :
    Exact (ps.flatMap Piece.tokens) := by
  rw [h.exact_iff, h.angled_eq_nil spaced]
  decide

end Takes

/-- An initializer that is read to its end is taken in pieces, and is exact if and only if the
generic arguments in it are, one behind the other; in particular if no angle bracket in it touches
the token before it.

The first token is exempt, as the program exempts it: an expression has to begin somewhere, and `let
x =` may stand in front of a line break. -/
theorem expression_exact {ts rest : List Token} (read : Reads (expression false ts) () rest) :
    ∃ ps, Takes false ts ps rest ∧ ts = ps.flatMap Piece.tokens ++ rest ∧
      (Exact (ps.flatMap Piece.tokens) ↔ Exact (ps.flatMap Piece.angled)) ∧
      ((∀ t ∈ ps.flatMap Piece.tokens, t.kind = .less → t.touches = false) →
        Exact (ps.flatMap Piece.tokens)) := by
  obtain ⟨ps, taken, -⟩ := reads_expression_iff_takes.mp read
  exact ⟨ps, taken, taken.eq_append, taken.exact_iff, taken.exact_of_spaced⟩

/-- The theorem at an initializer with generic arguments, a call and a trailing closure; all of it
is exact. -/
theorem expression_exact_generic :
    ∃ ts rest, tokenize "map<[Int]>(xs)\n    \x7b $0 \x7d\n    var next: Int" = .ok ts ∧
      Reads (expression false ts) () rest ∧
      ∃ ps, Takes false ts ps rest ∧ Exact (ps.flatMap Piece.tokens) ∧
        Exact (ps.flatMap Piece.angled) := by
  have computed :
      ((tokenize "map<[Int]>(xs)\n    \x7b $0 \x7d\n    var next: Int").toOption.any fun ts =>
        (expression false ts).toOption.any fun s =>
          decide (ts = ts.take 12 ++ s.rest) && decide (Exact (ts.take 12))) = true := by
    decide +kernel
  obtain ⟨ts, tokens, computed⟩ := ok_of_any computed
  obtain ⟨⟨⟨⟩, rest, shorter⟩, read, computed⟩ := ok_of_any computed
  simp only [Bool.and_eq_true, decide_eq_true_eq] at computed
  obtain ⟨split, exact_⟩ := computed
  obtain ⟨ps, taken, made, same, -⟩ := expression_exact ⟨shorter, read⟩
  have consumed : ts.take 12 = ps.flatMap Piece.tokens :=
    List.append_cancel_right (split.symm.trans made)
  rw [consumed] at exact_
  exact ⟨ts, rest, tokens, ⟨shorter, read⟩, ps, taken, exact_, same.mp exact_⟩

/-- A class in which a comparison and the name of an operator, two members further on, look like
generic arguments. -/
def comparedOperators : String :=
  "@Codable class A \x7b\n" ++
    "    let less: Bool = x<y\n" ++
    "    var kept: Int\n" ++
    "    static func > (l: A, r: A) -> Bool \x7b true \x7d\n" ++
    "\x7d\n"

/-- The initializer takes the member behind it with it, and the class is modelled without that
member. The stretch that was taken is not exact: the member begins a declaration on a line of its
own. -/
theorem expression_not_exact :
    ∃ front consumed rest, tokenize comparedOperators = .ok (front ++ (consumed ++ rest)) ∧
      Reads (expression false (consumed ++ rest)) () rest ∧ ¬ Exact consumed ∧
      ∃ d m, readSource comparedOperators = .ok [d] ∧ FieldModel.extract "A" d = .ok m ∧
        m.fields.map (·.identifier) = ["less"] := by
  have computed : ((tokenize comparedOperators).toOption.any fun ts =>
      (expression false ((ts.drop 10).take 24 ++ ts.drop 34)).toOption.any fun s =>
        decide (s.rest = ts.drop 34) && decide (¬ Exact ((ts.drop 10).take 24)) &&
        (readSource comparedOperators).toOption.any fun ds => ds.head?.any fun d =>
          ds.tail.isEmpty && (FieldModel.extract "A" d).toOption.any fun m =>
            m.fields.map (·.identifier) = ["less"]) = true := by
    decide +kernel
  obtain ⟨ts, tokens, computed⟩ := ok_of_any computed
  obtain ⟨⟨⟨⟩, rest, shorter⟩, read, computed⟩ := ok_of_any computed
  simp only [Bool.and_eq_true, decide_eq_true_eq] at computed
  obtain ⟨⟨rfl, notExact⟩, computed⟩ := computed
  obtain ⟨ds, parsed, computed⟩ := ok_of_any computed
  obtain ⟨d, first, computed⟩ := (Option.any_eq_true _ _).mp computed
  simp only [Bool.and_eq_true, List.isEmpty_iff] at computed
  obtain ⟨alone, computed⟩ := computed
  obtain ⟨m, extracted, names⟩ := ok_of_any computed
  have whole : ts = ts.take 10 ++ ((ts.drop 10).take 24 ++ ts.drop 34) := by
    rw [← List.drop_drop (i := 24) (j := 10), List.take_append_drop, List.take_append_drop]
  obtain ⟨more, rfl⟩ := List.head?_eq_some_iff.mp first
  obtain rfl : more = [] := alone
  exact ⟨_, _, _, whole ▸ tokens, ⟨shorter, read⟩, notExact, d, m, parsed, extracted,
    of_decide_eq_true names⟩

end CodableSynthesis.Skipping
