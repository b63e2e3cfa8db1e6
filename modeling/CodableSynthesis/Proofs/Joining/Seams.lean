import CodableSynthesis.Proofs.Grammar.Ends
import CodableSynthesis.Proofs.Respelling.Behind
import Mathlib.Tactic.ByContra

/-!
Reading on behind a seam. Behind some tokens stand others than before; no reader that stopped in
front of them is to notice.

* `graft`: the tokens with what is put behind them.
* `Seam`: what has to hold of the tokens in front of which the readers stopped, before and after.
* `EndsInBrace`: the last of some tokens is a closing brace, as at the end of a file.
* `Signed`: every sign of an attribute has a name behind it. Where accessors are told from a getter
  an attribute counts as two tokens, so a brace directly behind a sign would be stepped over.

There are three occasions for a seam. More tokens follow the end of a file (`Seam.closed`), an
attribute is taken out (`Seam.dropped`), and generated members come in front of a closing brace
(`Seam.filled`). What the three have in common is that the next token stays the same, or that one
which begins a declaration takes its place. So whatever looks at the next token alone is settled by
`Seam.stops`; what looks further is a field of `Seam`.

The lemmas `grafted` say for one grammar after the other that it goes through the tokens in front of
a seam as before. They begin here with groups and with what stands in front of a declaration.
-/

namespace CodableSynthesis

/-! ### Ends -/

/-- The last of the tokens is a closing brace. -/
def EndsInBrace (ts : List Token) : Prop :=
  ∃ t ∈ ts.getLast?, t.kind = .closing .brace

/-- Directly behind every sign of an attribute stands a name. This holds of all tokens that a reader
of attributes has read, but not of those that were skipped. -/
def Signed (ts : List Token) : Prop :=
  ∀ sign later, sign :: later <:+ ts → sign.kind = .atSign → ∃ n ∈ later.head?, n.kind = .ident

section

variable {t : Token} {ts mid rest : List Token} (more : List Token)

theorem Signed.of_suffix (h : Signed ts) (suffix : rest <:+ ts) : Signed rest :=
  fun sign later found => h sign later (found.trans suffix)

theorem Signed.tail (h : Signed (t :: ts)) : Signed ts :=
  h.of_suffix (List.suffix_cons _ _)

theorem signed_nil : Signed [] := by
  intro sign later suffix
  cases List.suffix_nil.mp suffix

/-- Whether signs have their names is told token by token, so it can be decided. -/
theorem signed_cons : Signed (t :: ts) ↔
    (t.kind = .atSign → ∃ n ∈ ts.head?, n.kind = .ident) ∧ Signed ts := by
  constructor
  · exact fun h => ⟨h t ts (List.suffix_refl _), h.tail⟩
  · rintro ⟨first, later⟩ sign others suffix
    rcases List.suffix_cons_iff.mp suffix with same | suffix
    · cases same
      exact first
    · exact later sign others suffix

instance Signed.decidable : (ts : List Token) → Decidable (Signed ts)
  | [] => .isTrue signed_nil
  | _ :: ts =>
    have := Signed.decidable ts
    decidable_of_iff _ signed_cons.symm

namespace EndsInBrace

theorem of_suffix (h : EndsInBrace rest) (suffix : rest <:+ ts) : EndsInBrace ts := by
  obtain ⟨front, rfl⟩ := suffix
  obtain ⟨t, last, closes⟩ := h
  exact ⟨t, by rw [List.getLast?_append, Option.mem_def.mp last]; rfl, closes⟩

theorem cons (h : EndsInBrace ts) : EndsInBrace (t :: ts) :=
  h.of_suffix (List.suffix_cons _ _)

/-- An end in a brace is not lost with a first token that is none. -/
theorem tail (h : EndsInBrace (t :: ts)) (other : t.kind ≠ .closing .brace) : EndsInBrace ts := by
  obtain ⟨u, last, closes⟩ := h
  cases ts with
  | nil =>
    cases last
    exact absurd closes other
  | cons v ts => exact ⟨u, by rwa [List.getLast?_cons_cons] at last, closes⟩

theorem exists_cons (h : EndsInBrace ts) : ∃ u us, ts = u :: us := by
  obtain ⟨t, last, -⟩ := h
  cases ts with
  | nil => cases last
  | cons u us => exact ⟨u, us, rfl⟩

theorem head?_append (h : EndsInBrace ts) : (ts ++ more).head? = ts.head? := by
  obtain ⟨u, us, rfl⟩ := h.exists_cons
  rfl

end EndsInBrace

end

/-! ### Grafts

What a reader leaves is an end of what it is given. The graft of the one is then an end of the graft
of the other, and whatever stands between the two is the same. -/

/-- What stands in front of `rest` in some tokens, in front of `rest'` instead. It is used of tokens
that end with `rest` only. -/
def graft (rest rest' ts : List Token) : List Token :=
  ts.take (ts.length - rest.length) ++ rest'

section

variable {rest rest' ts mid : List Token} {t : Token}

theorem graft_append (front : List Token) : graft rest rest' (front ++ rest) = front ++ rest' := by
  simp [graft]

theorem graft_self : graft rest rest' rest = rest' := by
  simp [graft]

theorem graft_cons (h : rest <:+ ts) : graft rest rest' (t :: ts) = t :: graft rest rest' ts := by
  obtain ⟨front, rfl⟩ := h
  rw [← List.cons_append, graft_append, graft_append]
  rfl

theorem suffix_behind (h : rest <:+ ts) : rest <:+ t :: ts :=
  h.trans (List.suffix_cons _ _)

theorem cons_ne_of_suffix (h : rest <:+ ts) : t :: ts ≠ rest := by
  rintro rfl
  exact absurd h.length_le (by simp)

theorem graft_behind (front : List Token) (h : rest <:+ ts) :
    graft rest rest' (front ++ ts) = front ++ graft rest rest' ts := by
  obtain ⟨mid, rfl⟩ := h
  rw [← List.append_assoc, graft_append, graft_append, List.append_assoc]

theorem graft_suffix (inside : rest <:+ mid) (suffix : mid <:+ ts) :
    graft rest rest' mid <:+ graft rest rest' ts := by
  obtain ⟨front, rfl⟩ := suffix
  rw [graft_behind front inside]
  exact List.suffix_append _ _

/-- The next token is kept, if there is one in front of the seam. -/
theorem graft_head? (h : rest <:+ ts) (more : ts ≠ rest) :
    (graft rest rest' ts).head? = ts.head? := by
  obtain ⟨front, rfl⟩ := h
  rw [graft_append]
  cases front with
  | nil => exact absurd rfl more
  | cons t front => rfl

end

namespace Consumes

variable {look : List Token → Prop} {rest ts us : List Token} {t : Token}

theorem suffix (h : Consumes look ts us) : us <:+ ts :=
  h.leaves.suffix

theorem tail (h : Consumes look (t :: ts) us) : us <:+ ts := by
  obtain ⟨front, last, made, -⟩ := h
  cases front with
  | nil => cases made; exact List.suffix_refl _
  | cons _ front =>
    cases made
    exact (List.suffix_cons _ _).trans (List.suffix_append _ _)

theorem ne (h : Consumes look ts us) (inside : rest <:+ us) : ts ≠ rest := by
  obtain ⟨front, last, rfl, -⟩ := h
  cases front with
  | nil => exact cons_ne_of_suffix inside
  | cons t front =>
    exact cons_ne_of_suffix (inside.trans ((List.suffix_cons _ _).trans (List.suffix_append _ _)))

end Consumes

/-- A token that begins a declaration: the sign of an attribute, a modifier or a keyword. -/
def Token.Begins (t : Token) : Prop :=
  t.kind = .atSign ∨ t.isWordIn (Modifier.declarationWords ++ Modifier.keywords) = true

/-- A token behind which a type, a value or a modifier goes on, be it on the next line. Members that
are put behind one would be taken for what it asks for. -/
def Token.reachesOn (t : Token) : Bool :=
  t.kind = .dot || t.kind = .equals || t.isWordIn (TypeExpr.operandKeywords ++ Modifier.keywords)

/-- Where the tokens `ts` had an attribute or the end of a body, the token `t` in front of all of
`rest`, there `u` begins a declaration. -/
structure Renews (ts rest : List Token) (t u : Token) : Prop where
  /-- The new token begins a declaration. -/
  begins : u.Begins
  /-- The old one was the sign of an attribute or a closing brace. -/
  old : t.kind = .atSign ∨ t.kind = .closing .brace ∧ u.kind ≠ .atSign
  /-- The new one begins a line where that matters. -/
  line : t.newlineBefore = true ∨ t.kind = .closing .brace → u.newlineBefore = true
  /-- What is in front does not reach on. -/
  last : ∀ b, b :: rest <:+ ts → b.kind ≠ .dot ∧ (t.kind = .closing .brace → b.reachesOn = false)

/-- No reader that stopped in front of `rest`, behind some of the tokens `ts`, goes on with
`rest'`. -/
structure Seam (ts rest rest' : List Token) : Prop where
  /-- The next token is the same, or one that begins a declaration stands in its place. -/
  head : rest'.head? = rest.head? ∨ ∃ t ∈ rest.head?, ∃ u ∈ rest'.head?, Renews ts rest t u
  /-- No dotted name goes on that did not. -/
  segment : StartsSegment rest' → StartsSegment rest
  /-- No generic arguments end that did not: these are looked for ahead, over any number of
  tokens. -/
  arguments : ∀ {depth : Nat} {mid : List Token}, Group.ClosesArguments depth rest' mid →
    ∃ mid, Group.ClosesArguments depth rest mid

namespace Token.Begins

variable {t : Token}

theorem kind (h : t.Begins) : t.kind = .atSign ∨ t.kind = .ident := by
  rcases h with sign | word
  · exact .inl sign
  · exact .inr (Token.kind_of_isWordIn word)

theorem startsDeclaration (h : t.Begins) : Modifier.startsDeclaration t = true := by
  rcases h with sign | word
  · rw [Modifier.startsDeclaration, sign]
  · have ident := Token.kind_of_isWordIn word
    simpa [Modifier.startsDeclaration, ident, Token.isWordIn] using word

/-- The words that begin declarations are no others. -/
theorem not_word (h : t.Begins) {words : List String}
    (apart : ∀ w ∈ words, w ∉ Modifier.declarationWords ++ Modifier.keywords) :
    t.isWordIn words = false := by
  rcases h with sign | word
  · simp [Token.isWordIn, sign]
  · simp only [Token.isWordIn, Bool.and_eq_true, List.contains_iff_mem] at word
    rw [Token.isWordIn, Bool.and_eq_false_iff]
    refine .inr ?_
    by_contra mem
    rw [Bool.not_eq_false, List.contains_iff_mem] at mem
    exact apart _ mem word.2

end Token.Begins

namespace Seam

variable {all us rest rest' : List Token} {t : Token}

/-- What no token is that begins a declaration, none is behind the seam. -/
theorem stops (s : Seam all rest rest') {P : Token → Prop} (other : ∀ u, u.Begins → ¬ P u)
    (suffix : rest <:+ us) (none : ∀ t ∈ us.head?, ¬ P t) :
    ∀ t ∈ (graft rest rest' us).head?, ¬ P t := by
  by_cases same : us = rest
  · subst same
    rw [graft_self]
    rcases s.head with same | ⟨t, -, u, head, renews⟩
    · rwa [same]
    · intro v head'
      obtain rfl := Option.some_inj.mp (head.symm.trans head')
      exact other u renews.begins
  · rwa [graft_head? suffix same]

/-- No token of a kind that begins no declaration stands first where none did. -/
theorem not_kind (s : Seam all rest rest') {k : TokenKind} (other : k ≠ .atSign ∧ k ≠ .ident)
    (suffix : rest <:+ us) (none : ∀ t ∈ us.head?, t.kind ≠ k) :
    ∀ t ∈ (graft rest rest' us).head?, t.kind ≠ k :=
  s.stops (fun _ begins same => by
    rcases begins.kind with kind | kind
    · exact other.1 (same.symm.trans kind)
    · exact other.2 (same.symm.trans kind)) suffix none

/-- No attribute begins behind a seam that did not. -/
theorem not_sign (s : Seam all rest rest') (suffix : rest <:+ us)
    (none : ∀ t ∈ us.head?, t.kind ≠ .atSign) :
    ∀ t ∈ (graft rest rest' us).head?, t.kind ≠ .atSign := by
  by_cases same : us = rest
  · subst same
    rw [graft_self]
    rcases s.head with same | ⟨t, here, u, head, renews⟩
    · rwa [same]
    · rcases renews.old with sign | ⟨-, other⟩
      · exact absurd sign (none t here)
      · intro v head'
        obtain rfl := Option.some_inj.mp (head.symm.trans head')
        exact other
  · rwa [graft_head? suffix same]

/-- No dotted name goes on behind a seam that did not. -/
theorem not_segment (s : Seam all rest rest') (within : us <:+ all) (suffix : rest <:+ us)
    (none : ¬ StartsSegment us) : ¬ StartsSegment (graft rest rest' us) := by
  obtain ⟨front, rfl⟩ := suffix
  rw [graft_append]
  match front with
  | [] => exact fun starts => none (s.segment starts)
  | [b] =>
    rintro ⟨_, n, more, made, dot, ident⟩
    cases made
    rcases s.head with same | ⟨t, here, u, head, renews⟩
    · obtain ⟨others, rfl⟩ := List.head?_eq_some_iff.mp same.symm
      exact none ⟨b, n, others, rfl, dot, ident⟩
    · exact (renews.last b within).1 dot
  | a :: b :: front =>
    rintro ⟨_, n, more, made, dot, ident⟩
    cases made
    exact none ⟨_, _, _, rfl, dot, ident⟩

theorem not_arguments (s : Seam all rest rest') (suffix : rest <:+ us)
    (none : ¬ Group.StartsArguments us) : ¬ Group.StartsArguments (graft rest rest' us) := by
  rintro ⟨t, head, starts⟩
  refine s.stops (P := fun t => t.kind = .opening .parenthesis ∧ t.touches = true) ?_ suffix ?_
    t head starts
  · rintro u begins ⟨opens, -⟩
    rcases begins.kind with kind | kind <;> rw [opens] at kind <;> cases kind
  · exact fun u head starts => none ⟨u, head, starts⟩

/-- No generic arguments end behind the seam that did not. -/
theorem closesArguments (s : Seam all rest rest') {depth : Nat} {mid : List Token}
    (suffix : rest <:+ us) (h : Group.ClosesArguments depth (graft rest rest' us) mid) :
    ∃ mid, Group.ClosesArguments depth us mid := by
  obtain ⟨front, rfl⟩ := suffix
  rw [graft_append] at h
  induction front generalizing depth mid with
  | nil => exact s.arguments h
  | cons t front ih =>
    cases h with
    | last greater => exact ⟨_, .last greater⟩
    | outer greater later =>
      obtain ⟨mid, later⟩ := ih later
      exact ⟨mid, .outer greater later⟩
    | inner less later =>
      obtain ⟨mid, later⟩ := ih later
      exact ⟨mid, .inner less later⟩
    | plain isArgument later =>
      obtain ⟨mid, later⟩ := ih later
      exact ⟨mid, .plain isArgument later⟩

end Seam

/-! ### Where readers stop -/

variable {all ts mid us rest rest' : List Token} {t : Token}

theorem Token.Begins.not_startsSegment (h : t.Begins) : ¬ StartsSegment (t :: ts) := by
  rintro ⟨_, n, more, made, dot, -⟩
  cases made
  rcases h.kind with kind | kind <;> rw [dot] at kind <;> cases kind

/-- Generic arguments begin with a token of a type. -/
theorem Group.ClosesArguments.first {depth : Nat} (h : ClosesArguments depth (t :: ts) mid) :
    t.kind = .greater ∨ t.kind = .less ∨ isArgumentToken t = true := by
  cases h with
  | last greater | outer greater => exact .inl greater
  | inner less => exact .inr (.inl less)
  | plain isArgument => exact .inr (.inr isArgument)

/-- A token of a type may be left out in front of generic arguments. -/
theorem Group.ClosesArguments.behind {depth : Nat} (h : ClosesArguments depth (t :: ts) mid)
    (isArgument : isArgumentToken t = true) : ClosesArguments depth ts mid := by
  cases h with
  | last greater | outer greater =>
    rw [isArgumentToken_of_greater greater] at isArgument
    cases isArgument
  | inner less =>
    rw [isArgumentToken_of_less less] at isArgument
    cases isArgument
  | plain _ later => exact later

/-- Where further arguments are open, those outside of them end no later. -/
theorem Group.ClosesArguments.sooner {depth depth' : Nat} (h : ClosesArguments depth ts mid)
    (le : depth' ≤ depth) : ∃ mid, ClosesArguments depth' ts mid := by
  induction h generalizing depth' with
  | last greater =>
    obtain rfl := Nat.le_zero.mp le
    exact ⟨_, .last greater⟩
  | outer greater later ih =>
    cases depth' with
    | zero => exact ⟨_, .last greater⟩
    | succ depth' =>
      obtain ⟨mid, later⟩ := ih (Nat.le_of_succ_le_succ le)
      exact ⟨mid, .outer greater later⟩
  | inner less later ih =>
    obtain ⟨mid, later⟩ := ih (Nat.succ_le_succ le)
    exact ⟨mid, .inner less later⟩
  | plain isArgument later ih =>
    obtain ⟨mid, later⟩ := ih le
    exact ⟨mid, .plain isArgument later⟩

/-- No arguments go on behind the sign of an attribute or a closing brace. -/
theorem Group.not_closesArguments {depth : Nat}
    (ends : t.kind = .atSign ∨ t.kind = .closing .brace ∨ t.kind = .opening .brace) :
    ¬ ClosesArguments depth (t :: ts) mid := by
  intro closes
  rcases ends with kind | kind | kind <;>
  · have := closes.first
    rw [kind, isArgumentToken, kind] at this
    simp at this

namespace Seam

theorem refl : Seam all rest rest where
  head := .inl rfl
  segment := id
  arguments closes := ⟨_, closes⟩

/-- The seam lies further behind. -/
theorem front (s : Seam all rest rest') (suffix : rest <:+ us) (within : us <:+ all)
    (more : us ≠ rest) : Seam all us (graft rest rest' us) where
  head := .inl (graft_head? suffix more)
  segment starts := by
    by_contra none
    exact s.not_segment within suffix none starts
  arguments closes := s.closesArguments suffix closes

/-- An attribute is taken out. -/
theorem dropped {sign u : Token} (kind : sign.kind = .atSign) (begins : u.Begins)
    (line : sign.newlineBefore = true → u.newlineBefore = true)
    (last : ∀ b, b :: sign :: rest <:+ all → b.kind ≠ .dot)
    (apart : ∀ depth mid, ¬ Group.ClosesArguments depth (u :: us) mid) :
    Seam all (sign :: rest) (u :: us) where
  head := .inr ⟨sign, rfl, u, rfl, begins, .inl kind,
    fun h => line (h.resolve_right (by rw [kind]; nofun)),
    fun b found => ⟨last b found, by rw [kind]; nofun⟩⟩
  segment starts := absurd starts begins.not_startsSegment
  arguments closes := absurd closes (apart _ _)

/-- Members are put in front of a closing brace. -/
theorem filled {closer u : Token} (kind : closer.kind = .closing .brace) (begins : u.Begins)
    (noSign : u.kind ≠ .atSign) (line : u.newlineBefore = true)
    (last : ∀ b, b :: closer :: rest <:+ all → b.reachesOn = false)
    (apart : ∀ depth mid, ¬ Group.ClosesArguments depth (u :: us) mid) :
    Seam all (closer :: rest) (u :: us) where
  head := .inr ⟨closer, rfl, u, rfl, begins, .inr ⟨kind, noSign⟩, fun _ => line, fun b found =>
    ⟨fun dot => by simpa [Token.reachesOn, dot] using last b found, fun _ => last b found⟩⟩
  segment starts := absurd starts begins.not_startsSegment
  arguments closes := absurd closes (apart _ _)

/-- A closing brace stays. -/
theorem closed {closer : Token} (kind : closer.kind = .closing .brace) :
    Seam all (closer :: rest) (closer :: us) where
  head := .inl rfl
  segment := by
    rintro ⟨_, n, more, made, dot, -⟩
    cases made
    rw [kind] at dot
    cases dot
  arguments closes := absurd closes (Group.not_closesArguments (.inr (.inl kind)))

end Seam

/-! ### Groups -/

namespace Group

/-- A group is closed by the same bracket, whatever stands behind it. -/
theorem Closes.grafted {b : Bracket} {outer : List Bracket} {u : Token} (h : Closes b outer ts u us)
    (inside : rest <:+ us) : Closes b outer (graft rest rest' ts) u (graft rest rest' us) := by
  induction h with
  | last closes => rw [graft_cons inside]; exact .last closes
  | outer closes later ih =>
    rw [graft_cons (inside.trans later.suffix)]
    exact .outer closes (ih inside)
  | inner opens later ih =>
    rw [graft_cons (inside.trans later.suffix)]
    exact .inner opens (ih inside)
  | plain noOpening noClosing later ih =>
    rw [graft_cons (inside.trans later.suffix)]
    exact .plain noOpening noClosing (ih inside)

/-- Arguments are read alike in front of a seam. -/
theorem Arguments.grafted {closer? : Option Token} (h : Arguments ts closer? us)
    (s : Seam all rest rest') (inside : rest <:+ us) :
    Arguments (graft rest rest' ts) closer? (graft rest rest' us) := by
  cases h with
  | none absent => exact .none (s.not_arguments inside absent)
  | some opens touches closes =>
    rw [graft_cons (inside.trans closes.suffix)]
    exact .some opens touches (closes.grafted inside)

theorem ClosesAngle.suffix {depth : Nat} (h : ClosesAngle depth ts us) : us <:+ ts :=
  (show Consumes AtAttribute _ _ from h.consumes).suffix

theorem ClosesArguments.suffix {depth : Nat} (h : ClosesArguments depth ts us) : us <:+ ts :=
  (show Consumes AtAttribute _ _ from h.consumes).suffix

theorem Arguments.suffix {closer? : Option Token} (h : Arguments ts closer? us) : us <:+ ts :=
  (show Leaves AtAttribute _ _ from h.leaves).suffix

/-- A generic clause is closed by the same bracket. -/
theorem ClosesAngle.grafted {depth : Nat} (h : ClosesAngle depth ts us) (inside : rest <:+ us) :
    ClosesAngle depth (graft rest rest' ts) (graft rest rest' us) := by
  induction h with
  | last greater => rw [graft_cons inside]; exact .last greater
  | outer greater later ih =>
    rw [graft_cons (inside.trans later.suffix)]
    exact .outer greater (ih inside)
  | inner less later ih =>
    rw [graft_cons (inside.trans later.suffix)]
    exact .inner less (ih inside)
  | group opens noBrace closes later ih =>
    have behind := inside.trans later.suffix
    rw [graft_cons (behind.trans closes.suffix)]
    exact .group opens noBrace (closes.grafted behind) (ih inside)
  | plain noLess noGreater noOpening later ih =>
    rw [graft_cons (inside.trans later.suffix)]
    exact .plain noLess noGreater noOpening (ih inside)

theorem ClosesArguments.grafted {depth : Nat} (h : ClosesArguments depth ts us)
    (inside : rest <:+ us) :
    ClosesArguments depth (graft rest rest' ts) (graft rest rest' us) := by
  induction h with
  | last greater => rw [graft_cons inside]; exact .last greater
  | outer greater later ih =>
    rw [graft_cons (inside.trans later.suffix)]
    exact .outer greater (ih inside)
  | inner less later ih =>
    rw [graft_cons (inside.trans later.suffix)]
    exact .inner less (ih inside)
  | plain isArgument later ih =>
    rw [graft_cons (inside.trans later.suffix)]
    exact .plain isArgument (ih inside)

end Group

/-! ### What stands in front of declarations -/

namespace Attribute

theorem Path.suffix {name name' : String} {last last' : Text.Span}
    (h : Path name last ts name' last' us) : us <:+ ts :=
  (show Leaves AtAttribute _ _ from h.leaves).suffix

/-- A dotted name is read alike in front of a seam. -/
theorem Path.grafted {name name' : String} {last last' : Text.Span}
    (h : Path name last ts name' last' us) (s : Seam all rest rest') (within : ts <:+ all)
    (inside : rest <:+ us) :
    Path name last (graft rest rest' ts) name' last' (graft rest rest' us) := by
  induction h with
  | stop absent => exact .stop (s.not_segment within inside absent)
  | segment dot ident later ih =>
    have behind := inside.trans later.suffix
    rw [graft_cons (behind.trans (List.suffix_cons _ _)), graft_cons behind]
    exact .segment dot ident
      (ih ((List.suffix_cons _ _).trans ((List.suffix_cons _ _).trans within)) inside)

/-- So is an attribute. -/
theorem Spelled.grafted {a : Attribute} (h : Spelled ts a us) (s : Seam all rest rest')
    (within : ts <:+ all) (inside : rest <:+ us) :
    Spelled (graft rest rest' ts) a (graft rest rest' us) := by
  obtain ⟨sign, ident, path, arguments⟩ := h
  have behind := inside.trans arguments.suffix
  have named := behind.trans path.suffix
  rw [graft_cons (named.trans (List.suffix_cons _ _)), graft_cons named]
  exact .mk sign ident
    (path.grafted s ((List.suffix_cons _ _).trans ((List.suffix_cons _ _).trans within)) behind)
    (arguments.grafted s inside)

/-- So are all attributes: none begins behind the seam that did not. -/
theorem AllSpelled.grafted {as : List Attribute} (h : AllSpelled ts as us)
    (s : Seam all rest rest') (within : ts <:+ all) (inside : rest <:+ us) :
    AllSpelled (graft rest rest' ts) as (graft rest rest' us) := by
  induction h with
  | nil noSign => exact .nil (s.not_sign inside noSign)
  | cons spelled later ih =>
    exact .cons (spelled.grafted s within (inside.trans later.suffix))
      (ih (spelled.suffix.trans within) inside)

end Attribute

namespace Modifier

/-- A detail is read alike, if none begins behind the seam. -/
theorem Detail.grafted (h : Detail ts us) (inside : rest <:+ us)
    (absent : ts = us → ¬ StartsDetail (graft rest rest' ts)) :
    Detail (graft rest rest' ts) (graft rest rest' us) := by
  cases h with
  | none => exact .none (absent rfl)
  | some opens ident closes =>
    rw [graft_cons (suffix_behind (suffix_behind inside)), graft_cons (suffix_behind inside),
      graft_cons inside]
    exact .some opens ident closes

/-- Modifiers are read alike if what is left behind them is no modifier, nor a detail. -/
theorem AllSpelled.grafted {words : List String} (h : AllSpelled ts words us) (inside : rest <:+ us)
    (head : (graft rest rest' us).head? = us.head?) (stops : ¬ Starts (graft rest rest' us))
    (noDetail : ¬ StartsDetail us → ¬ StartsDetail (graft rest rest' us)) :
    AllSpelled (graft rest rest' ts) words (graft rest rest' us) := by
  induction h with
  | nil => exact .nil stops
  | @cons t n ts mid us words starts detail later ih =>
    have within := later.suffix.trans detail.suffix
    have behind : rest <:+ n :: ts := inside.trans within
    -- The token behind the modifier is kept.
    have kept : (graft rest rest' (n :: ts)).head? = some n := by
      by_cases same : n :: ts = rest
      · rw [← List.IsSuffix.eq_of_length_le within (same ▸ inside.length_le), head,
          List.IsSuffix.eq_of_length_le within (same ▸ inside.length_le)]
        rfl
      · exact graft_head? behind same
    obtain ⟨more, made⟩ := List.head?_eq_some_iff.mp kept
    have detail' : Detail (graft rest rest' _) _ :=
      detail.grafted (inside.trans later.suffix) (by
      rintro rfl
      rw [made]
      rintro ⟨_, b, c, others, same, opens, ident, closes⟩
      cases same
      -- Behind the modifier stands a parenthesis, and so no further modifier.
      cases later with
      | nil =>
        refine noDetail ?_ (made ▸ ⟨_, _, _, _, rfl, opens, ident, closes⟩)
        cases detail with
        | none absent => exact absent
      | cons starts => rw [kind_of_isModifier starts] at opens; cases opens)
    rw [graft_cons behind]
    rw [made] at detail' ⊢
    exact .cons starts detail' (ih inside head stops noDetail)

end Modifier

end CodableSynthesis
