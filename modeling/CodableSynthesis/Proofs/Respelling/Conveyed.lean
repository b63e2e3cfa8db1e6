import CodableSynthesis.Proofs.Grammar.Ends
import CodableSynthesis.Proofs.Respelling.Laid

/-!
How much of the tokens of a type its canonical text keeps. Reading a type leaves out the arguments
of attributes, the dots of variadic parameters and a comma behind the last element of a tuple; all
else is kept, in order.

* `Elides`: some tokens are left out between two places.
* `Conveys`: laid out tokens are those between two places, but for what is left out.
* `Conveys.append`, `Conveys.token`, `Conveys.shortened`: how this is shown, piece by piece.

Whether something is left out is told from the tokens alone, without reading them as a type
(`StartsElision`), so that a statement about annotations can name the exact cases in which its text
loses tokens. The equivalence in `Conveys` is carried along with a bound on the length: once
something is left out, there are fewer tokens, and no later piece can make the words agree again.
-/

namespace CodableSynthesis.TypeExpr

/-- At these tokens a reader of types leaves something out: a comma in front of the parenthesis that
closes a tuple, a dot that no name follows, or the arguments of an attribute. -/
inductive StartsElision : List Token → Prop
  /-- A comma behind the last element of a tuple. -/
  | comma {t u : Token} {ts : List Token} :
      t.kind = .comma → u.kind = .closing .parenthesis → StartsElision (t :: u :: ts)
  /-- One of the dots of a variadic parameter. -/
  | dot {t : Token} {ts : List Token} :
      t.kind = .dot → (∀ n ∈ ts.head?, n.kind ≠ .ident) → StartsElision (t :: ts)
  /-- An attribute whose name is followed by arguments. -/
  | arguments {t first : Token} {ts mid : List Token} {name : String} {last : Text.Span} :
      t.kind = .atSign → first.kind = .ident →
      Attribute.Path first.text first.span ts name last mid → Group.StartsArguments mid →
      StartsElision (t :: first :: ts)

/-- Something is left out between the tokens `ts` and what is left of them, `rest`. -/
def Elides (ts rest : List Token) : Prop :=
  ∃ us, us <:+ ts ∧ rest.length < us.length ∧ StartsElision us

/-- The laid out tokens `us` are those from `ts` up to `rest`, or fewer if something is left out. -/
def Conveys (us ts rest : List Token) : Prop :=
  ∃ read, ts = read ++ rest ∧ us.length ≤ read.length ∧
    (us.map Token.word = read.map Token.word ↔ ¬ Elides ts rest)

theorem not_elides_self {ts : List Token} : ¬ Elides ts ts := by
  rintro ⟨us, suffix, longer, -⟩
  exact absurd suffix.length_le (Nat.not_le_of_lt longer)

/-- Something is left out over two stretches if it is over one of them. -/
theorem elides_iff {ts mid rest : List Token} (suffix : mid <:+ ts) (suffix' : rest <:+ mid) :
    Elides ts rest ↔ Elides ts mid ∨ Elides mid rest := by
  constructor
  · rintro ⟨us, within, longer, starts⟩
    by_cases before : mid.length < us.length
    · exact .inl ⟨us, within, before, starts⟩
    · have within' : us <:+ mid :=
        List.suffix_of_suffix_length_le within suffix (Nat.le_of_not_lt before)
      exact .inr ⟨us, within', longer, starts⟩
  · rintro (⟨us, within, longer, starts⟩ | ⟨us, within, longer, starts⟩)
    · exact ⟨us, within, Nat.lt_of_le_of_lt suffix'.length_le longer, starts⟩
    · exact ⟨us, within.trans suffix, longer, starts⟩

theorem elides_cons {t : Token} {rest : List Token} :
    Elides (t :: rest) rest ↔ StartsElision (t :: rest) := by
  constructor
  · rintro ⟨us, suffix, longer, starts⟩
    obtain rfl | within := List.suffix_cons_iff.mp suffix
    · exact starts
    · exact absurd within.length_le (Nat.not_le_of_lt longer)
  · exact fun starts => ⟨_, List.suffix_refl _, Nat.lt_add_one _, starts⟩

namespace Conveys

variable {us vs ts mid rest : List Token} {t u : Token}

theorem refl : Conveys [] ts ts :=
  ⟨[], rfl, Nat.le_refl _, by simp [not_elides_self]⟩

/-- What is kept of two stretches. -/
theorem append (h : Conveys us ts mid) (later : Conveys vs mid rest) :
    Conveys (us ++ vs) ts rest := by
  obtain ⟨read, rfl, fewer, whole⟩ := h
  obtain ⟨read', rfl, fewer', whole'⟩ := later
  refine ⟨read ++ read', by simp, by simp only [List.length_append]; omega, ?_⟩
  rw [elides_iff (List.suffix_append _ _) (List.suffix_append _ _), not_or, ← whole, ← whole',
    List.map_append, List.map_append]
  constructor
  · intro same
    have total := congrArg List.length same
    simp only [List.length_append, List.length_map] at total
    exact List.append_inj same (by simp only [List.length_map]; omega)
  · rintro ⟨same, same'⟩
    rw [same, same']

/-- A token that is kept. -/
theorem token (word : u.word = t.word) (kept : ¬ StartsElision (t :: rest)) :
    Conveys [u] (t :: rest) rest :=
  ⟨[t], rfl, Nat.le_refl _, by simp [word, elides_cons, kept]⟩

theorem cons (word : u.word = t.word) (kept : ¬ StartsElision (t :: ts))
    (later : Conveys us ts rest) : Conveys (u :: us) (t :: ts) rest :=
  (token word kept).append later

/-- Tokens some of which are left out. -/
theorem shortened {read : List Token} (starts : StartsElision (read ++ rest))
    (fewer : us.length < read.length) : Conveys us (read ++ rest) rest := by
  refine ⟨read, rfl, Nat.le_of_lt fewer, ?_⟩
  have elides : Elides (read ++ rest) rest :=
    ⟨_, List.suffix_refl _, by rw [List.length_append]; omega, starts⟩
  refine ⟨fun same => ?_, fun none => absurd elides none⟩
  have total := congrArg List.length same
  rw [List.length_map, List.length_map] at total
  omega

/-- How the first token is laid out does not matter. -/
theorem lead {b : Bool} (h : Conveys us ts rest) : Conveys (lead b us) ts rest := by
  obtain ⟨read, made, fewer, whole⟩ := h
  exact ⟨read, made, by rwa [length_lead], by rwa [map_word_lead]⟩

end Conveys

/-- Where something is left out, one of three kinds of tokens stands. -/
theorem StartsElision.kind {t : Token} {ts : List Token} (h : StartsElision (t :: ts)) :
    t.kind = .comma ∨ t.kind = .dot ∨ t.kind = .atSign := by
  cases h with
  | comma kind => exact .inl kind
  | dot kind => exact .inr (.inl kind)
  | arguments kind => exact .inr (.inr kind)

theorem not_startsElision {t : Token} {ts : List Token} {k : TokenKind} (kind : t.kind = k)
    (plain : k ≠ .comma ∧ k ≠ .dot ∧ k ≠ .atSign) : ¬ StartsElision (t :: ts) := by
  intro starts
  rcases starts.kind with same | same | same
  · exact plain.1 (kind.symm.trans same)
  · exact plain.2.1 (kind.symm.trans same)
  · exact plain.2.2 (kind.symm.trans same)

end CodableSynthesis.TypeExpr
