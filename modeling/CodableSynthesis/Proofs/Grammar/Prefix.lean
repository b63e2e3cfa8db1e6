import CodableSynthesis.Declaration.Attribute
import CodableSynthesis.Declaration.Modifier
import CodableSynthesis.Proofs.Grammar.Groups

/-!
The grammar of what stands in front of a declaration: attributes, then modifiers.

* `Attribute.reads_read_iff`, `Attribute.reads_readAll_iff`: attributes are a sign, a dotted name
  and arguments that touch it.
* `Modifier.readAll_iff`: modifiers are keywords, each with a detail such as `(set)` skipped; the
  reader takes as many as there are.

Some readers here cannot fail. They give a step and not an outcome, so the statement about one of
them is that its step satisfies the grammar (`path_readPath`, `detail_skipDetail`,
`allSpelled_readAll`) together with the uniqueness of what does (`Path.unique`, `Detail.unique`,
`AllSpelled.unique`).

That nothing was left over which could have been read is part of the grammars: every empty case says
that the next tokens do not begin one more.
-/

namespace CodableSynthesis

/-- The tokens begin with a dot and a name. -/
def StartsSegment (ts : List Token) : Prop :=
  ∃ t n rest, ts = t :: n :: rest ∧ t.kind = .dot ∧ n.kind = .ident

namespace Attribute

/-- `Path name last ts name' last' rest`: the name `name`, whose last token stands at `last`, goes
on with segments from `ts` and is `name'` in the end. -/
inductive Path : String → Text.Span → List Token → String → Text.Span → List Token → Prop
  | stop {name : String} {last : Text.Span} {ts : List Token} :
      ¬ StartsSegment ts → Path name last ts name last ts
  | segment {name name' : String} {last last' : Text.Span} {t n : Token} {ts rest : List Token} :
      t.kind = .dot → n.kind = .ident →
      Path (name ++ "." ++ n.text) n.span ts name' last' rest →
      Path name last (t :: n :: ts) name' last' rest

/-- The name that the reader gives is spelled by what it reads. -/
theorem path_readPath (name : String) (last : Text.Span) (ts : List Token) :
    Path name last ts (readPath name last ts).value.1 (readPath name last ts).value.2
      (readPath name last ts).rest := by
  fun_induction readPath name last ts with
  | case1 name last => exact .stop (by rintro ⟨_, _, _, ⟨⟩, -⟩)
  | case2 name last t => exact .stop (by rintro ⟨_, _, _, ⟨⟩, -⟩)
  | case3 name last t n rest starts ih =>
    simp only [Bool.and_eq_true, decide_eq_true_eq] at starts
    exact .segment starts.1 starts.2 ih
  | case4 name last t n rest starts =>
    refine .stop ?_
    rintro ⟨_, _, _, ⟨⟩, dot, ident⟩
    exact starts (by simp [dot, ident])

/-- A dotted name can be continued in one way only: as far as it goes. -/
theorem Path.unique {name name₁ name₂ : String} {last last₁ last₂ : Text.Span}
    {ts rest₁ rest₂ : List Token} (h₁ : Path name last ts name₁ last₁ rest₁)
    (h₂ : Path name last ts name₂ last₂ rest₂) :
    name₁ = name₂ ∧ last₁ = last₂ ∧ rest₁ = rest₂ := by
  induction h₁ with
  | stop stops =>
    cases h₂ with
    | stop => exact ⟨rfl, rfl, rfl⟩
    | segment dot ident => exact absurd ⟨_, _, _, rfl, dot, ident⟩ stops
  | segment dot ident _ ih =>
    cases h₂ with
    | stop stops => exact absurd ⟨_, _, _, rfl, dot, ident⟩ stops
    | segment _ _ h₂ => exact ih h₂

/-- Unless nothing was read, the last token read is the last one of the name. -/
theorem Path.last {name name' : String} {last last' : Text.Span} {ts rest : List Token}
    (h : Path name last ts name' last' rest) :
    ts = rest ∧ last' = last ∨ ∃ front t, ts = front ++ t :: rest ∧ last' = t.span := by
  induction h with
  | stop => exact .inl ⟨rfl, rfl⟩
  | @segment _ _ _ _ t n _ _ _ _ _ ih =>
    rcases ih with ⟨rfl, rfl⟩ | ⟨front, u, rfl, rfl⟩
    · exact .inr ⟨[t], n, rfl, rfl⟩
    · exact .inr ⟨t :: n :: front, u, rfl, rfl⟩

/-- One attribute: its sign, its dotted name, and the arguments that touch the name. -/
inductive Spelled : List Token → Attribute → List Token → Prop
  | mk {sign first : Token} {ts mid rest : List Token} {name : String} {last : Text.Span}
      {closer? : Option Token} :
      sign.kind = .atSign → first.kind = .ident →
      Path first.text first.span ts name last mid → Group.Arguments mid closer? rest →
      Spelled (sign :: first :: ts)
        ⟨name, sign.span, (closer?.map (·.span)).getD last⟩ rest

/-- An attribute reaches from its sign to the last token read. -/
theorem Spelled.reach {ts rest : List Token} {a : Attribute} (h : Spelled ts a rest) :
    ∃ sign front last, ts = sign :: (front ++ last :: rest) ∧ sign.kind = .atSign ∧
      a.first = sign.span ∧ a.last = last.span := by
  obtain @⟨sign, first, ts, mid, _, name, last, closer?, kind, ident, path, arguments⟩ := h
  have named : ∃ front t, first :: ts = front ++ t :: mid ∧ last = t.span := by
    rcases path.last with ⟨rfl, rfl⟩ | ⟨front, t, rfl, rfl⟩
    · exact ⟨[], first, rfl, rfl⟩
    · exact ⟨first :: front, t, rfl, rfl⟩
  obtain ⟨front, t, made, rfl⟩ := named
  cases arguments with
  | none => exact ⟨sign, front, t, by rw [made], kind, rfl, rfl⟩
  | @some u v more _ _ _ closes =>
    obtain ⟨inner, rfl⟩ := closes.ends_last
    exact ⟨sign, front ++ t :: u :: inner, v, by rw [made]; simp, kind, rfl, rfl⟩

theorem reads_read_iff {ts rest : List Token} {a : Attribute} :
    Reads (read ts) a rest ↔ Spelled ts a rest := by
  constructor
  · intro h
    obtain ⟨sign, ts₁, shorter₁, hs, h⟩ := h.of_bind
    obtain ⟨first, ts₂, shorter₂, hf, h⟩ := h.of_bind
    obtain ⟨rfl, signKind⟩ := Token.reads_expect_iff.mp ⟨_, hs⟩
    obtain ⟨rfl, firstKind⟩ := Token.reads_expect_iff.mp ⟨_, hf⟩
    have path := path_readPath first.text first.span ts₂
    dsimp only at h
    generalize readPath first.text first.span ts₂ = step at h path
    obtain ⟨⟨name, last⟩, ts₃, shorter₃⟩ := step
    obtain ⟨closer?, ts₄, shorter₄, hc, h⟩ := h.of_bind
    obtain ⟨rfl, rfl⟩ := Reads.ok_iff.mp h
    exact .mk signKind firstKind path (Group.reads_skipArguments_iff.mp ⟨_, hc⟩)
  · rintro (@⟨sign, first, ts, mid, _, name, last, closer?, signKind, firstKind, path, arguments⟩)
    refine (Token.reads_expect_iff.mpr ⟨rfl, signKind⟩).bind fun _ => ?_
    refine (Token.reads_expect_iff.mpr ⟨rfl, firstKind⟩).bind fun _ => ?_
    have same := path.unique (path_readPath first.text first.span ts)
    dsimp only
    generalize readPath first.text first.span ts = step at same
    obtain ⟨⟨name', last'⟩, mid', shorter⟩ := step
    obtain ⟨rfl, rfl, rfl⟩ := same
    exact (Group.reads_skipArguments_iff.mpr arguments).bind fun _ => Reads.ok

/-- All attributes that stand in front. -/
inductive AllSpelled : List Token → List Attribute → List Token → Prop
  | nil {ts : List Token} : (∀ t ∈ ts.head?, t.kind ≠ .atSign) → AllSpelled ts [] ts
  | cons {ts mid rest : List Token} {a : Attribute} {as : List Attribute} :
      Spelled ts a mid → AllSpelled mid as rest → AllSpelled ts (a :: as) rest

/-- An attribute begins with its sign. -/
theorem Spelled.head {ts rest : List Token} {a : Attribute} (h : Spelled ts a rest) :
    ∃ t us, ts = t :: us ∧ t.kind = .atSign ∧ t.span = a.first := by
  obtain ⟨sign, -, -, -⟩ := h
  exact ⟨_, _, rfl, sign, rfl⟩

/-- What the reader of attributes reads is all attributes that stand in front. -/
theorem allSpelled_of_reads {ts rest : List Token} {as : List Attribute}
    (h : Reads (readAll ts) as rest) : AllSpelled ts as rest := by
  induction hn : ts.length using Nat.strongRecOn generalizing ts as with
  | ind n ih =>
    subst hn
    cases ts with
    | nil =>
      rw [readAll] at h
      obtain ⟨rfl, rfl⟩ := Reads.ok_iff.mp h
      exact .nil (by simp)
    | cons t ts =>
      rw [readAll] at h
      split at h
      · next isSign =>
        obtain ⟨a, mid, shorter, hr, h⟩ := h.of_bind
        obtain ⟨as', mid', shorter', hr', h⟩ := h.of_bind
        obtain ⟨rfl, rfl⟩ := Reads.ok_iff.mp h
        exact .cons (reads_read_iff.mp ⟨shorter, hr⟩) (ih _ shorter ⟨shorter', hr'⟩ rfl)
      · next notSign =>
        obtain ⟨rfl, rfl⟩ := Reads.ok_iff.mp h
        exact .nil (by simpa using notSign)

theorem reads_readAll_iff {ts rest : List Token} {as : List Attribute} :
    Reads (readAll ts) as rest ↔ AllSpelled ts as rest := by
  refine ⟨allSpelled_of_reads, fun h => ?_⟩
  induction h with
  | @nil ts notSign =>
    cases ts with
    | nil => rw [readAll]; exact Reads.ok
    | cons t ts =>
      rw [readAll, if_neg (notSign t rfl)]
      exact Reads.ok
  | cons spelled _ ih =>
    obtain ⟨t, us, rfl, sign, -⟩ := spelled.head
    rw [readAll, if_pos sign]
    exact (reads_read_iff.mpr spelled).bind fun _ => ih.bind fun _ => Reads.ok

end Attribute

namespace Modifier

/-- The tokens begin with a modifier in front of another token. -/
def Starts (ts : List Token) : Prop :=
  ∃ t n rest, ts = t :: n :: rest ∧ isModifier t n = true

/-- The tokens begin with a detail such as `(set)`. -/
def StartsDetail (ts : List Token) : Prop :=
  ∃ a b c rest, ts = a :: b :: c :: rest ∧ a.kind = .opening .parenthesis ∧ b.kind = .ident ∧
    c.kind = .closing .parenthesis

/-- A detail behind a modifier, if there is one. -/
inductive Detail : List Token → List Token → Prop
  | none {ts : List Token} : ¬ StartsDetail ts → Detail ts ts
  | some {a b c : Token} {rest : List Token} :
      a.kind = .opening .parenthesis → b.kind = .ident → c.kind = .closing .parenthesis →
      Detail (a :: b :: c :: rest) rest

/-- What is skipped behind a modifier is a detail, or nothing. -/
theorem detail_skipDetail (ts : List Token) : Detail ts (skipDetail ts).rest := by
  rw [skipDetail.eq_def]
  split
  · next a b c rest =>
    split
    · next isDetail =>
      simp only [Bool.and_eq_true, decide_eq_true_eq] at isDetail
      exact .some isDetail.1.1 isDetail.1.2 isDetail.2
    · next noDetail =>
      refine .none ?_
      rintro ⟨_, _, _, _, ⟨⟩, opens, ident, closes⟩
      exact noDetail (by simp [opens, ident, closes])
  · next tooShort =>
    refine .none ?_
    rintro ⟨a, b, c, rest, rfl, -⟩
    exact tooShort a b c rest rfl

theorem Detail.unique {ts rest₁ rest₂ : List Token} (h₁ : Detail ts rest₁)
    (h₂ : Detail ts rest₂) : rest₁ = rest₂ := by
  cases h₁ with
  | none absent =>
    cases h₂ with
    | none => rfl
    | some opens ident closes => exact absurd ⟨_, _, _, _, rfl, opens, ident, closes⟩ absent
  | some opens ident closes =>
    cases h₂ with
    | none absent => exact absurd ⟨_, _, _, _, rfl, opens, ident, closes⟩ absent
    | some => rfl

/-- All modifiers that stand in front. -/
inductive AllSpelled : List Token → List String → List Token → Prop
  | nil {ts : List Token} : ¬ Starts ts → AllSpelled ts [] ts
  | cons {t n : Token} {ts mid rest : List Token} {words : List String} :
      isModifier t n = true → Detail (n :: ts) mid → AllSpelled mid words rest →
      AllSpelled (t :: n :: ts) (t.text :: words) rest

/-- The modifiers that the reader gives are all that stand in front. -/
theorem allSpelled_readAll (ts : List Token) :
    AllSpelled ts (readAll ts).value (readAll ts).rest := by
  fun_induction readAll ts with
  | case1 t n rest starts _ mid _ detail words left _ read ih =>
    have detail' := detail_skipDetail (n :: rest)
    rw [detail] at detail'
    rw [read] at ih
    exact .cons starts detail' ih
  | case2 t n rest none =>
    refine .nil ?_
    rintro ⟨_, _, _, ⟨⟩, starts⟩
    exact none starts
  | case3 ts tooShort =>
    refine .nil ?_
    rintro ⟨t, n, rest, rfl, -⟩
    exact tooShort t n rest rfl

/-- Which tokens are modifiers does not depend on the reader. -/
theorem AllSpelled.unique {ts rest₁ rest₂ : List Token} {words₁ words₂ : List String}
    (h₁ : AllSpelled ts words₁ rest₁) (h₂ : AllSpelled ts words₂ rest₂) :
    words₁ = words₂ ∧ rest₁ = rest₂ := by
  induction h₁ generalizing words₂ with
  | nil none =>
    cases h₂ with
    | nil => exact ⟨rfl, rfl⟩
    | cons starts => exact absurd ⟨_, _, _, rfl, starts⟩ none
  | cons starts detail _ ih =>
    cases h₂ with
    | nil none => exact absurd ⟨_, _, _, rfl, starts⟩ none
    | cons _ detail' more =>
      obtain rfl := detail.unique detail'
      obtain ⟨rfl, rfl⟩ := ih more
      exact ⟨rfl, rfl⟩

/-- The reader of modifiers, which never fails, gives exactly what the grammar describes. -/
theorem readAll_iff {ts rest : List Token} {words : List String} :
    (readAll ts).value = words ∧ (readAll ts).rest = rest ↔ AllSpelled ts words rest := by
  constructor
  · rintro ⟨rfl, rfl⟩
    exact allSpelled_readAll ts
  · exact (allSpelled_readAll ts).unique

end Modifier

end CodableSynthesis
