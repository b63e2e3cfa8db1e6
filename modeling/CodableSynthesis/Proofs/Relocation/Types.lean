import CodableSynthesis.Proofs.Relocation.Agreement
import CodableSynthesis.TypeExpr.Reading

/-!
The readers of types agree on token lists that differ only in places: a type carries none, so they
give the same type.

* `TypeExpr.Reader.agrees`: every reader of types agrees.
* `TypeExpr.read_agree`: the case of a whole type.

The readers call one another, so they are named by a type `Reader`, and one statement is proved of
all of them by recursion on the tokens and the order in which they call one another. The assumption
of that recursion is `AgreeBelow`; there is one lemma for each reader under it, and each lemma goes
through its reader once, on both lists side by side.
-/

namespace CodableSynthesis.TypeExpr

variable {σ : Comparison} {ts ts' : List Token}

theorem startsOperand_eq (same : SameTokens σ ts ts') :
    startsOperand ts = startsOperand ts' := by
  cases same with
  | nil => rfl
  | cons token later => rw [startsOperand, startsOperand, token.kind]

/-- A label is the same one. -/
theorem readLabel_same (same : SameTokens σ ts ts') :
    (readLabel ts).value = (readLabel ts').value ∧
      SameTokens σ (readLabel ts).rest (readLabel ts').rest := by
  obtain - | ⟨a, - | ⟨b, - | ⟨c, later⟩⟩⟩ := same
  · exact ⟨rfl, .nil⟩
  · exact ⟨rfl, .cons a .nil⟩
  · unfold readLabel
    dsimp only
    rw [← a.kind, ← b.kind, ← a.text]
    split
    · exact ⟨rfl, .nil⟩
    · exact ⟨rfl, .cons a (.cons b .nil)⟩
  · unfold readLabel
    dsimp only
    rw [← a.kind, ← b.kind, ← c.kind, ← a.text, ← b.text]
    split
    · exact ⟨rfl, .cons c later⟩
    · split
      · exact ⟨rfl, later⟩
      · exact ⟨rfl, .cons a (.cons b (.cons c later))⟩

/-- Dots are skipped alike, since touching is compared as well. -/
theorem skipDots_same (same : SameTokens σ ts ts') :
    SameTokens σ (skipDots ts).rest (skipDots ts').rest := by
  induction same with
  | nil => exact .nil
  | cons token later ih =>
    unfold skipDots
    rw [← token.kind, ← token.touches]
    split
    · exact ih
    · exact .cons token later

/-- The readers of types. -/
inductive Reader where
  | type
  | parts
  | operand
  /-- The reader of what may follow a type. -/
  | marks (before : TypeExpr)
  | primary
  | segment
  | arguments
  | parenthesized
  | elements
  | effects

namespace Reader

/-- A reader gives the same on both lists. -/
def Agrees (σ : Comparison) (ts ts' : List Token) : Reader → Prop
  | type => Agree σ Eq (SameTokens σ) (TypeExpr.read ts) (TypeExpr.read ts')
  | parts => Agree σ Eq (SameTokens σ) (readParts ts) (readParts ts')
  | operand => Agree σ Eq (SameTokens σ) (readOperand ts) (readOperand ts')
  | marks before => Agree σ Eq (SameTokens σ) (readMarks before ts) (readMarks before ts')
  | primary => Agree σ Eq (SameTokens σ) (readPrimary ts) (readPrimary ts')
  | segment => Agree σ Eq (SameTokens σ) (readSegment ts) (readSegment ts')
  | arguments => Agree σ Eq (SameTokens σ) (readArguments ts) (readArguments ts')
  | parenthesized => Agree σ Eq (SameTokens σ) (readParenthesized ts) (readParenthesized ts')
  | elements => Agree σ Eq (SameTokens σ) (readElements ts) (readElements ts')
  | effects => Agree σ Eq (SameTokens σ) (readEffects ts) (readEffects ts')

/-- The order in which the readers call one another on the same tokens. -/
def rank : Reader → Nat
  | marks _ | effects => 1
  | segment => 2
  | primary => 3
  | operand => 4
  | type | parts => 5
  | arguments | elements => 6
  | parenthesized => 7

theorem rank_le (reader : Reader) : reader.rank ≤ 7 := by
  cases reader <;> simp [rank]

end Reader

/-- The readers agree on fewer tokens than `ts`, and on as many below the rank `r`. -/
def AgreeBelow (σ : Comparison) (ts : List Token) (r : Nat) : Prop :=
  ∀ (reader : Reader) {us us' : List Token}, SameTokens σ us us' →
    8 * us.length + reader.rank < 8 * ts.length + r → reader.Agrees σ us us'

namespace AgreeBelow

theorem shorter {r : Nat} (ih : AgreeBelow σ ts r) (reader : Reader) {us us' : List Token}
    (lt : us.length < ts.length) (same : SameTokens σ us us') : reader.Agrees σ us us' := by
  have := reader.rank_le
  exact ih reader same (by omega)

/-- The assumption, for as many tokens and a reader further down. -/
theorem lower {r : Nat} (ih : AgreeBelow σ ts r) (reader : Reader) (lt : reader.rank < r)
    (same : SameTokens σ ts ts') : reader.Agrees σ ts ts' :=
  ih reader same (Nat.add_lt_add_left lt _)

theorem type (same : SameTokens σ ts ts') (ih : AgreeBelow σ ts 5) :
    Agree σ Eq (SameTokens σ) (TypeExpr.read ts) (TypeExpr.read ts') := by
  unfold TypeExpr.read
  refine (ih.lower .operand (by decide) same).bind_value fun first left left' lt lt' rest => ?_
  cases rest with
  | nil => exact .ok rfl .nil
  | cons token later =>
    dsimp only
    rw [← token.kind]
    split
    · refine (ih.shorter .parts (Nat.lt_of_succ_lt lt) later).bind_value fun _ _ _ _ _ rest => ?_
      exact .ok rfl rest
    · exact .ok rfl (.cons token later)

theorem parts (same : SameTokens σ ts ts') (ih : AgreeBelow σ ts 5) :
    Agree σ Eq (SameTokens σ) (readParts ts) (readParts ts') := by
  unfold readParts
  refine (ih.lower .operand (by decide) same).bind_value fun first left left' lt lt' rest => ?_
  cases rest with
  | nil => exact .ok rfl .nil
  | cons token later =>
    dsimp only
    rw [← token.kind]
    split
    · refine (ih.shorter .parts (Nat.lt_of_succ_lt lt) later).bind_value fun _ _ _ _ _ rest => ?_
      exact .ok rfl rest
    · exact .ok rfl (.cons token later)

theorem operand (same : SameTokens σ ts ts') (ih : AgreeBelow σ ts 4) :
    Agree σ Eq (SameTokens σ) (readOperand ts) (readOperand ts') := by
  unfold readOperand
  refine (ih.lower .primary (by decide) same).bind_value fun before left left' lt lt' rest => ?_
  exact (ih.shorter (.marks before) lt rest).widen

theorem marks (before : TypeExpr) (same : SameTokens σ ts ts') (ih : AgreeBelow σ ts 1) :
    Agree σ Eq (SameTokens σ) (readMarks before ts) (readMarks before ts') := by
  cases same with
  | nil =>
    unfold readMarks
    exact .ok rfl .nil
  | @cons t t' ts ts' token later =>
    have stays : Agree σ Eq (SameTokens σ) (.ok (.stay before (t :: ts)))
        (.ok (.stay before (t' :: ts'))) := .ok rfl (.cons token later)
    have goesOn (after : TypeExpr) := ih.shorter (.marks after) (Nat.lt_add_one _) later
    rw [readMarks.eq_def, readMarks.eq_def before (t' :: ts')]
    dsimp only
    rw [← token.kind, ← token.touches]
    cases t.kind with
    | question =>
      cases t.touches with
      | true => exact (goesOn (.optional before)).wider
      | false => exact stays
    | bang =>
      cases t.touches with
      | true => exact (goesOn (.implicitlyUnwrapped before)).wider
      | false => exact stays
    | dot =>
      dsimp only
      cases before with
      | named path =>
        cases later with
        | nil => exact stays
        | cons name later =>
          dsimp only
          rw [← name.kind]
          split
          · refine (ih.shorter .segment (Nat.lt_add_one _) (.cons name later)).bind_value
              fun segment left left' lt lt' rest => ?_
            exact (ih.shorter (.marks _) (Nat.lt_succ_of_lt lt) rest).widen
          · exact stays
      | _ => exact stays
    | _ => exact stays

theorem primary (same : SameTokens σ ts ts') (ih : AgreeBelow σ ts 3) :
    Agree σ Eq (SameTokens σ) (readPrimary ts) (readPrimary ts') := by
  cases same with
  | nil =>
    unfold readPrimary
    exact .error .endOfInput
  | @cons t t' ts ts' token later =>
    rw [readPrimary.eq_def, readPrimary.eq_def (t' :: ts')]
    dsimp only
    rw [← token.kind]
    cases t.kind with
    | atSign =>
      refine (Attribute.read_agree (.cons token.toSameWord later)).bind fun a a' ha rest => ?_
      refine (Attribute.readAll_agree rest).bind fun as as' has rest => ?_
      have shorter : as.rest.length < (t :: ts).length :=
        Nat.lt_of_le_of_lt (Nat.le_of_lt_succ as.shorter) a.shorter
      refine (ih.shorter .operand shorter rest).bind_value fun operand _ _ _ _ rest => ?_
      refine .ok (congrArg (attributed · operand) ?_) rest
      exact Attribute.names_eq (.cons ha has)
    | ident =>
      dsimp only
      rw [← token.text, ← startsOperand_eq later]
      split
      · refine (ih.shorter .operand (Nat.lt_add_one _) later).bind_value fun _ _ _ _ _ rest => ?_
        exact .ok rfl rest
      · refine (ih.lower .segment (by decide) (.cons token later)).bind_value fun _ _ _ _ _ rest => ?_
        exact .ok rfl rest
    | opening b =>
      cases b with
      | square =>
        refine (ih.shorter .type (Nat.lt_add_one _) later).bind_value
          fun element left left' lt lt' rest => ?_
        cases rest with
        | nil => exact .error .endOfInput
        | @cons s s' more more' next later =>
          dsimp only
          rw [← next.kind]
          split
          · refine (ih.shorter .type (Nat.lt_succ_of_lt (Nat.lt_of_succ_lt lt)) later).bind_value
              fun value left left' lt lt' rest => ?_
            exact (Token.expect_agree rest.behind).bind fun _ _ _ rest => .ok rfl rest
          · exact (Token.expect_agree (.cons next.toSameWord later)).bind fun _ _ _ rest =>
              .ok rfl rest
      | parenthesis => exact (ih.shorter .parenthesized (Nat.lt_add_one _) later).wider
      | brace => exact .error (.unexpected token.toSameWord)
    | _ => exact .error (.unexpected token.toSameWord)

theorem segment (same : SameTokens σ ts ts') (ih : AgreeBelow σ ts 2) :
    Agree σ Eq (SameTokens σ) (readSegment ts) (readSegment ts') := by
  unfold readSegment
  refine (Token.expect_agree same.behind).bind fun s s' word rest => ?_
  obtain ⟨name, left, lt⟩ := s
  obtain ⟨name', left', lt'⟩ := s'
  have text : name.text = name'.text := word.text
  cases rest with
  | nil => exact .ok (congrArg (PathSegment.mk · []) text) .nil
  | cons token later =>
    dsimp only
    rw [← token.kind, ← token.touches, ← text]
    split
    · refine (ih.shorter .arguments (Nat.lt_of_succ_lt lt) later).bind_value fun _ _ _ _ _ rest => ?_
      exact .ok rfl rest
    · exact .ok rfl (.cons token later)

theorem arguments (same : SameTokens σ ts ts') (ih : AgreeBelow σ ts 6) :
    Agree σ Eq (SameTokens σ) (readArguments ts) (readArguments ts') := by
  unfold readArguments
  refine (ih.lower .type (by decide) same).bind_value fun first left left' lt lt' rest => ?_
  cases rest with
  | nil => exact .error .endOfInput
  | cons token later =>
    dsimp only
    rw [← token.kind]
    split
    · refine (ih.shorter .arguments (Nat.lt_of_succ_lt lt) later).bind_value
        fun _ _ _ _ _ rest => ?_
      exact .ok rfl rest
    · exact (Token.expect_agree (.cons token.toSameWord later)).bind fun _ _ _ rest => .ok rfl rest

theorem parenthesized (same : SameTokens σ ts ts') (ih : AgreeBelow σ ts 7) :
    Agree σ Eq (SameTokens σ) (readParenthesized ts) (readParenthesized ts') := by
  unfold readParenthesized
  refine (ih.lower .elements (by decide) same).bind_value fun es left left' lt lt' rest => ?_
  refine (ih.shorter .effects lt rest).bind_value fun fx left₂ left₂' lt₂ lt₂' rest => ?_
  cases rest with
  | nil =>
    dsimp only
    split
    · exact .ok rfl .nil
    · exact .error .endOfInput
  | cons token later =>
    dsimp only
    rw [← token.kind]
    split
    · refine (ih.shorter .type ?_ later).bind_value fun _ _ _ _ _ rest => .ok rfl rest
      simp only [List.length_cons] at lt₂
      omega
    · split
      · exact .ok rfl (.cons token later)
      · exact .error (.unexpected token.toSameWord)

theorem elements (same : SameTokens σ ts ts') (ih : AgreeBelow σ ts 6) :
    Agree σ Eq (SameTokens σ) (readElements ts) (readElements ts') := by
  cases same with
  | nil =>
    unfold readElements
    exact .error .endOfInput
  | @cons t t' ts ts' token later =>
    rw [readElements.eq_def, readElements.eq_def (t' :: ts')]
    dsimp only
    rw [← token.kind]
    split
    · exact .ok rfl later
    · obtain ⟨label, rest⟩ := readLabel_same (.cons token later)
      rw [← label]
      have labelled := (readLabel (t :: ts)).shorter
      refine (ih .type rest (by simp only [Reader.rank]; omega)).bind_value
        fun type left left' lt lt' rest => ?_
      have rest := skipDots_same rest
      generalize skipDots left = dots at rest ⊢
      generalize skipDots left' = dots' at rest ⊢
      obtain ⟨_, left₂, dots⟩ := dots
      obtain ⟨_, left₂', dots'⟩ := dots'
      dsimp only at rest
      cases rest with
      | nil => exact .error .endOfInput
      | cons next later =>
        dsimp only
        rw [← next.kind]
        split
        · refine (ih.shorter .elements ?_ later).bind_value fun _ _ _ _ _ rest => .ok rfl rest
          simp only [List.length_cons] at *
          omega
        · split
          · exact .ok rfl later
          · exact .error (.unexpected next.toSameWord)

theorem effects (same : SameTokens σ ts ts') (ih : AgreeBelow σ ts 1) :
    Agree σ Eq (SameTokens σ) (readEffects ts) (readEffects ts') := by
  cases same with
  | nil =>
    unfold readEffects
    exact .ok rfl .nil
  | @cons t t' ts ts' token later =>
    rw [readEffects.eq_def, readEffects.eq_def (t' :: ts')]
    dsimp only
    rw [← token.isWordIn, ← token.text]
    split
    · cases later with
      | nil => exact .ok rfl .nil
      | @cons s s' more more' next later =>
        dsimp only
        rw [← next.kind, ← next.touches]
        split
        · refine (ih.shorter .type (Nat.lt_succ_of_lt (Nat.lt_add_one _)) later).bind_value
            fun error left left' lt lt' rest => ?_
          refine (Token.expect_agree rest.behind).bind fun s s' _ rest => ?_
          refine (ih.shorter .effects ?_ rest).bind_value fun _ _ _ _ _ rest => .ok rfl rest
          have := s.shorter
          simp only [List.length_cons]
          omega
        · refine (ih.shorter .effects (Nat.lt_add_one _) (.cons next later)).bind_value
            fun _ _ _ _ _ rest => .ok rfl rest
    · exact .ok rfl (.cons token later)

end AgreeBelow

/-- Every reader of types agrees, by recursion on the number of tokens and the rank of the
reader. -/
theorem Reader.agrees (reader : Reader) (same : SameTokens σ ts ts') : reader.Agrees σ ts ts' := by
  obtain ⟨n, size⟩ : ∃ n, 8 * ts.length + reader.rank = n := ⟨_, rfl⟩
  induction n using Nat.strongRecOn generalizing reader ts ts' with
  | ind n ih =>
    subst size
    have below : AgreeBelow σ ts reader.rank := fun other _ _ same lt => ih _ lt other same rfl
    cases reader with
    | type => exact below.type same
    | parts => exact below.parts same
    | operand => exact below.operand same
    | marks before => exact below.marks before same
    | primary => exact below.primary same
    | segment => exact below.segment same
    | arguments => exact below.arguments same
    | parenthesized => exact below.parenthesized same
    | elements => exact below.elements same
    | effects => exact below.effects same

/-- Reading a type does not depend on places. -/
theorem read_agree (same : SameTokens σ ts ts') :
    Agree σ Eq (SameTokens σ) (TypeExpr.read ts) (TypeExpr.read ts') :=
  Reader.agrees .type same

end CodableSynthesis.TypeExpr
