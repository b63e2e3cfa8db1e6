import CodableSynthesis.Declaration.Attribute
import CodableSynthesis.Declaration.Modifier
import CodableSynthesis.Proofs.Relocation.Places

/-!
Readers agree on token lists that differ only in places. `Agree` is what that means of two outcomes:
both readers succeed, with corresponding values and rests, or both fail at corresponding tokens.

* `Agree.bind`: readers in sequence agree if each of them does.
* `Group.close_agree` and the like: the readers of groups, attributes and modifiers agree.

The relation of the values is a parameter, since some carry places and others none; for those that
carry none it is equality, and `Agree.bind_value` spares the later readers a second value. The
relation of the rests is a parameter as well. Usually the rests differ only in places. At the
beginning of a file, and behind attributes or modifiers of which none was there, the first token may
also differ in what stands before it.
-/

namespace CodableSynthesis

variable {σ : Comparison} {α β γ δ : Type} {m n k l : Nat}

/-- Two readers agree: their values are related by `V` and their rests by `L`, or their faults
correspond. -/
inductive Agree (σ : Comparison) (V : α → β → Prop) (L : List Token → List Token → Prop) :
    Reading α m → Reading β n → Prop
  | ok {s : Step Token α m} {s' : Step Token β n} :
      V s.value s'.value → L s.rest s'.rest → Agree σ V L (.ok s) (.ok s')
  | error {e e' : ReadFault} : e.Same (σ := σ) e' → Agree σ V L (.error e) (.error e')

namespace Agree

variable {V : α → β → Prop} {W : γ → δ → Prop} {L M : List Token → List Token → Prop}

/-- Readers in sequence agree if the first ones do, and the later ones on whatever those give. -/
theorem bind {r : Reading α m} {r' : Reading β n} {f : Step Token α m → Reading γ k}
    {f' : Step Token β n → Reading δ l} (h : Agree σ V L r r')
    (later : ∀ s s', V s.value s'.value → L s.rest s'.rest → Agree σ W M (f s) (f' s')) :
    Agree σ W M (r >>= f) (r' >>= f') := by
  cases h with
  | ok value rest => exact later _ _ value rest
  | error same => exact .error same

/-- The same for a reader whose value carries no places. -/
theorem bind_value {r : Reading α m} {r' : Reading α n} {f : Step Token α m → Reading γ k}
    {f' : Step Token α n → Reading δ l} (h : Agree σ Eq L r r')
    (later : ∀ x left left' lt lt', L left left' →
      Agree σ W M (f ⟨x, left, lt⟩) (f' ⟨x, left', lt'⟩)) :
    Agree σ W M (r >>= f) (r' >>= f') := by
  refine h.bind fun s s' value rest => ?_
  obtain ⟨x, left, lt⟩ := s
  obtain ⟨x', left', lt'⟩ := s'
  obtain rfl : x = x' := value
  exact later x left left' lt lt' rest

/-- Readers that pass on what other readers give under other bounds. -/
theorem wider {r : Reading α m} {r' : Reading β n} (h : Agree σ V L r r') :
    Agree σ V L (r >>= fun s => pure s.wider) (r' >>= fun s => pure s.wider) :=
  h.bind fun _ _ value rest => .ok value rest

theorem widen {r : Reading α m} {r' : Reading β n} {bound : m ≤ k} {bound' : n ≤ l}
    (h : Agree σ V L r r') :
    Agree σ V L (r >>= fun s => pure (s.widen bound)) (r' >>= fun s => pure (s.widen bound')) :=
  h.bind fun _ _ value rest => .ok value rest

end Agree

/-- The token that a reader gives is one word at corresponding places. -/
theorem Token.expect_agree {kind : TokenKind} {expected : Expectation} {ts ts' : List Token}
    (same : SameBehind σ ts ts') :
    Agree σ (Token.SameWord σ) (SameTokens σ) (expect kind expected ts)
      (expect kind expected ts') := by
  cases same with
  | nil => exact .error .endOfInput
  | @cons t t' ts ts' word later =>
    unfold expect
    dsimp only
    rw [← word.kind]
    split
    · exact .ok word later
    · exact .error (.unexpected word)

namespace Group

/-- A group is closed by corresponding tokens. -/
theorem close_agree {ts ts' : List Token} (same : SameTokens σ ts ts') (inner : Bracket)
    (outer : List Bracket) :
    Agree σ (Token.SameWord σ) (SameTokens σ) (close inner outer ts) (close inner outer ts') := by
  induction same generalizing inner outer with
  | nil => exact .error .endOfInput
  | @cons t t' ts ts' token later ih =>
    rw [close.eq_def, close.eq_def inner outer (t' :: ts')]
    dsimp only
    rw [← token.kind]
    cases t.kind with
    | opening b => exact (ih b (inner :: outer)).wider
    | closing b =>
      dsimp only
      split
      · cases outer with
        | nil => exact .ok token.toSameWord later
        | cons next outer => exact (ih next outer).wider
      · exact .error (.unexpected token.toSameWord)
    | _ => exact (ih inner outer).wider

/-- Arguments are closed by corresponding tokens, or there are none in both lists. -/
theorem skipArguments_agree {ts ts' : List Token} (same : SameTokens σ ts ts') :
    Agree σ (Option.Rel (Token.SameWord σ)) (SameTokens σ) (skipArguments ts)
      (skipArguments ts') := by
  cases same with
  | nil => exact .ok .none .nil
  | @cons t t' ts ts' token later =>
    unfold skipArguments
    dsimp only
    rw [← token.kind, ← token.touches]
    split
    · exact (close_agree later _ _).bind fun _ _ value rest => .ok (.some value) rest
    · exact .ok .none (.cons token later)

/-- Generic clauses end at corresponding tokens. -/
theorem closeAngle_agree {ts ts' : List Token} (same : SameTokens σ ts ts') (depth : Nat) :
    Agree σ Eq (SameTokens σ) (closeAngle depth ts) (closeAngle depth ts') := by
  obtain ⟨n, size⟩ : ∃ n, ts.length = n := ⟨_, rfl⟩
  induction n using Nat.strongRecOn generalizing depth ts ts' with
  | ind n ih =>
    subst size
    cases same with
    | nil =>
      unfold closeAngle
      exact .error .endOfInput
    | @cons t t' ts ts' token later =>
      rw [closeAngle.eq_def, closeAngle.eq_def depth (t' :: ts')]
      dsimp only
      rw [← token.kind]
      cases t.kind with
      | less => exact (ih _ (Nat.lt_add_one _) later (depth + 1) rfl).wider
      | greater =>
        cases depth with
        | zero => exact .ok rfl later
        | succ outer => exact (ih _ (Nat.lt_add_one _) later outer rfl).wider
      | opening b =>
        cases b with
        | parenthesis | square =>
          exact (close_agree later _ _).bind fun s _ _ rest =>
            (ih _ (Nat.lt_succ_of_lt s.shorter) rest depth rfl).widen
        | brace => exact (ih _ (Nat.lt_add_one _) later depth rfl).wider
      | _ => exact (ih _ (Nat.lt_add_one _) later depth rfl).wider

/-- Whether a token may stand in generic arguments does not depend on its place. -/
theorem isArgumentToken_eq {t t' : Token} (same : t.SameWord σ t') :
    isArgumentToken t = isArgumentToken t' := by
  rw [isArgumentToken, isArgumentToken, same.kind]

/-- Generic arguments end at corresponding tokens, or they do not end in either list. -/
theorem afterArguments_agree {ts ts' : List Token} (same : SameTokens σ ts ts') (depth : Nat) :
    Option.Rel (fun s s' => SameTokens σ s.rest s'.rest) (afterArguments? depth ts)
      (afterArguments? depth ts') := by
  have wider {m n : Nat} {s? : Option (Step Token Unit m)} {s'? : Option (Step Token Unit n)}
      (h : Option.Rel (fun s s' => SameTokens σ s.rest s'.rest) s? s'?) :
      Option.Rel (fun s s' => SameTokens σ s.rest s'.rest) (s?.map (·.wider))
        (s'?.map (·.wider)) := by
    cases h with
    | none => exact .none
    | some rest => exact .some rest
  induction same generalizing depth with
  | nil => exact .none
  | @cons t t' ts ts' token later ih =>
    rw [afterArguments?.eq_def, afterArguments?.eq_def depth (t' :: ts')]
    dsimp only
    rw [← token.kind, ← isArgumentToken_eq token.toSameWord]
    cases t.kind with
    | less => exact wider (ih (depth + 1))
    | greater =>
      cases depth with
      | zero => exact .some later
      | succ outer => exact wider (ih outer)
    | _ =>
      dsimp only
      split
      · exact wider (ih depth)
      · exact .none

end Group

/-! ### Attributes -/

namespace Attribute

/-- Two attributes have one name and stand at corresponding places. -/
def Same (σ : Comparison) (a a' : Attribute) : Prop :=
  a.mapSpans σ.left = a'.mapSpans σ.right

/-- A dotted name is the same one, and its last token stands at corresponding places. -/
theorem readPath_same {ts ts' : List Token} (same : SameTokens σ ts ts') (name : String)
    {last last' : Text.Span} (place : σ.left last = σ.right last') :
    (readPath name last ts).value.1 = (readPath name last' ts').value.1 ∧
      σ.left (readPath name last ts).value.2 = σ.right (readPath name last' ts').value.2 ∧
      SameTokens σ (readPath name last ts).rest (readPath name last' ts').rest := by
  fun_induction readPath name last ts generalizing last' ts' with
  | case1 =>
    cases same
    exact ⟨rfl, place, .nil⟩
  | case2 name last t =>
    obtain - | ⟨token, ⟨⟩⟩ := same
    exact ⟨rfl, place, .cons token .nil⟩
  | case3 name last t n rest starts ih =>
    obtain - | ⟨dot, - | ⟨ident, later⟩⟩ := same
    rw [readPath, ← dot.kind, ← ident.kind, if_pos starts, ← ident.text]
    exact ih later ident.span
  | case4 name last t n rest starts =>
    obtain - | ⟨dot, - | ⟨ident, later⟩⟩ := same
    rw [readPath, ← dot.kind, ← ident.kind, if_neg starts]
    exact ⟨rfl, place, .cons dot (.cons ident later)⟩

/-- The last token of an attribute: the one that closes its arguments, if it has any. -/
theorem last_same {closer? closer'? : Option Token} {last last' : Text.Span}
    (closers : Option.Rel (Token.SameWord σ) closer? closer'?)
    (place : σ.left last = σ.right last') :
    σ.left ((closer?.map (·.span)).getD last) = σ.right ((closer'?.map (·.span)).getD last') := by
  cases closers with
  | none => exact place
  | some same => exact same.span

/-- An attribute is the same one at corresponding places. -/
theorem read_agree {ts ts' : List Token} (same : SameBehind σ ts ts') :
    Agree σ (Same σ) (SameTokens σ) (read ts) (read ts') := by
  unfold read
  refine (Token.expect_agree same).bind fun sign sign' hsign later => ?_
  refine (Token.expect_agree later.behind).bind fun first first' hfirst later => ?_
  dsimp only
  rw [← hfirst.text]
  obtain ⟨name, place, later⟩ := readPath_same later first.value.text hfirst.span
  refine (Group.skipArguments_agree later).bind fun closer closer' closers rest => .ok ?_ rest
  simp only [Same, mapSpans, mk.injEq]
  exact ⟨name, hsign.span, last_same closers place⟩

/-- The lists left are as much alike as those given, by any relation `L` that lies between
`SameTokens` and `SameBehind`. -/
theorem readAll_agree_of {L : List Token → List Token → Prop}
    (behind : ∀ {ts ts'}, L ts ts' → SameBehind σ ts ts')
    (ofSame : ∀ {ts ts'}, SameTokens σ ts ts' → L ts ts') {ts ts' : List Token} (same : L ts ts') :
    Agree σ (List.Forall₂ (Same σ)) L (readAll ts) (readAll ts') := by
  obtain ⟨n, size⟩ : ∃ n, ts.length = n := ⟨_, rfl⟩
  induction n using Nat.strongRecOn generalizing ts ts' with
  | ind n ih =>
    subst size
    have front := behind same
    cases front with
    | nil =>
      unfold readAll
      exact .ok .nil same
    | @cons t t' ts ts' word later =>
      unfold readAll
      dsimp only
      rw [← word.kind]
      split
      · refine (read_agree (.cons word later)).bind fun a a' ha rest => ?_
        refine (ih _ a.shorter (ofSame rest) rfl).bind fun as as' has rest => ?_
        exact .ok (.cons ha has) rest
      · exact .ok .nil same

theorem readAll_agree {ts ts' : List Token} (same : SameTokens σ ts ts') :
    Agree σ (List.Forall₂ (Same σ)) (SameTokens σ) (readAll ts) (readAll ts') :=
  readAll_agree_of SameTokens.behind id same

theorem names_eq {as as' : List Attribute} (same : List.Forall₂ (Same σ) as as') :
    as.map (·.name) = as'.map (·.name) := by
  induction same with
  | nil => rfl
  | cons head _ ih =>
    simp only [Same, mapSpans, mk.injEq] at head
    rw [List.map_cons, List.map_cons, head.1, ih]

end Attribute

/-! ### Modifiers -/

namespace Modifier

theorem startsDeclaration_eq {t t' : Token} (same : t.SameWord σ t') :
    startsDeclaration t = startsDeclaration t' := by
  rw [startsDeclaration, startsDeclaration, same.kind, same.isWordIn, same.isWordIn]

/-- Whether a token is a modifier depends on two words, not on their places. -/
theorem isModifier_eq {t t' n n' : Token} (same : t.SameWord σ t') (next : n.SameWord σ n') :
    isModifier t n = isModifier t' n' := by
  rw [isModifier, isModifier, same.isWord, same.isWordIn, next.kind, next.isWordIn, next.isWordIn]

theorem skipDetail_same {ts ts' : List Token} (same : SameTokens σ ts ts') :
    SameTokens σ (skipDetail ts).rest (skipDetail ts').rest := by
  obtain - | ⟨a, - | ⟨b, - | ⟨c, later⟩⟩⟩ := same
  · exact .nil
  · exact .cons a .nil
  · exact .cons a (.cons b .nil)
  · unfold skipDetail
    dsimp only
    rw [← a.kind, ← b.kind, ← c.kind]
    split
    · exact later
    · exact .cons a (.cons b (.cons c later))

/-- The modifiers are the same, and the lists left are as much alike as those given. -/
theorem readAll_same_of {L : List Token → List Token → Prop}
    (behind : ∀ {ts ts'}, L ts ts' → SameBehind σ ts ts')
    (ofSame : ∀ {ts ts'}, SameTokens σ ts ts' → L ts ts') {ts ts' : List Token} (same : L ts ts') :
    (readAll ts).value = (readAll ts').value ∧ L (readAll ts).rest (readAll ts').rest := by
  obtain ⟨n, size⟩ : ∃ n, ts.length = n := ⟨_, rfl⟩
  induction n using Nat.strongRecOn generalizing ts ts' with
  | ind n ih =>
    subst size
    have front := behind same
    obtain - | ⟨word, - | ⟨next, later⟩⟩ := front
    · unfold readAll
      exact ⟨rfl, same⟩
    · unfold readAll
      exact ⟨rfl, same⟩
    · rw [readAll, readAll, ← isModifier_eq word next.toSameWord]
      split
      · have detail := ofSame (skipDetail_same (.cons next later))
        obtain ⟨value, rest⟩ := ih _ (skipDetail _).shorter detail rfl
        exact ⟨by simp only [word.text, value], rest⟩
      · exact ⟨rfl, same⟩

end Modifier

end CodableSynthesis
