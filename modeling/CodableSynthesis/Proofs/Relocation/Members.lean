import CodableSynthesis.Proofs.Grammar.Declarations
import CodableSynthesis.Proofs.Relocation.Types

/-!
The readers of members and of whole files agree on token lists that differ only in places: their
trees differ in nothing but the places they carry.

* `Member.read_agree`: the members of types, and declarations at the top of a file.
* `Declaration.readFile_same`: whole files. What stands before the first token does not matter.

The first token of a file needs care, since nothing stands before it in one text and something may
in the other. Whether a line begins there, or whether it touches what is before it, is asked of it
nowhere: a reader looks at these marks only behind a token that it has read. `SameFront` keeps track
of that over attributes and modifiers, of which there may be none.

The notion of the same outcome, `SameOutcome`, is the one in which whole sources are compared.
-/

namespace CodableSynthesis

variable {σ : Comparison} {ts ts' : List Token}

/-- Two variable declarations differ only in places. -/
def Variable.Same (σ : Comparison) (v v' : Variable) : Prop :=
  v.mapSpans σ.left = v'.mapSpans σ.right

/-- Two bindings differ only in places. -/
def Binding.Same (σ : Comparison) (b b' : Binding) : Prop :=
  b.mapSpans σ.left = b'.mapSpans σ.right

/-- Two headings differ only in places. -/
def Heading.Same (σ : Comparison) (h h' : Heading) : Prop :=
  h.mapSpans σ.left = h'.mapSpans σ.right

/-- Two type declarations differ only in places. -/
def Declaration.Same (σ : Comparison) (d d' : Declaration) : Prop :=
  d.mapSpans σ.left = d'.mapSpans σ.right

/-- Two members differ only in places. -/
def Member.Same (σ : Comparison) (m m' : Member) : Prop :=
  m.mapSpans σ.left = m'.mapSpans σ.right

/-- Lists whose elements differ only in places have the same image. -/
theorem map_eq_of_forall₂ {α : Type} {f f' : α → α} {xs ys : List α}
    (same : List.Forall₂ (fun x y => f x = f' y) xs ys) : xs.map f = ys.map f' := by
  induction same with
  | nil => rfl
  | cons head _ ih => rw [List.map_cons, List.map_cons, head, ih]

/-! ### Skipping -/

namespace Skipping

/-- A block of observers begins alike. -/
theorem startsObserver_eq (same : SameTokens σ ts ts') :
    startsObserver ts = startsObserver ts' := by
  fun_induction startsObserver ts generalizing ts' with
  | case1 t sign =>
    obtain - | ⟨token, ⟨⟩⟩ := same
    simp only [startsObserver, ← token.kind, sign, ↓reduceIte]
  | case2 t sign u rest ih =>
    obtain - | ⟨token, - | ⟨_, later⟩⟩ := same
    simp only [startsObserver, ← token.kind, sign, ↓reduceIte]
    exact ih later
  | case3 t rest noSign =>
    obtain - | ⟨token, later⟩ := same
    rw [startsObserver.eq_def]
    dsimp only
    rw [← token.kind, if_neg noSign, token.isWordIn]
  | case4 =>
    cases same
    rfl

/-- Values end at corresponding tokens. -/
theorem expression_agree (same : SameTokens σ ts ts') (started : Bool) :
    Agree σ Eq (SameTokens σ) (expression started ts) (expression started ts') := by
  obtain ⟨n, size⟩ : ∃ n, ts.length = n := ⟨_, rfl⟩
  induction n using Nat.strongRecOn generalizing started ts ts' with
  | ind n ih =>
    subst size
    cases same with
    | nil =>
      unfold expression
      exact .ok rfl .nil
    | @cons t t' ts ts' token later =>
      have stays : Agree σ Eq (SameTokens σ) (.ok (.stay () (t :: ts)))
          (.ok (.stay () (t' :: ts'))) := .ok rfl (.cons token later)
      have goesOn := (ih _ (Nat.lt_add_one _) later true rfl).wider
      rw [expression.eq_def, expression.eq_def started (t' :: ts')]
      dsimp only
      rw [← token.newlineBefore, ← Modifier.startsDeclaration_eq token.toSameWord, ← token.kind,
        ← token.touches]
      split
      · exact stays
      · cases t.kind with
        | comma | semicolon | closing => exact stays
        | opening b =>
          dsimp only
          rw [← startsObserver_eq later]
          split
          · exact stays
          · exact (Group.close_agree later b []).bind fun s _ _ rest =>
              (ih _ (Nat.lt_succ_of_lt s.shorter) rest true rfl).widen
        | less =>
          cases t.touches with
          | false => exact goesOn
          | true =>
            have arguments := Group.afterArguments_agree later 0
            dsimp only [↓reduceIte]
            generalize Group.afterArguments? 0 ts = after at arguments ⊢
            generalize Group.afterArguments? 0 ts' = after' at arguments ⊢
            cases arguments with
            | none => exact goesOn
            | @some s s' rest =>
              exact (ih _ (Nat.lt_succ_of_lt s.shorter) rest true rfl).widen
        | _ => exact goesOn

/-- So do declarations that are skipped. -/
theorem declarationRest_agree (same : SameTokens σ ts ts') (afterBlock : Bool) :
    Agree σ Eq (SameTokens σ) (declarationRest afterBlock ts) (declarationRest afterBlock ts') := by
  obtain ⟨n, size⟩ : ∃ n, ts.length = n := ⟨_, rfl⟩
  induction n using Nat.strongRecOn generalizing afterBlock ts ts' with
  | ind n ih =>
    subst size
    cases same with
    | nil =>
      unfold declarationRest
      exact .ok rfl .nil
    | @cons t t' ts ts' token later =>
      have stays : Agree σ Eq (SameTokens σ) (.ok (.stay () (t :: ts)))
          (.ok (.stay () (t' :: ts'))) := .ok rfl (.cons token later)
      rw [declarationRest.eq_def, declarationRest.eq_def afterBlock (t' :: ts')]
      dsimp only
      rw [← token.newlineBefore, ← Modifier.startsDeclaration_eq token.toSameWord, ← token.kind]
      split
      · exact stays
      · cases t.kind with
        | closing b =>
          cases b with
          | brace => exact stays
          | _ => exact .error (.unexpected token.toSameWord)
        | semicolon => exact .ok rfl later
        | opening b =>
          exact (Group.close_agree later b []).bind fun s _ _ rest =>
            (ih _ (Nat.lt_succ_of_lt s.shorter) rest (b == .brace) rfl).widen
        | _ => exact (ih _ (Nat.lt_add_one _) later false rfl).wider

/-- Members that are kept as their first word are the same but for places. -/
theorem other_agree {first first' : Token} (word : first.SameWord σ first')
    (same : SameTokens σ ts ts') :
    Agree σ (Member.Same σ) (SameTokens σ) (other first ts) (other first' ts') := by
  have kept : Member.Same σ (.other first.text first.span) (.other first'.text first'.span) := by
    simp only [Member.Same, Member.mapSpans, Member.other.injEq]
    exact ⟨word.text, word.span⟩
  rw [other.eq_def, other.eq_def first' ts']
  dsimp only
  rw [← word.kind]
  cases first.kind with
  | closing b => exact .error (.unexpected word)
  | semicolon => exact .ok kept same
  | opening b =>
    exact (Group.close_agree same b []).bind fun _ _ _ rest =>
      (declarationRest_agree rest (b == .brace)).bind fun _ _ _ rest => .ok kept rest
  | _ => exact (declarationRest_agree same false).bind fun _ _ _ rest => .ok kept rest

/-- Conditional blocks end at corresponding tokens. -/
theorem conditional_agree (same : SameTokens σ ts ts') (depth : Nat) :
    Agree σ Eq (SameTokens σ) (conditional depth ts) (conditional depth ts') := by
  induction same generalizing depth with
  | nil => exact .error .endOfInput
  | @cons t t' ts ts' token later ih =>
    cases later with
    | nil => exact .error .endOfInput
    | cons word later =>
      rw [conditional.eq_def, conditional.eq_def depth (t' :: _)]
      dsimp only
      rw [← token.kind, ← word.isWord, ← word.isWord]
      split
      · split
        · exact (ih (depth + 1)).wider
        · split
          · cases depth with
            | zero => exact .ok rfl later
            | succ outer => exact (ih outer).wider
          · exact (ih depth).wider
      · exact (ih depth).wider

/-- Directives are the same but for places. -/
theorem directive_agree (same : SameBehind σ ts ts') :
    Agree σ (Member.Same σ) (SameTokens σ) (directive ts) (directive ts') := by
  unfold directive
  refine (Token.expect_agree same).bind fun pound pound' hpound rest => ?_
  refine (Token.expect_agree rest.behind).bind fun name name' hname rest => ?_
  dsimp only
  rw [← hname.text]
  have kept : Member.Same σ (.other ("#" ++ name.value.text) pound.value.span)
      (.other ("#" ++ name.value.text) pound'.value.span) := by
    simp only [Member.Same, Member.mapSpans, Member.other.injEq, true_and]
    exact hpound.span
  split
  · exact (conditional_agree rest 0).bind fun _ _ _ rest => .ok kept rest
  · exact (Group.skipArguments_agree rest).bind fun _ _ _ rest => .ok kept rest

end Skipping

/-! ### Properties -/

namespace Pattern

/-- The readers of a pattern and of the parts of one agree, by recursion on the tokens; the reader
of parts begins with that of a pattern. -/
theorem readers_agree (n : Nat) :
    (∀ {ts ts'}, SameTokens σ ts ts' → 2 * ts.length < n →
      Agree σ Eq (SameTokens σ) (Pattern.read ts) (Pattern.read ts')) ∧
    ∀ {ts ts'}, SameTokens σ ts ts' → 2 * ts.length + 1 < n →
      Agree σ Eq (SameTokens σ) (readItems ts) (readItems ts') := by
  induction n with
  | zero => exact ⟨fun _ lt => absurd lt (Nat.not_lt_zero _), fun _ lt => absurd lt (by simp)⟩
  | succ n ih =>
    obtain ⟨pattern, items⟩ := ih
    constructor
    · intro ts ts' same lt
      cases same with
      | nil =>
        unfold Pattern.read
        exact .error .endOfInput
      | @cons t t' ts ts' token later =>
        rw [Pattern.read.eq_def, Pattern.read.eq_def (t' :: ts')]
        dsimp only
        rw [← token.kind, ← token.text]
        cases t.kind with
        | ident => exact .ok rfl later
        | opening b =>
          cases b with
          | parenthesis =>
            refine (items later ?_).bind_value fun _ _ _ _ _ rest => .ok rfl rest
            simp only [List.length_cons] at lt
            omega
          | _ => exact .error (.unexpected token.toSameWord)
        | _ => exact .error (.unexpected token.toSameWord)
    · intro ts ts' same lt
      cases same with
      | nil =>
        unfold readItems
        exact .error .endOfInput
      | @cons t t' ts ts' token later =>
        rw [readItems.eq_def, readItems.eq_def (t' :: ts')]
        dsimp only
        rw [← token.kind]
        split
        · exact .ok rfl later
        · refine (pattern (.cons token later) (Nat.lt_of_succ_lt_succ lt)).bind_value
            fun item left left' shorter shorter' rest => ?_
          cases rest with
          | nil => exact .error .endOfInput
          | cons next later =>
            dsimp only
            rw [← next.kind]
            split
            · refine (items later ?_).bind_value fun _ _ _ _ _ rest => .ok rfl rest
              simp only [List.length_cons] at lt shorter
              omega
            · split
              · exact .ok rfl later
              · exact .error (.unexpected next.toSameWord)

/-- Patterns are the same; they carry no places. -/
theorem read_agree (same : SameTokens σ ts ts') :
    Agree σ Eq (SameTokens σ) (Pattern.read ts) (Pattern.read ts') :=
  (readers_agree _).1 same (Nat.lt_add_one _)

end Pattern

namespace AccessorBlock

theorem behindModifiers_same (same : SameTokens σ ts ts') :
    SameTokens σ (behindModifiers ts) (behindModifiers ts') := by
  fun_induction behindModifiers ts generalizing ts' with
  | case1 t sign =>
    obtain - | ⟨token, ⟨⟩⟩ := same
    simp only [behindModifiers, ← token.kind, sign, ↓reduceIte]
    exact .nil
  | case2 t sign u rest ih =>
    obtain - | ⟨token, - | ⟨_, later⟩⟩ := same
    simp only [behindModifiers, ← token.kind, sign, ↓reduceIte]
    exact ih later
  | case3 t rest noSign keyword ih =>
    obtain - | @⟨_, t', _, rest', token, later⟩ := same
    rw [behindModifiers.eq_def (t' :: rest')]
    dsimp only
    rw [← token.kind, if_neg noSign, ← token.isWordIn, if_pos keyword]
    exact ih later
  | case4 t rest noSign noKeyword =>
    obtain - | @⟨_, t', _, rest', token, later⟩ := same
    rw [behindModifiers.eq_def (t' :: rest')]
    dsimp only
    rw [← token.kind, if_neg noSign, ← token.isWordIn, if_neg noKeyword]
    exact .cons token later
  | case5 =>
    cases same
    exact .nil

theorem startsAccessor_eq (same : SameTokens σ ts ts') :
    startsAccessor ts = startsAccessor ts' := by
  have behind := behindModifiers_same same
  unfold startsAccessor
  generalize behindModifiers ts = left at behind ⊢
  generalize behindModifiers ts' = left' at behind ⊢
  cases behind with
  | nil => rfl
  | cons token _ => exact token.isWordIn _

/-- The keywords of a block are the same. -/
theorem keywordsAt_eq (same : SameTokens σ ts ts') (depth : Nat) :
    keywordsAt depth ts = keywordsAt depth ts' := by
  induction same generalizing depth with
  | nil => rfl
  | @cons t t' ts ts' token later ih =>
    rw [keywordsAt.eq_def, keywordsAt.eq_def depth (t' :: ts')]
    dsimp only
    rw [← token.kind, ← token.isWordIn, ← token.text, ih, ih]
    cases depth with
    | zero => rfl
    | succ outer =>
      dsimp only
      rw [ih outer]

/-- Blocks are the same; they carry no places either. -/
theorem read_agree (same : SameTokens σ ts ts') :
    Agree σ Eq (SameTokens σ) (read? ts) (read? ts') := by
  cases same with
  | nil => exact .ok rfl .nil
  | cons token later =>
    unfold read?
    dsimp only
    rw [← token.kind, ← startsAccessor_eq later, ← keywordsAt_eq later]
    split
    · exact (Group.close_agree later _ _).bind fun _ _ _ rest => .ok rfl rest
    · exact .ok rfl (.cons token later)

end AccessorBlock

namespace Binding

theorem readType_agree (same : SameTokens σ ts ts') :
    Agree σ Eq (SameTokens σ) (readType? ts) (readType? ts') := by
  cases same with
  | nil => exact .ok rfl .nil
  | cons token later =>
    unfold readType?
    dsimp only
    rw [← token.kind]
    split
    · exact (TypeExpr.read_agree later).bind_value fun _ _ _ _ _ rest => .ok rfl rest
    · exact .ok rfl (.cons token later)

theorem skipInitializer_agree (same : SameTokens σ ts ts') :
    Agree σ Eq (SameTokens σ) (skipInitializer ts) (skipInitializer ts') := by
  cases same with
  | nil => exact .ok rfl .nil
  | cons token later =>
    unfold skipInitializer
    dsimp only
    rw [← token.kind]
    split
    · exact (Skipping.expression_agree later false).bind fun _ _ _ rest => .ok rfl rest
    · exact .ok rfl (.cons token later)

/-- Bindings are the same but for the places of their first tokens. -/
theorem read_agree (same : SameTokens σ ts ts') :
    Agree σ (Same σ) (SameTokens σ) (read ts) (read ts') := by
  cases same with
  | nil => exact .error .endOfInput
  | cons token later =>
    unfold read
    dsimp only
    refine (Pattern.read_agree (.cons token later)).bind_value fun pattern _ _ _ _ rest => ?_
    refine (readType_agree rest).bind_value fun type? _ _ _ _ rest => ?_
    refine (skipInitializer_agree rest).bind_value fun hasInitializer _ _ _ _ rest => ?_
    refine (AccessorBlock.read_agree rest).bind_value fun accessors? _ _ _ _ rest => ?_
    exact .ok (congrArg (mk pattern type? hasInitializer accessors?) token.span) rest

theorem readMore_agree (same : SameTokens σ ts ts') :
    Agree σ (List.Forall₂ (Same σ)) (SameTokens σ) (readMore ts) (readMore ts') := by
  obtain ⟨n, size⟩ : ∃ n, ts.length = n := ⟨_, rfl⟩
  induction n using Nat.strongRecOn generalizing ts ts' with
  | ind n ih =>
    subst size
    cases same with
    | nil =>
      unfold readMore
      exact .ok .nil .nil
    | cons token later =>
      unfold readMore
      dsimp only
      rw [← token.kind]
      split
      · refine (read_agree later).bind fun b b' hb rest => ?_
        refine (ih _ (Nat.lt_succ_of_lt b.shorter) rest rfl).bind fun bs bs' hbs rest => ?_
        exact .ok (.cons hb hbs) rest
      · exact .ok .nil (.cons token later)

end Binding

/-- Variable declarations are the same but for places. -/
theorem Variable.read_agree {attributes attributes' : List Attribute} {modifiers : List String}
    {specifier : Specifier} {keyword keyword' : Token}
    (front : List.Forall₂ (Attribute.Same σ) attributes attributes')
    (word : keyword.SameWord σ keyword') (same : SameTokens σ ts ts') :
    Agree σ (Same σ) (SameTokens σ) (read attributes modifiers specifier keyword ts)
      (read attributes' modifiers specifier keyword' ts') := by
  unfold read
  refine (Binding.read_agree same).bind fun b b' hb rest => ?_
  refine (Binding.readMore_agree rest).bind fun bs bs' hbs rest => .ok ?_ rest
  simp only [Same, mapSpans, mk.injEq, true_and]
  exact ⟨map_eq_of_forall₂ front, hb, map_eq_of_forall₂ hbs, word.span⟩

/-! ### Headings -/

namespace Heading

theorem readTypes_agree (same : SameTokens σ ts ts') :
    Agree σ Eq (SameTokens σ) (readTypes ts) (readTypes ts') := by
  obtain ⟨n, size⟩ : ∃ n, ts.length = n := ⟨_, rfl⟩
  induction n using Nat.strongRecOn generalizing ts ts' with
  | ind n ih =>
    subst size
    unfold readTypes
    refine (TypeExpr.read_agree same).bind_value fun type left left' lt lt' rest => ?_
    cases rest with
    | nil => exact .ok rfl .nil
    | cons token later =>
      dsimp only
      rw [← token.kind]
      split
      · refine (ih _ (Nat.lt_of_succ_lt lt) later rfl).bind_value fun _ _ _ _ _ rest => ?_
        exact .ok rfl rest
      · exact .ok rfl (.cons token later)

theorem readInherited_agree (same : SameTokens σ ts ts') :
    Agree σ Eq (SameTokens σ) (readInherited ts) (readInherited ts') := by
  cases same with
  | nil => exact .ok rfl .nil
  | cons token later =>
    unfold readInherited
    dsimp only
    rw [← token.kind]
    split
    · exact (readTypes_agree later).bind_value fun _ _ _ _ _ rest => .ok rfl rest
    · exact .ok rfl (.cons token later)

theorem skipGenericClause_agree (same : SameTokens σ ts ts') :
    Agree σ Eq (SameTokens σ) (skipGenericClause ts) (skipGenericClause ts') := by
  cases same with
  | nil => exact .ok rfl .nil
  | cons token later =>
    unfold skipGenericClause
    dsimp only
    rw [← token.kind]
    split
    · exact (Group.closeAngle_agree later 0).bind_value fun _ _ _ _ _ rest => .ok rfl rest
    · exact .ok rfl (.cons token later)

theorem skipToBrace_agree (same : SameTokens σ ts ts') :
    Agree σ Eq (SameTokens σ) (skipToBrace ts) (skipToBrace ts') := by
  obtain ⟨n, size⟩ : ∃ n, ts.length = n := ⟨_, rfl⟩
  induction n using Nat.strongRecOn generalizing ts ts' with
  | ind n ih =>
    subst size
    cases same with
    | nil =>
      unfold skipToBrace
      exact .error .endOfInput
    | @cons t t' ts ts' token later =>
      rw [skipToBrace.eq_def, skipToBrace.eq_def (t' :: ts')]
      dsimp only
      rw [← token.kind]
      cases t.kind with
      | opening b =>
        cases b with
        | brace => exact .ok rfl (.cons token later)
        | parenthesis | square =>
          exact (Group.close_agree later _ []).bind fun s _ _ rest =>
            (ih _ (Nat.lt_succ_of_lt s.shorter) rest rfl).widen
      | _ => exact (ih _ (Nat.lt_add_one _) later rfl).wider

theorem skipWhereClause_agree (same : SameTokens σ ts ts') :
    Agree σ Eq (SameTokens σ) (skipWhereClause ts) (skipWhereClause ts') := by
  cases same with
  | nil => exact .ok rfl .nil
  | cons token later =>
    unfold skipWhereClause
    dsimp only
    rw [← token.isWord]
    split
    · exact (skipToBrace_agree later).wider
    · exact .ok rfl (.cons token later)

theorem readName_agree (same : SameTokens σ ts ts') (kind : DeclarationKind) :
    Agree σ Eq (SameTokens σ) (readName kind ts) (readName kind ts') := by
  unfold readName
  split
  · exact (TypeExpr.read_agree same).bind_value fun _ _ _ _ _ rest => .ok rfl rest
  · exact (Token.expect_agree same.behind).bind fun _ _ word rest => .ok word.text rest

/-- Headings are the same but for places. -/
theorem read_agree {attributes attributes' : List Attribute} {modifiers : List String}
    {kind : DeclarationKind} {keyword keyword' : Token}
    (front : List.Forall₂ (Attribute.Same σ) attributes attributes')
    (word : keyword.SameWord σ keyword') (same : SameTokens σ ts ts') :
    Agree σ (Same σ) (SameTokens σ) (read attributes modifiers kind keyword ts)
      (read attributes' modifiers kind keyword' ts') := by
  unfold read
  refine (readName_agree same kind).bind_value fun name _ _ _ _ rest => ?_
  refine (skipGenericClause_agree rest).bind_value fun _ _ _ _ _ rest => ?_
  refine (readInherited_agree rest).bind_value fun inherited _ _ _ _ rest => ?_
  refine (skipWhereClause_agree rest).bind_value fun _ _ _ _ _ rest => .ok ?_ rest
  simp only [Same, mapSpans, mk.injEq, true_and]
  exact ⟨map_eq_of_forall₂ front, word.span⟩

end Heading

/-! ### Members and files -/

theorem DeclarationKind.ofToken_eq {t t' : Token} (word : t.SameWord σ t') :
    ofToken? t = ofToken? t' := by
  rw [ofToken?, ofToken?, word.kind, word.text]

theorem Specifier.ofToken_eq {t t' : Token} (word : t.SameWord σ t') :
    ofToken? t = ofToken? t' := by
  rw [ofToken?, ofToken?, word.isWord, word.isWord]

/-- Members and their closing brace differ only in places. -/
def SameMembers (σ : Comparison) (x x' : List Member × Token) : Prop :=
  List.Forall₂ (Member.Same σ) x.1 x'.1 ∧ x.2.SameWord σ x'.2

/-- The readers of members agree on lists of fewer than `n` tokens. -/
def MembersAgree (σ : Comparison) (n : Nat) : Prop :=
  ∀ {ts ts'}, SameTokens σ ts ts' → ts.length < n →
    Agree σ (SameMembers σ) (SameTokens σ) (Member.readAll ts) (Member.readAll ts')

/-- Type declarations are the same but for places if their members are. -/
theorem MembersAgree.declaration {attributes attributes' : List Attribute} {modifiers : List String}
    {kind : DeclarationKind} {keyword keyword' : Token} (ih : MembersAgree σ ts.length)
    (front : List.Forall₂ (Attribute.Same σ) attributes attributes')
    (word : keyword.SameWord σ keyword') (same : SameTokens σ ts ts') :
    Agree σ (Declaration.Same σ) (SameTokens σ)
      (Declaration.read attributes modifiers kind keyword ts)
      (Declaration.read attributes' modifiers kind keyword' ts') := by
  unfold Declaration.read
  refine (Heading.read_agree front word same).bind fun heading heading' hheading rest => ?_
  refine (Token.expect_agree rest.behind).bind fun opener opener' hopener rest => ?_
  have shorter : opener.rest.length < ts.length := Nat.lt_trans opener.shorter heading.shorter
  refine (ih rest shorter).bind fun members members' hmembers rest => .ok ?_ rest
  simp only [Declaration.Same, Declaration.mapSpans, Declaration.mk.injEq,
    Member.mapAllSpans_eq_map]
  exact ⟨hheading, map_eq_of_forall₂ hmembers.1, hopener.span, hmembers.2.span⟩

/-- What is left behind attributes and modifiers: lists that differ in places, and in what stands
before their first tokens only if none was read of `n`. -/
def SameFront (σ : Comparison) (n : Nat) (ts ts' : List Token) : Prop :=
  SameBehind σ ts ts' ∧ (ts.length < n → SameTokens σ ts ts')

/-- Single members are the same but for places if those in them are. The cases are those of the
reader. -/
theorem MembersAgree.member (ih : MembersAgree σ ts.length) (same : SameBehind σ ts ts') :
    Agree σ (Member.Same σ) (SameTokens σ) (Member.read ts) (Member.read ts') := by
  have start : SameFront σ ts.length ts ts' := ⟨same, fun lt => absurd lt (Nat.lt_irrefl _)⟩
  have size := same.length_eq
  cases same with
  | nil =>
    unfold Member.read
    exact .error .endOfInput
  | @cons t t' ts ts' word later =>
    rw [Member.read.eq_def, Member.read.eq_def (t' :: ts')]
    dsimp only
    rw [← word.kind]
    split
    · exact Skipping.directive_agree (.cons word later)
    · have ofSame {us us' : List Token} (h : SameTokens σ us us') :
          SameFront σ (t :: ts).length us us' := ⟨h.behind, fun _ => h⟩
      refine (Attribute.readAll_agree_of And.left ofSame start).bind
        fun attributes attributes' front rest => ?_
      obtain ⟨modifiers, rest⟩ := Modifier.readAll_same_of And.left ofSame rest
      have lt := (Modifier.readAll attributes.rest).shorter
      generalize Modifier.readAll attributes.rest = step at modifiers rest lt ⊢
      generalize Modifier.readAll attributes'.rest = step' at modifiers rest ⊢
      obtain ⟨modifiers, left, lt₁⟩ := step
      obtain ⟨modifiers', left', lt₁'⟩ := step'
      dsimp only at modifiers rest
      subst modifiers
      obtain ⟨behind, unread⟩ := rest
      cases behind with
      | nil => exact .error .endOfInput
      | @cons word word' left left' hword later =>
        dsimp only
        rw [← DeclarationKind.ofToken_eq hword, ← Specifier.ofToken_eq hword, ← hword.kind]
        cases DeclarationKind.ofToken? word with
        | some kind =>
          have below : MembersAgree σ left.length := fun same lt => ih same (by
            have := attributes.shorter
            simp only [List.length_cons] at *
            omega)
          exact (below.declaration front hword later).bind fun d d' hd rest =>
            .ok (congrArg Member.type hd) rest
        | none =>
          cases Specifier.ofToken? word with
          | some specifier =>
            exact (Variable.read_agree front hword later).bind fun v v' hv rest =>
              .ok (congrArg Member.variable hv) rest
          | none =>
            dsimp only
            have sizes := later.length_eq
            split
            · simp only [List.length_cons] at size sizes unread ⊢
              -- Attributes in front of a brace are a member, a brace alone is none.
              by_cases consumed : left.length + 1 < ts.length + 1
              · rw [dif_pos consumed, dif_pos (by omega)]
                refine .ok ?_ (unread consumed)
                simp only [Member.Same, Member.mapSpans, Member.other.injEq]
                exact ⟨hword.text, hword.span⟩
              · rw [dif_neg consumed, dif_neg (by omega)]
                exact .error (.unexpected hword)
            · exact (Skipping.other_agree hword later).widen

/-- Reading members does not depend on places. -/
theorem Member.readAll_agree (same : SameTokens σ ts ts') :
    Agree σ (SameMembers σ) (SameTokens σ) (Member.readAll ts) (Member.readAll ts') := by
  obtain ⟨n, size⟩ : ∃ n, ts.length = n := ⟨_, rfl⟩
  induction n using Nat.strongRecOn generalizing ts ts' with
  | ind n ih =>
    subst size
    have below : MembersAgree σ ts.length := fun same lt => ih _ lt same rfl
    cases same with
    | nil =>
      unfold Member.readAll
      exact .error .endOfInput
    | @cons t t' ts ts' token later =>
      have member := below.member (.cons token.toSameWord later)
      rw [Member.readAll.eq_def, Member.readAll.eq_def (t' :: ts')]
      dsimp only
      rw [← token.kind]
      cases t.kind with
      | closing b =>
        cases b with
        | brace => exact .ok ⟨.nil, token.toSameWord⟩ later
        | _ =>
          exact member.bind fun m m' hm rest => (below rest m.shorter).bind
            fun ms ms' hms rest => .ok ⟨.cons hm hms.1, hms.2⟩ rest
      | semicolon => exact (below later (Nat.lt_add_one _)).wider
      | _ =>
        exact member.bind fun m m' hm rest => (below rest m.shorter).bind
          fun ms ms' hms rest => .ok ⟨.cons hm hms.1, hms.2⟩ rest

/-- Reading a member does not depend on places, nor on what stands before its first token. -/
theorem Member.read_agree (same : SameBehind σ ts ts') :
    Agree σ (Member.Same σ) (SameTokens σ) (Member.read ts) (Member.read ts') :=
  MembersAgree.member (fun same _ => Member.readAll_agree same) same

/-- Both fail with errors related by `E`, or both succeed with values related by `V`. -/
inductive SameOutcome {ε ε' α β : Type} (E : ε → ε' → Prop) (V : α → β → Prop) :
    Except ε α → Except ε' β → Prop
  | ok {x : α} {y : β} : V x y → SameOutcome E V (.ok x) (.ok y)
  | error {e : ε} {e' : ε'} : E e e' → SameOutcome E V (.error e) (.error e')

/-- The type declarations that corresponding members are. -/
theorem Member.Same.types {m m' : Member} (same : m.Same σ m') :
    List.Forall₂ (Declaration.Same σ) m.type?.toList m'.type?.toList := by
  unfold Same at same
  cases m with
  | type d =>
    cases m' with
    | type d' =>
      simp only [mapSpans, type.injEq] at same
      exact .cons same .nil
    | _ => simp only [mapSpans, reduceCtorEq] at same
  | _ =>
    cases m' with
    | type d' => simp only [mapSpans, reduceCtorEq] at same
    | _ => exact .nil

/-- Reading a file does not depend on places, nor on what stands before its first token. -/
theorem Declaration.readFile_same (same : SameBehind σ ts ts') :
    SameOutcome (ReadFault.Same (σ := σ)) (List.Forall₂ (Declaration.Same σ)) (readFile ts)
      (readFile ts') := by
  obtain ⟨n, size⟩ : ∃ n, ts.length = n := ⟨_, rfl⟩
  induction n using Nat.strongRecOn generalizing ts ts' with
  | ind n ih =>
    subst size
    cases same with
    | nil =>
      unfold readFile
      exact .ok .nil
    | @cons t t' ts ts' word later =>
      by_cases semicolon : t.kind = .semicolon
      · rw [readFile, readFile, if_pos semicolon, if_pos (word.kind ▸ semicolon)]
        exact ih _ (Nat.lt_add_one _) later.behind rfl
      · rw [readFile_cons semicolon, readFile_cons (word.kind ▸ semicolon)]
        have member := Member.read_agree (.cons word later)
        generalize Member.read (t :: ts) = r at member ⊢
        generalize Member.read (t' :: ts') = r' at member ⊢
        cases member with
        | error fault => exact .error fault
        | @ok s s' same rest =>
          have types := same.types
          have later := ih _ s.shorter rest.behind rfl
          simp only [bind, Except.bind]
          generalize readFile s.rest = r at later ⊢
          generalize readFile s'.rest = r' at later ⊢
          cases later with
          | error fault => exact .error fault
          | ok others => exact .ok (List.rel_append types others)

end CodableSynthesis
