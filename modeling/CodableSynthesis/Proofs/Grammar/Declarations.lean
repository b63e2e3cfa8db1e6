import CodableSynthesis.Declaration.Reading
import CodableSynthesis.Proofs.Grammar.Prefix
import CodableSynthesis.Proofs.Grammar.Properties

/-!
The grammar of type declarations and their members, up to whole files.

* `Heading.reads_read_iff`: a heading is a name, a generic clause, an inheritance clause and
  requirements, each but the first perhaps absent.
* `Members.reads_readAll_iff`: members up to their closing brace, with those of nested types.
* `MemberSpelled.reads`: one member.
* `FileSpelled.readFile_iff`: the type declarations of a file.

Members are of two sorts. A *leaf* (`LeafSpelled`) contains no further members: a directive, a
variable declaration, or anything that is kept as its first word. A type declaration is an opening
(`OpeningSpelled`), its heading up to the brace, and then members again. So the recursion of the
grammar is in `Members` alone, and an induction on it meets a leaf, a nested type, a semicolon and
the closing brace.

Everything that is said about sources that are read goes through here in the end: a source is
read if and only if its tokens are spelled like this.
-/

namespace CodableSynthesis

namespace Heading

/-- Types with commas between them. -/
inductive TypesSpelled : List Token → List TypeExpr → List Token → Prop
  | last {t : TypeExpr} {ts rest : List Token} :
      TypeExpr.Spells (.type t) ts rest → (∀ u ∈ rest.head?, u.kind ≠ .comma) →
      TypesSpelled ts [t] rest
  | cons {t : TypeExpr} {others : List TypeExpr} {u : Token} {ts more rest : List Token} :
      TypeExpr.Spells (.type t) ts (u :: more) → u.kind = .comma → TypesSpelled more others rest →
      TypesSpelled ts (t :: others) rest

/-- What is read behind a colon is types with commas between them. -/
theorem typesSpelled_of_reads {ts rest : List Token} {types : List TypeExpr}
    (h : Reads (readTypes ts) types rest) : TypesSpelled ts types rest := by
  induction hn : ts.length using Nat.strongRecOn generalizing ts types with
  | ind n ih =>
    subst hn
    rw [readTypes] at h
    obtain ⟨t, mid, lt, type, h⟩ := h.of_bind
    have type := TypeExpr.reads_read_iff.mp ⟨lt, type⟩
    cases mid with
    | nil =>
      obtain ⟨rfl, rfl⟩ := Reads.ok_iff.mp h
      exact .last type (by simp)
    | cons u more =>
      dsimp only at h
      split at h
      · next comma =>
        obtain ⟨others, mid', lt', types, h⟩ := h.of_bind
        obtain ⟨rfl, rfl⟩ := Reads.ok_iff.mp h
        exact .cons type comma (ih _ (Nat.lt_of_succ_lt lt) ⟨lt', types⟩ rfl)
      · next noComma =>
        obtain ⟨rfl, rfl⟩ := Reads.ok_iff.mp h
        exact .last type (by rintro _ ⟨⟩; exact noComma)

/-- Types with commas between them are read to the last. -/
theorem TypesSpelled.reads {ts rest : List Token} {types : List TypeExpr}
    (h : TypesSpelled ts types rest) : Reads (readTypes ts) types rest := by
  induction h with
  | @last t ts rest type ends =>
    rw [readTypes]
    refine (TypeExpr.reads_read_iff.mpr type).bind fun _ => ?_
    cases rest with
    | nil => exact Reads.ok
    | cons u more =>
      dsimp only
      rw [if_neg (ends u rfl)]
      exact Reads.ok
  | cons type comma _ ih =>
    rw [readTypes]
    refine (TypeExpr.reads_read_iff.mpr type).bind fun _ => ?_
    dsimp only
    rw [if_pos comma]
    exact ih.bind fun _ => Reads.ok

/-- The types behind a colon, if there are any. -/
inductive InheritedSpelled : List Token → List TypeExpr → List Token → Prop
  | none {ts : List Token} : (∀ t ∈ ts.head?, t.kind ≠ .colon) → InheritedSpelled ts [] ts
  | some {types : List TypeExpr} {t : Token} {ts rest : List Token} :
      t.kind = .colon → TypesSpelled ts types rest → InheritedSpelled (t :: ts) types rest

/-- An inheritance clause is read behind a colon, and nothing without one. -/
theorem reads_readInherited_iff {ts rest : List Token} {types : List TypeExpr} :
    Reads (readInherited ts) types rest ↔ InheritedSpelled ts types rest := by
  cases ts with
  | nil =>
    rw [readInherited, Reads.ok_iff]
    constructor
    · rintro ⟨rfl, rfl⟩
      exact .none (by simp)
    · rintro ⟨⟩
      exact ⟨rfl, rfl⟩
  | cons t ts =>
    rw [readInherited]
    by_cases colon : t.kind = .colon
    · rw [if_pos colon]
      constructor
      · intro h
        obtain ⟨types', mid, lt, spelled, h⟩ := h.of_bind
        obtain ⟨rfl, rfl⟩ := Reads.ok_iff.mp h
        exact .some colon (typesSpelled_of_reads ⟨lt, spelled⟩)
      · rintro (absent | ⟨-, spelled⟩)
        · exact absurd colon (absent t rfl)
        · exact spelled.reads.bind fun _ => Reads.ok
    · rw [if_neg colon, Reads.ok_iff]
      constructor
      · rintro ⟨rfl, rfl⟩
        exact .none (by rintro _ ⟨⟩; exact colon)
      · rintro (- | ⟨kind, -⟩)
        · exact ⟨rfl, rfl⟩
        · exact absurd kind colon

/-- A generic clause in angle brackets, if there is one. -/
inductive Generics : List Token → List Token → Prop
  | none {ts : List Token} : (∀ t ∈ ts.head?, t.kind ≠ .less) → Generics ts ts
  | some {t : Token} {ts rest : List Token} :
      t.kind = .less → Group.ClosesAngle 0 ts rest → Generics (t :: ts) rest

/-- A generic clause is skipped up to the angle bracket that closes it. -/
theorem reads_skipGenericClause_iff {ts rest : List Token} :
    Reads (skipGenericClause ts) () rest ↔ Generics ts rest := by
  cases ts with
  | nil =>
    rw [skipGenericClause, Reads.ok_iff]
    constructor
    · rintro ⟨-, rfl⟩
      exact .none (by simp)
    · rintro ⟨⟩
      exact ⟨rfl, rfl⟩
  | cons t ts =>
    rw [skipGenericClause]
    by_cases less : t.kind = .less
    · rw [if_pos less]
      constructor
      · intro h
        obtain ⟨_, mid, lt, closes, h⟩ := h.of_bind
        obtain ⟨-, rfl⟩ := Reads.ok_iff.mp h
        exact .some less (Group.reads_closeAngle_iff.mp ⟨lt, closes⟩)
      · rintro (absent | ⟨-, closes⟩)
        · exact absurd less (absent t rfl)
        · exact (Group.reads_closeAngle_iff.mpr closes).bind fun _ => Reads.ok
    · rw [if_neg less, Reads.ok_iff]
      constructor
      · rintro ⟨-, rfl⟩
        exact .none (by rintro _ ⟨⟩; exact less)
      · rintro (- | ⟨kind, -⟩)
        · exact ⟨rfl, rfl⟩
        · exact absurd kind less

/-- Requirements up to an opening brace, which is left. -/
inductive ToBrace : List Token → List Token → Prop
  | stop {t : Token} {ts : List Token} : t.kind = .opening .brace → ToBrace (t :: ts) (t :: ts)
  | group {b : Bracket} {t u : Token} {ts mid rest : List Token} :
      t.kind = .opening b → b ≠ .brace → Group.Closes b [] ts u mid → ToBrace mid rest →
      ToBrace (t :: ts) rest
  | plain {t : Token} {ts rest : List Token} :
      (∀ b, t.kind ≠ .opening b) → ToBrace ts rest → ToBrace (t :: ts) rest

/-- What is skipped of requirements ends at a brace that is not inside a group. -/
theorem toBrace_of_reads {ts rest : List Token} {x : Unit} (h : Reads (skipToBrace ts) x rest) :
    ToBrace ts rest := by
  induction hn : ts.length using Nat.strongRecOn generalizing ts with
  | ind n ih =>
    subst hn
    cases ts with
    | nil => rw [skipToBrace] at h; exact absurd h Reads.not_error
    | cons t ts =>
      rw [skipToBrace.eq_def] at h
      dsimp only at h
      split at h
      · next opens =>
        obtain ⟨-, rfl⟩ := Reads.ok_iff.mp h
        exact .stop opens
      · next b notBrace opens =>
        obtain ⟨u, mid, lt, closes, h⟩ := h.of_bind
        exact .group opens (by rintro rfl; exact notBrace rfl)
          (Group.reads_close_iff.mp ⟨lt, closes⟩)
          (ih mid.length (Nat.lt_succ_of_lt lt) h.of_widen rfl)
      · next noBrace noOpening =>
        exact .plain noOpening (ih _ (Nat.lt_add_one _) h.of_wider rfl)

theorem ToBrace.reads {ts rest : List Token} (h : ToBrace ts rest) :
    Reads (skipToBrace ts) () rest := by
  induction h with
  | stop opens =>
    rw [skipToBrace.eq_def]
    simp only [opens]
    exact Reads.ok
  | @group b t u ts mid rest opens notBrace closes _ ih =>
    rw [skipToBrace.eq_def]
    cases b with
    | brace => exact absurd rfl notBrace
    | parenthesis | square =>
      simp only [opens]
      exact (Group.reads_close_iff.mpr closes).bind fun _ => ih.widen
  | plain noOpening _ ih =>
    rw [skipToBrace.eq_def]
    dsimp only
    split
    · next kind => exact absurd kind (noOpening _)
    · next kind => exact absurd kind (noOpening _)
    · exact ih.wider

/-- A clause of requirements, if there is one. -/
inductive Requirements : List Token → List Token → Prop
  | none {ts : List Token} : (∀ t ∈ ts.head?, t.isWord "where" = false) → Requirements ts ts
  | some {t : Token} {ts rest : List Token} :
      t.isWord "where" = true → ToBrace ts rest → Requirements (t :: ts) rest

/-- Requirements are skipped behind their word, and nothing without it. -/
theorem reads_skipWhereClause_iff {ts rest : List Token} :
    Reads (skipWhereClause ts) () rest ↔ Requirements ts rest := by
  cases ts with
  | nil =>
    rw [skipWhereClause, Reads.ok_iff]
    constructor
    · rintro ⟨-, rfl⟩
      exact .none (by simp)
    · rintro ⟨⟩
      exact ⟨rfl, rfl⟩
  | cons t ts =>
    rw [skipWhereClause]
    by_cases isWhere : t.isWord "where" = true
    · rw [if_pos isWhere]
      constructor
      · intro h
        exact .some isWhere (toBrace_of_reads h.of_wider)
      · rintro (absent | ⟨-, requirements⟩)
        · rw [absent t rfl] at isWhere
          cases isWhere
        · exact requirements.reads.wider
    · rw [if_neg isWhere, Reads.ok_iff]
      constructor
      · rintro ⟨-, rfl⟩
        exact .none (by rintro _ ⟨⟩; simpa using isWhere)
      · rintro (- | ⟨word, -⟩)
        · exact ⟨rfl, rfl⟩
        · exact absurd word isWhere

/-- The name of a declaration of a kind: for an extension, the type it extends. -/
inductive NameSpelled : DeclarationKind → List Token → String → List Token → Prop
  | extended {t : TypeExpr} {ts rest : List Token} :
      TypeExpr.Spells (.type t) ts rest → NameSpelled .extension ts t.render rest
  | name {kind : DeclarationKind} {n : Token} {rest : List Token} :
      kind ≠ .extension → n.kind = .ident → NameSpelled kind (n :: rest) n.text rest

/-- The name of a declaration is one token, unless it is an extension. -/
theorem reads_readName_iff {kind : DeclarationKind} {ts rest : List Token} {name : String} :
    Reads (readName kind ts) name rest ↔ NameSpelled kind ts name rest := by
  rw [readName]
  constructor
  · intro h
    split at h
    · next extended =>
      subst extended
      obtain ⟨t, mid, lt, type, h⟩ := h.of_bind
      obtain ⟨rfl, rfl⟩ := Reads.ok_iff.mp h
      exact .extended (TypeExpr.reads_read_iff.mp ⟨lt, type⟩)
    · next named =>
      obtain ⟨n, mid, lt, token, h⟩ := h.of_bind
      obtain ⟨rfl, rfl⟩ := Reads.ok_iff.mp h
      obtain ⟨rfl, ident⟩ := Token.reads_expect_iff.mp ⟨lt, token⟩
      exact .name named ident
  · rintro (type | ⟨named, ident⟩)
    · rw [if_pos rfl]
      exact (TypeExpr.reads_read_iff.mpr type).bind fun _ => Reads.ok
    · rw [if_neg named]
      exact (Token.reads_expect_iff.mpr ⟨rfl, ident⟩).bind fun _ => Reads.ok

/-- A heading behind its keyword, with the name and the inherited types. -/
inductive Spelled (kind : DeclarationKind) :
    List Token → String → List TypeExpr → List Token → Prop
  | mk {name : String} {inherited : List TypeExpr} {ts ts₁ ts₂ ts₃ rest : List Token} :
      NameSpelled kind ts name ts₁ → Generics ts₁ ts₂ → InheritedSpelled ts₂ inherited ts₃ →
      Requirements ts₃ rest → Spelled kind ts name inherited rest

/-- A heading is read exactly if its parts are spelled one behind the other. -/
theorem reads_read_iff {attributes : List Attribute} {modifiers : List String}
    {kind : DeclarationKind} {keyword : Token} {ts rest : List Token} {heading : Heading} :
    Reads (read attributes modifiers kind keyword ts) heading rest ↔
      ∃ name inherited, Spelled kind ts name inherited rest ∧
        heading = ⟨attributes, modifiers, kind, name, inherited, keyword.span⟩ := by
  constructor
  · intro h
    obtain ⟨name, ts₁, lt₁, named, h⟩ := h.of_bind
    obtain ⟨_, ts₂, lt₂, generics, h⟩ := h.of_bind
    obtain ⟨inherited, ts₃, lt₃, types, h⟩ := h.of_bind
    obtain ⟨_, ts₄, lt₄, requirements, h⟩ := h.of_bind
    obtain ⟨rfl, rfl⟩ := Reads.ok_iff.mp h
    exact ⟨name, inherited, .mk (reads_readName_iff.mp ⟨lt₁, named⟩)
      (reads_skipGenericClause_iff.mp ⟨lt₂, generics⟩) (reads_readInherited_iff.mp ⟨lt₃, types⟩)
      (reads_skipWhereClause_iff.mp ⟨lt₄, requirements⟩), rfl⟩
  · rintro ⟨name, inherited, ⟨named, generics, types, requirements⟩, rfl⟩
    refine (reads_readName_iff.mpr named).bind fun _ => ?_
    refine (reads_skipGenericClause_iff.mpr generics).bind fun _ => ?_
    refine (reads_readInherited_iff.mpr types).bind fun _ => ?_
    exact (reads_skipWhereClause_iff.mpr requirements).bind fun _ => Reads.ok

end Heading

/-! ### Members -/

/-- What stands in front of a declaration: its attributes and its modifiers. -/
inductive PrefixSpelled : List Token → List Attribute → List String → List Token → Prop
  | mk {attributes : List Attribute} {modifiers : List String} {ts mid rest : List Token} :
      Attribute.AllSpelled ts attributes mid → Modifier.AllSpelled mid modifiers rest →
      PrefixSpelled ts attributes modifiers rest

/-- A token that begins neither a type declaration nor a variable declaration. -/
def Token.IsOtherWord (t : Token) : Prop :=
  DeclarationKind.ofToken? t = none ∧ Specifier.ofToken? t = none

theorem Token.isOtherWord_of_closing {t : Token} {b : Bracket} (h : t.kind = .closing b) :
    t.IsOtherWord := by
  constructor
  · rw [DeclarationKind.ofToken?, h]
    rfl
  · simp [Specifier.ofToken?, Token.isWord, h]

/-- A member that is no type declaration, with the tokens in front of it. Together with
`OpeningSpelled` this covers every way in which a member may begin. -/
inductive LeafSpelled : List Token → Member → List Token → Prop
  /-- A compiler directive. No attributes stand in front of it. -/
  | directive {m : Member} {ts rest : List Token} :
      Skipping.Directive ts m rest → LeafSpelled ts m rest
  /-- A variable declaration, behind `var` or `let`. -/
  | property {attributes : List Attribute} {modifiers : List String} {specifier : Specifier}
      {b : Binding} {bs : List Binding} {t keyword : Token} {ts mid rest : List Token} :
      t.kind ≠ .pound → PrefixSpelled (t :: ts) attributes modifiers (keyword :: mid) →
      Specifier.ofToken? keyword = some specifier → Variable.Spelled mid b bs rest →
      LeafSpelled (t :: ts)
        (.variable ⟨attributes, modifiers, specifier, b, bs, keyword.span⟩) rest
  /-- Attributes and modifiers in front of a closing brace. -/
  | dangling {attributes : List Attribute} {modifiers : List String} {t closer : Token}
      {ts rest : List Token} :
      t.kind ≠ .pound → PrefixSpelled (t :: ts) attributes modifiers (closer :: rest) →
      closer.kind = .closing .brace → rest.length < ts.length →
      LeafSpelled (t :: ts) (.other closer.text closer.span) (closer :: rest)
  /-- Anything else, kept as its first word. -/
  | other {attributes : List Attribute} {modifiers : List String} {t word : Token}
      {ts mid rest : List Token} :
      t.kind ≠ .pound → PrefixSpelled (t :: ts) attributes modifiers (word :: mid) →
      word.IsOtherWord → word.kind ≠ .closing .brace → Skipping.Other word mid rest →
      LeafSpelled (t :: ts) (.other word.text word.span) rest

/-- A type declaration up to its opening brace, with the keyword and that brace. Members follow,
which are described by `Members`. -/
inductive OpeningSpelled : List Token → Heading → Token → List Token → Prop
  | mk {attributes : List Attribute} {modifiers : List String} {kind : DeclarationKind}
      {name : String} {inherited : List TypeExpr} {t keyword opener : Token}
      {ts mid rest : List Token} :
      t.kind ≠ .pound → PrefixSpelled (t :: ts) attributes modifiers (keyword :: mid) →
      DeclarationKind.ofToken? keyword = some kind →
      Heading.Spelled kind mid name inherited (opener :: rest) → opener.kind = .opening .brace →
      OpeningSpelled (t :: ts) ⟨attributes, modifiers, kind, name, inherited, keyword.span⟩
        opener rest

/-- A token that neither ends nor separates members. -/
def Token.BeginsMember (t : Token) : Prop :=
  t.kind ≠ .closing .brace ∧ t.kind ≠ .semicolon

/-- `Members ts ms closer rest`: the tokens `ts` begin with the members `ms` and the brace `closer`
that closes them. -/
inductive Members : List Token → List Member → Token → List Token → Prop
  /-- The brace that closes the members. -/
  | close {closer : Token} {rest : List Token} :
      closer.kind = .closing .brace → Members (closer :: rest) [] closer rest
  /-- A semicolon separates members and is none. -/
  | semicolon {ms : List Member} {t closer : Token} {ts rest : List Token} :
      t.kind = .semicolon → Members ts ms closer rest → Members (t :: ts) ms closer rest
  /-- A member without members of its own. -/
  | leaf {m : Member} {ms : List Member} {t closer : Token} {ts mid rest : List Token} :
      t.BeginsMember → LeafSpelled (t :: ts) m mid → Members mid ms closer rest →
      Members (t :: ts) (m :: ms) closer rest
  /-- A nested type: its heading, its members, the brace that closes them, and then further
  members. -/
  | type {heading : Heading} {inner ms : List Member} {t opener innerCloser closer : Token}
      {ts body mid rest : List Token} :
      t.BeginsMember → OpeningSpelled (t :: ts) heading opener body →
      Members body inner innerCloser mid → Members mid ms closer rest →
      Members (t :: ts) (.type ⟨heading, inner, opener.span, innerCloser.span⟩ :: ms) closer rest

/-- One member: a leaf or a type declaration. -/
inductive MemberSpelled : List Token → Member → List Token → Prop
  | leaf {m : Member} {ts rest : List Token} : LeafSpelled ts m rest → MemberSpelled ts m rest
  | type {heading : Heading} {inner : List Member} {opener closer : Token}
      {ts body rest : List Token} :
      OpeningSpelled ts heading opener body → Members body inner closer rest →
      MemberSpelled ts (.type ⟨heading, inner, opener.span, closer.span⟩) rest

theorem DeclarationKind.ofToken?_of_specifier {t : Token} {specifier : Specifier}
    (h : Specifier.ofToken? t = some specifier) : DeclarationKind.ofToken? t = none := by
  rw [Specifier.ofToken?] at h
  have text : t.text = "var" ∨ t.text = "let" := by
    split at h
    · next isVar =>
      simp only [Token.isWord, Bool.and_eq_true, beq_iff_eq] at isVar
      exact .inl isVar.2
    · split at h
      · next isLet =>
        simp only [Token.isWord, Bool.and_eq_true, beq_iff_eq] at isLet
        exact .inr isLet.2
      · cases h
  rw [DeclarationKind.ofToken?]
  split
  · rcases text with text | text <;> rw [text] <;> rfl
  · rfl

/-- The members of a shorter list of tokens follow the grammar: what the readers of members need to
know of one another. -/
def MembersBelow (n : Nat) : Prop :=
  ∀ {ts rest : List Token} {ms : List Member} {closer : Token}, ts.length < n →
    Reads (Member.readAll ts) (ms, closer) rest → Members ts ms closer rest

theorem memberSpelled_of_reads {ts rest : List Token} {m : Member} (below : MembersBelow ts.length)
    (h : Reads (Member.read ts) m rest) : MemberSpelled ts m rest := by
  cases ts with
  | nil => rw [Member.read] at h; exact absurd h Reads.not_error
  | cons t ts =>
    rw [Member.read.eq_def] at h
    dsimp only at h
    split at h
    · exact .leaf (.directive (Skipping.reads_directive_iff.mp h))
    · next noPound =>
      obtain ⟨attributes, ts₁, lt₁, ha, h⟩ := h.of_bind
      have attributes := Attribute.reads_readAll_iff.mp ⟨lt₁, ha⟩
      have modifiers := Modifier.allSpelled_readAll ts₁
      dsimp only at h
      generalize Modifier.readAll ts₁ = step at h modifiers
      obtain ⟨words, ts₂, lt₂⟩ := step
      dsimp only at modifiers
      cases ts₂ with
      | nil => exact absurd h Reads.not_error
      | cons word ts₂ =>
        have front := PrefixSpelled.mk attributes modifiers
        dsimp only at h
        split at h
        · next kind isKind =>
          obtain ⟨d, mid, lt₃, hd, h⟩ := h.of_bind
          obtain ⟨rfl, rfl⟩ := Reads.ok_iff.mp h
          -- A declaration is its heading, its braces and its members, which are fewer tokens.
          rw [Declaration.read] at hd
          have hd : Reads _ d mid := ⟨lt₃, hd⟩
          obtain ⟨heading, ts₃, lt₄, hh, hd⟩ := hd.of_bind
          obtain ⟨opener, ts₄, lt₅, ho, hd⟩ := hd.of_bind
          obtain ⟨⟨members, closer⟩, ts₅, lt₆, hm, hd⟩ := hd.of_bind
          obtain ⟨rfl, rfl⟩ := Reads.ok_iff.mp hd
          obtain ⟨rfl, opens⟩ := Token.reads_expect_iff.mp ⟨lt₅, ho⟩
          obtain ⟨name, inherited, spelled, rfl⟩ := Heading.reads_read_iff.mp ⟨lt₄, hh⟩
          refine .type (.mk noPound front isKind spelled opens) (below ?_ ⟨lt₆, hm⟩)
          simp only [List.length_cons] at lt₁ lt₂ lt₄ ⊢
          omega
        · next specifier _ isSpecifier =>
          obtain ⟨v, mid, lt₃, hv, h⟩ := h.of_bind
          obtain ⟨rfl, rfl⟩ := Reads.ok_iff.mp h
          obtain ⟨b, bs, spelled, rfl⟩ := Variable.reads_read_iff.mp ⟨lt₃, hv⟩
          exact .leaf (.property noPound front isSpecifier spelled)
        · next noKind noSpecifier =>
          split at h
          · next closes =>
            split at h
            · next shorter =>
              obtain ⟨rfl, rfl⟩ := Reads.ok_iff.mp h
              exact .leaf (.dangling noPound front closes (by simpa using shorter))
            · exact absurd h Reads.not_error
          · next noCloser =>
            obtain ⟨spelled, other⟩ := Skipping.reads_other_iff.mp h.of_widen
            subst spelled
            exact .leaf (.other noPound front ⟨noKind, noSpecifier⟩ noCloser other)

theorem members_of_reads {ts rest : List Token} {ms : List Member} {closer : Token}
    (h : Reads (Member.readAll ts) (ms, closer) rest) : Members ts ms closer rest := by
  induction hn : ts.length using Nat.strongRecOn generalizing ts rest ms closer with
  | ind n ih =>
    subst hn
    have below : MembersBelow ts.length := fun lt h => ih _ lt h rfl
    cases ts with
    | nil => rw [Member.readAll] at h; exact absurd h Reads.not_error
    | cons t ts =>
      rw [Member.readAll.eq_def] at h
      dsimp only at h
      split at h
      · next closes =>
        obtain ⟨same, rfl⟩ := Reads.ok_iff.mp h
        cases same
        exact .close closes
      · next semicolon => exact .semicolon semicolon (ih _ (Nat.lt_add_one _) h.of_wider rfl)
      · next noCloser noSemicolon =>
        obtain ⟨m, mid, lt, hm, h⟩ := h.of_bind
        obtain ⟨⟨others, closer'⟩, mid', lt', more, h⟩ := h.of_bind
        obtain ⟨same, rfl⟩ := Reads.ok_iff.mp h
        cases same
        have more := ih mid.length lt ⟨lt', more⟩ rfl
        cases memberSpelled_of_reads below ⟨lt, hm⟩ with
        | leaf leaf => exact .leaf ⟨noCloser, noSemicolon⟩ leaf more
        | type opening inner => exact .type ⟨noCloser, noSemicolon⟩ opening inner more

/-- Behind what stands in front of a declaration, the reader of members looks at one word. -/
theorem PrefixSpelled.reads_member {attributes : List Attribute} {modifiers : List String}
    {t word : Token} {ts mid rest : List Token} {m : Member} (noPound : t.kind ≠ .pound)
    (front : PrefixSpelled (t :: ts) attributes modifiers (word :: mid))
    (next : ∀ bound : (word :: mid).length ≤ ts.length + 1, Reads
      (match DeclarationKind.ofToken? word, Specifier.ofToken? word with
        | some kind, _ => do
          let s ← Declaration.read attributes modifiers kind word mid
          return (s.map Member.type).widen (Nat.le_of_succ_le bound)
        | none, some specifier => do
          let s ← Variable.read attributes modifiers specifier word mid
          return (s.map Member.variable).widen (Nat.le_of_succ_le bound)
        | none, none =>
          if word.kind = .closing .brace then
            if h : (word :: mid).length < (t :: ts).length then
              return ⟨.other word.text word.span, word :: mid, h⟩
            else .error (.unexpected .declaration word)
          else do
            let s ← Skipping.other word mid
            return s.widen bound : Reading Member (t :: ts).length) m rest) :
    Reads (Member.read (t :: ts)) m rest := by
  obtain ⟨attributes, modifiers⟩ := front
  rw [Member.read.eq_def]
  dsimp only
  rw [if_neg noPound]
  refine (Attribute.reads_readAll_iff.mpr attributes).bind fun lt => ?_
  obtain ⟨words, left⟩ := Modifier.readAll_iff.mpr modifiers
  dsimp only
  generalize Modifier.readAll _ = step at words left
  obtain ⟨words', left', lt'⟩ := step
  dsimp only at words left
  subst words left
  dsimp only
  exact next (by simp only [List.length_cons] at lt lt' ⊢; omega)

/-- A leaf is read as the member it is. -/
theorem LeafSpelled.reads {ts rest : List Token} {m : Member} (h : LeafSpelled ts m rest) :
    Reads (Member.read ts) m rest := by
  cases h with
  | directive directive =>
    have reads := Skipping.reads_directive_iff.mpr directive
    cases directive with
    | conditional pound | simple pound =>
      rw [Member.read.eq_def]
      dsimp only
      rw [if_pos pound]
      exact reads
  | property noPound front isSpecifier spelled =>
    refine front.reads_member noPound fun _ => ?_
    rw [DeclarationKind.ofToken?_of_specifier isSpecifier, isSpecifier]
    exact (Variable.reads_read_iff.mpr ⟨_, _, spelled, rfl⟩).bind fun _ => Reads.ok
  | dangling noPound front closes shorter =>
    refine front.reads_member noPound fun _ => ?_
    rw [(Token.isOtherWord_of_closing closes).1, (Token.isOtherWord_of_closing closes).2]
    dsimp only
    rw [if_pos closes, dif_pos (by simpa using shorter)]
    exact Reads.ok
  | other noPound front otherWord noCloser other =>
    refine front.reads_member noPound fun _ => ?_
    rw [otherWord.1, otherWord.2]
    dsimp only
    rw [if_neg noCloser]
    exact (Skipping.reads_other_iff.mpr ⟨rfl, other⟩).widen

/-- A type declaration is read if its heading is spelled and its members are read. -/
theorem OpeningSpelled.reads {ts body rest : List Token} {heading : Heading} {opener closer : Token}
    {inner : List Member} (h : OpeningSpelled ts heading opener body)
    (members : Reads (Member.readAll body) (inner, closer) rest) :
    Reads (Member.read ts) (.type ⟨heading, inner, opener.span, closer.span⟩) rest := by
  obtain ⟨noPound, front, isKind, spelled, opens⟩ := h
  refine front.reads_member noPound fun _ => ?_
  rw [isKind]
  dsimp only
  rw [Declaration.read]
  exact Reads.bind ((Heading.reads_read_iff.mpr ⟨_, _, spelled, rfl⟩).bind fun _ =>
    (Token.reads_expect_iff.mpr ⟨rfl, opens⟩).bind fun _ => members.bind fun _ => Reads.ok)
    fun _ => Reads.ok

/-- Members are read, with those of nested types, up to the brace that closes them. -/
theorem Members.reads {ts rest : List Token} {ms : List Member} {closer : Token}
    (h : Members ts ms closer rest) : Reads (Member.readAll ts) (ms, closer) rest := by
  induction h with
  | close closes =>
    rw [Member.readAll.eq_def]
    simp only [closes]
    exact Reads.ok
  | semicolon kind _ ih =>
    rw [Member.readAll.eq_def]
    simp only [kind]
    exact ih.wider
  | leaf begins leaf _ ih =>
    rw [Member.readAll.eq_def]
    dsimp only
    split
    · next kind => exact absurd kind begins.1
    · next kind => exact absurd kind begins.2
    · exact leaf.reads.bind fun _ => ih.bind fun _ => Reads.ok
  | type begins opening _ _ inner more =>
    rw [Member.readAll.eq_def]
    dsimp only
    split
    · next kind => exact absurd kind begins.1
    · next kind => exact absurd kind begins.2
    · exact (opening.reads inner).bind fun _ => more.bind fun _ => Reads.ok

/-- The reader of members reads exactly the members of the grammar. -/
theorem Members.reads_readAll_iff {ts rest : List Token} {ms : List Member} {closer : Token} :
    Reads (Member.readAll ts) (ms, closer) rest ↔ Members ts ms closer rest :=
  ⟨members_of_reads, Members.reads⟩

/-- A single member is read. -/
theorem MemberSpelled.reads {ts rest : List Token} {m : Member} (h : MemberSpelled ts m rest) :
    Reads (Member.read ts) m rest := by
  cases h with
  | leaf leaf => exact leaf.reads
  | type opening inner => exact opening.reads inner.reads

/-! ### Files -/

/-- The members of a file: `FileSpelled ts ms` says that the tokens `ts` are the members `ms`. -/
inductive FileSpelled : List Token → List Member → Prop
  | nil : FileSpelled [] []
  | semicolon {ms : List Member} {t : Token} {ts : List Token} :
      t.kind = .semicolon → FileSpelled ts ms → FileSpelled (t :: ts) ms
  | leaf {m : Member} {ms : List Member} {t : Token} {ts mid : List Token} :
      t.kind ≠ .semicolon → LeafSpelled (t :: ts) m mid → FileSpelled mid ms →
      FileSpelled (t :: ts) (m :: ms)
  | type {heading : Heading} {inner ms : List Member} {t opener closer : Token}
      {ts body mid : List Token} :
      t.kind ≠ .semicolon → OpeningSpelled (t :: ts) heading opener body →
      Members body inner closer mid → FileSpelled mid ms →
      FileSpelled (t :: ts) (.type ⟨heading, inner, opener.span, closer.span⟩ :: ms)

namespace Member

/-- The type declaration that a member is. -/
def type? : Member → Option Declaration
  | .type d => some d
  | .variable _ | .other .. => none

end Member

theorem LeafSpelled.type?_eq_none {ts rest : List Token} {m : Member} (h : LeafSpelled ts m rest) :
    m.type? = none := by
  cases h with
  | directive directive => cases directive <;> rfl
  | property | dangling | other => rfl

theorem readFile_cons {t : Token} {ts : List Token} (noSemicolon : t.kind ≠ .semicolon) :
    Declaration.readFile (t :: ts) = (do
      let s ← Member.read (t :: ts)
      return s.value.type?.toList ++ (← Declaration.readFile s.rest)) := by
  rw [Declaration.readFile, if_neg noSemicolon]
  refine bind_congr fun s => ?_
  obtain ⟨m, rest, lt⟩ := s
  cases m <;> simp [Member.type?]

/-- The tokens of a file that is read are members, and what is read of it is the type declarations
among these. -/
theorem fileSpelled_of_readFile {ts : List Token} {ds : List Declaration}
    (h : Declaration.readFile ts = .ok ds) :
    ∃ ms, FileSpelled ts ms ∧ ms.filterMap Member.type? = ds := by
  induction hn : ts.length using Nat.strongRecOn generalizing ts ds with
  | ind n ih =>
    subst hn
    cases ts with
    | nil =>
      rw [Declaration.readFile] at h
      cases h
      exact ⟨[], .nil, rfl⟩
    | cons t ts =>
      by_cases semicolon : t.kind = .semicolon
      · rw [Declaration.readFile, if_pos semicolon] at h
        obtain ⟨ms, spelled, rfl⟩ := ih _ (Nat.lt_add_one _) h rfl
        exact ⟨ms, .semicolon semicolon spelled, rfl⟩
      · rw [readFile_cons semicolon] at h
        cases hm : Member.read (t :: ts) with
        | error fault => rw [hm] at h; cases h
        | ok s =>
          obtain ⟨m, rest, lt⟩ := s
          cases hr : Declaration.readFile rest with
          | error fault => simp [hm, hr, bind, Except.bind] at h
          | ok others =>
            obtain ⟨ms, spelled, rfl⟩ := ih _ lt hr rfl
            obtain rfl : m.type?.toList ++ ms.filterMap Member.type? = ds := by
              simpa [hm, hr, bind, Except.bind, pure, Except.pure] using h
            cases memberSpelled_of_reads (fun _ => members_of_reads) ⟨lt, hm⟩ with
            | leaf leaf =>
              refine ⟨m :: ms, .leaf semicolon leaf spelled, ?_⟩
              simp [leaf.type?_eq_none]
            | type opening inner =>
              exact ⟨_ :: ms, .type semicolon opening inner spelled, rfl⟩

/-- A file that is spelled as members is read. -/
theorem FileSpelled.readFile {ts : List Token} {ms : List Member} (h : FileSpelled ts ms) :
    Declaration.readFile ts = .ok (ms.filterMap Member.type?) := by
  induction h with
  | nil => rw [Declaration.readFile]; rfl
  | semicolon kind _ ih => rw [Declaration.readFile, if_pos kind, ih]
  | leaf noSemicolon leaf _ ih =>
    obtain ⟨lt, hm⟩ := leaf.reads
    rw [readFile_cons noSemicolon, hm]
    simp [bind, Except.bind, pure, Except.pure, ih, leaf.type?_eq_none]
  | type noSemicolon opening inner _ ih =>
    obtain ⟨lt, hm⟩ := opening.reads inner.reads
    rw [readFile_cons noSemicolon, hm]
    simp [bind, Except.bind, pure, Except.pure, ih, Member.type?]

/-- Reading a file gives the type declarations among its members. -/
theorem FileSpelled.readFile_iff {ts : List Token} {ds : List Declaration} :
    Declaration.readFile ts = .ok ds ↔
      ∃ ms, FileSpelled ts ms ∧ ms.filterMap Member.type? = ds := by
  refine ⟨fileSpelled_of_readFile, ?_⟩
  rintro ⟨ms, spelled, rfl⟩
  exact spelled.readFile

end CodableSynthesis
