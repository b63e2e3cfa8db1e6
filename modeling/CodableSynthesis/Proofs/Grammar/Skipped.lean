import CodableSynthesis.Declaration.Skipping
import CodableSynthesis.Proofs.Grammar.Groups

/-!
The grammar of what is skipped: initializers, declarations that are kept as their first word, and
compiler directives.

* `reads_expression_iff`, `reads_declarationRest_iff`, `reads_conditional_iff`: each skipper stops
  exactly where its grammar ends.
* `reads_other_iff`, `reads_directive_iff`: the members they make.

Where something ends is a relation of its own (`EndsExpression`, `EndsDeclaration`), since it is
used negatively as well: every constructor that goes on says that nothing ended here. For an
initializer the constructors are groups, generic arguments, and single tokens, and one of them
applies to any token that does not end it. So an initializer is read whatever it is made of, as long
as its groups are closed.
-/

namespace CodableSynthesis

namespace Skipping

/-- The expression of an initializer ends before the tokens, `started` telling whether it has
begun. -/
inductive EndsExpression (started : Bool) : List Token → Prop
  | nil : EndsExpression started []
  /-- A line that begins a declaration, unless nothing was read yet. -/
  | declaration {t : Token} {ts : List Token} :
      started = true → t.newlineBefore = true → Modifier.startsDeclaration t = true →
      EndsExpression started (t :: ts)
  | comma {t : Token} {ts : List Token} : t.kind = .comma → EndsExpression started (t :: ts)
  | semicolon {t : Token} {ts : List Token} : t.kind = .semicolon → EndsExpression started (t :: ts)
  | closing {b : Bracket} {t : Token} {ts : List Token} :
      t.kind = .closing b → EndsExpression started (t :: ts)
  /-- A block of observers, unless nothing was read yet: then the braces are a closure. -/
  | observers {t : Token} {ts : List Token} :
      t.kind = .opening .brace → started = true → startsObserver ts = true →
      EndsExpression started (t :: ts)

/-- An angle bracket that opens generic arguments, which end before `rest`. -/
def OpensArguments (t : Token) (ts rest : List Token) : Prop :=
  t.kind = .less ∧ t.touches = true ∧ Group.ClosesArguments 0 ts rest

/-- The expression of an initializer. The flag tells whether some of it came before; only then may a
line that begins a declaration, or a block of observers, end it. -/
inductive Expression : Bool → List Token → List Token → Prop
  | stop {started : Bool} {ts : List Token} :
      EndsExpression started ts → Expression started ts ts
  /-- A group in brackets, stepped over as a whole. -/
  | group {started : Bool} {b : Bracket} {t u : Token} {ts mid rest : List Token} :
      ¬ EndsExpression started (t :: ts) → t.kind = .opening b → Group.Closes b [] ts u mid →
      Expression true mid rest → Expression started (t :: ts) rest
  /-- Generic arguments, stepped over as a whole. Commas in them do not end the expression. -/
  | arguments {started : Bool} {t : Token} {ts mid rest : List Token} :
      ¬ EndsExpression started (t :: ts) → OpensArguments t ts mid → Expression true mid rest →
      Expression started (t :: ts) rest
  /-- Any other single token, also an angle bracket that opens no arguments. -/
  | plain {started : Bool} {t : Token} {ts rest : List Token} :
      ¬ EndsExpression started (t :: ts) → (∀ b, t.kind ≠ .opening b) →
      (∀ mid, ¬ OpensArguments t ts mid) → Expression true ts rest →
      Expression started (t :: ts) rest

/-- What ends an expression at a token, in the order the reader asks. -/
theorem endsExpression_cons_iff {started : Bool} {t : Token} {ts : List Token} :
    EndsExpression started (t :: ts) ↔
      (started && t.newlineBefore && Modifier.startsDeclaration t) = true ∨
        t.kind = .comma ∨ t.kind = .semicolon ∨ (∃ b, t.kind = .closing b) ∨
        t.kind = .opening .brace ∧ started = true ∧ startsObserver ts = true := by
  constructor
  · rintro (_ | ⟨begun, newline, starts⟩ | comma | semicolon | closing | observers)
    · exact .inl (by simp [begun, newline, starts])
    · exact .inr (.inl comma)
    · exact .inr (.inr (.inl semicolon))
    · exact .inr (.inr (.inr (.inl ⟨_, closing⟩)))
    · next begun starts => exact .inr (.inr (.inr (.inr ⟨observers, begun, starts⟩)))
  · rintro (declaration | comma | semicolon | ⟨b, closing⟩ | ⟨opens, begun, starts⟩)
    · simp only [Bool.and_eq_true] at declaration
      exact .declaration declaration.1.1 declaration.1.2 declaration.2
    · exact .comma comma
    · exact .semicolon semicolon
    · exact .closing closing
    · exact .observers opens begun starts

/-- What is skipped of an initializer is an expression. -/
theorem expression_of_reads {started : Bool} {ts rest : List Token} {x : Unit}
    (h : Reads (expression started ts) x rest) : Expression started ts rest := by
  induction hn : ts.length using Nat.strongRecOn generalizing started ts with
  | ind n ih =>
    subst hn
    cases ts with
    | nil =>
      rw [expression] at h
      obtain ⟨-, rfl⟩ := Reads.ok_iff.mp h
      exact .stop .nil
    | cons t ts =>
      rw [expression.eq_def] at h
      dsimp only at h
      split at h
      · next begins =>
        obtain ⟨-, rfl⟩ := Reads.ok_iff.mp h
        exact .stop (endsExpression_cons_iff.mpr (.inl begins))
      · next noDeclaration =>
        split at h
        · next comma =>
          obtain ⟨-, rfl⟩ := Reads.ok_iff.mp h
          exact .stop (.comma comma)
        · next semicolon =>
          obtain ⟨-, rfl⟩ := Reads.ok_iff.mp h
          exact .stop (.semicolon semicolon)
        · next b closes =>
          obtain ⟨-, rfl⟩ := Reads.ok_iff.mp h
          exact .stop (.closing closes)
        · next b opens =>
          split at h
          · next observers =>
            simp only [Bool.and_eq_true, decide_eq_true_eq] at observers
            obtain ⟨⟨rfl, begun⟩, starts⟩ := observers
            obtain ⟨-, rfl⟩ := Reads.ok_iff.mp h
            exact .stop (.observers opens begun starts)
          · next noObservers =>
            obtain ⟨u, mid, shorter, closes, h⟩ := h.of_bind
            refine .group ?_ opens (Group.reads_close_iff.mp ⟨shorter, closes⟩)
              (ih mid.length (Nat.lt_succ_of_lt shorter) h.of_widen rfl)
            rw [endsExpression_cons_iff]
            simpa [noDeclaration, opens, and_assoc] using noObservers
        · next less =>
          have goesOn : ¬ EndsExpression started (t :: ts) := by
            simp [endsExpression_cons_iff, noDeclaration, less]
          split at h
          · next touching =>
            split at touching
            · next touches =>
              exact .arguments goesOn ⟨less, touches, Group.closesArguments_of_after touching⟩
                (ih _ (by simp only [List.length_cons]; omega) h.of_widen rfl)
            · cases touching
          · next none =>
            refine .plain goesOn (by simp [less]) ?_ (ih _ (Nat.lt_add_one _) h.of_wider rfl)
            rintro mid ⟨-, touches, arguments⟩
            obtain ⟨_, after⟩ := arguments.after
            simp [touches, after] at none
        · next noComma noSemicolon noClosing noOpening noLess =>
          refine .plain ?_ noOpening (fun _ opens => noLess opens.1)
            (ih _ (Nat.lt_add_one _) h.of_wider rfl)
          rw [endsExpression_cons_iff]
          rintro (declaration | comma | semicolon | ⟨b, closes⟩ | ⟨opens, -⟩)
          · exact noDeclaration declaration
          · exact noComma comma
          · exact noSemicolon semicolon
          · exact noClosing _ closes
          · exact noOpening _ opens

/-- Every expression is skipped, and no more than it. -/
theorem Expression.reads {started : Bool} {ts rest : List Token} (h : Expression started ts rest) :
    Reads (expression started ts) () rest := by
  induction h with
  | @stop started ts ends =>
    rw [expression.eq_def]
    cases ends with
    | nil => exact Reads.ok
    | declaration begun newline starts =>
      dsimp only
      rw [if_pos (by simp [begun, newline, starts])]
      exact Reads.ok
    | comma kind | semicolon kind | closing kind =>
      dsimp only
      split
      · exact Reads.ok
      · simp only [kind]
        exact Reads.ok
    | observers kind begun starts =>
      dsimp only
      split
      · exact Reads.ok
      · simp only [kind, begun, starts, decide_true, Bool.and_self, ↓reduceIte]
        exact Reads.ok
  | @group started b t u ts mid rest goesOn opens closes _ ih =>
    rw [expression.eq_def]
    dsimp only
    rw [if_neg]
    · simp only [opens]
      rw [if_neg]
      · exact (Group.reads_close_iff.mpr closes).bind fun _ => ih.widen
      · simp only [Bool.and_eq_true, decide_eq_true_eq]
        rintro ⟨⟨rfl, begun⟩, starts⟩
        exact goesOn (.observers opens begun starts)
    · exact fun begins => goesOn (endsExpression_cons_iff.mpr (.inl begins))
  | arguments goesOn opens _ ih =>
    obtain ⟨less, touches, arguments⟩ := opens
    obtain ⟨_, after⟩ := arguments.after
    rw [expression.eq_def]
    dsimp only
    rw [if_neg]
    · simp only [less, touches, ↓reduceIte, after]
      exact ih.widen
    · exact fun begins => goesOn (endsExpression_cons_iff.mpr (.inl begins))
  | plain goesOn noOpening noArguments _ ih =>
    rw [expression.eq_def]
    dsimp only
    rw [if_neg]
    · split
      · next kind => exact absurd (.comma kind) goesOn
      · next kind => exact absurd (.semicolon kind) goesOn
      · next kind => exact absurd (.closing kind) goesOn
      · next kind => exact absurd kind (noOpening _)
      · next less =>
        split
        · next touching =>
          split at touching
          · next touches =>
            exact absurd ⟨less, touches, Group.closesArguments_of_after touching⟩ (noArguments _)
          · cases touching
        · exact ih.wider
      · exact ih.wider
    · exact fun begins => goesOn (endsExpression_cons_iff.mpr (.inl begins))

/-- An initializer is skipped exactly as far as its expression goes. -/
theorem reads_expression_iff {started : Bool} {ts rest : List Token} :
    Reads (expression started ts) () rest ↔ Expression started ts rest :=
  ⟨expression_of_reads, Expression.reads⟩

/-- A skipped declaration ends before the tokens, which it leaves; `afterBlock` tells whether a
group in braces came last, behind which a declaration may begin on the same line. -/
inductive EndsDeclaration (afterBlock : Bool) : List Token → Prop
  | nil : EndsDeclaration afterBlock []
  | declaration {t : Token} {ts : List Token} :
      t.newlineBefore = true ∨ afterBlock = true → Modifier.startsDeclaration t = true →
      EndsDeclaration afterBlock (t :: ts)
  | closing {t : Token} {ts : List Token} :
      t.kind = .closing .brace → EndsDeclaration afterBlock (t :: ts)

/-- The rest of a skipped declaration. -/
inductive DeclarationRest : Bool → List Token → List Token → Prop
  | stop {afterBlock : Bool} {ts : List Token} :
      EndsDeclaration afterBlock ts → DeclarationRest afterBlock ts ts
  /-- A semicolon ends the declaration and is read with it, while all other ends are left. -/
  | semicolon {afterBlock : Bool} {t : Token} {rest : List Token} :
      t.kind = .semicolon → DeclarationRest afterBlock (t :: rest) rest
  | group {afterBlock : Bool} {b : Bracket} {t u : Token} {ts mid rest : List Token} :
      ¬ EndsDeclaration afterBlock (t :: ts) → t.kind = .opening b → Group.Closes b [] ts u mid →
      DeclarationRest (b == .brace) mid rest → DeclarationRest afterBlock (t :: ts) rest
  | plain {afterBlock : Bool} {t : Token} {ts rest : List Token} :
      ¬ EndsDeclaration afterBlock (t :: ts) → t.kind ≠ .semicolon → (∀ b, t.kind ≠ .opening b) →
      (∀ b, t.kind ≠ .closing b) → DeclarationRest false ts rest →
      DeclarationRest afterBlock (t :: ts) rest

/-- What is skipped of a declaration is the rest of one. -/
theorem declarationRest_of_reads {afterBlock : Bool} {ts rest : List Token} {x : Unit}
    (h : Reads (declarationRest afterBlock ts) x rest) : DeclarationRest afterBlock ts rest := by
  induction hn : ts.length using Nat.strongRecOn generalizing afterBlock ts with
  | ind n ih =>
    subst hn
    cases ts with
    | nil =>
      rw [declarationRest] at h
      obtain ⟨-, rfl⟩ := Reads.ok_iff.mp h
      exact .stop .nil
    | cons t ts =>
      rw [declarationRest.eq_def] at h
      dsimp only at h
      split at h
      · next begins =>
        simp only [Bool.and_eq_true, Bool.or_eq_true] at begins
        obtain ⟨-, rfl⟩ := Reads.ok_iff.mp h
        exact .stop (.declaration begins.1 begins.2)
      · next noDeclaration =>
        simp only [Bool.and_eq_true, Bool.or_eq_true] at noDeclaration
        split at h
        · next closes =>
          obtain ⟨-, rfl⟩ := Reads.ok_iff.mp h
          exact .stop (.closing closes)
        · exact absurd h Reads.not_error
        · next semicolon =>
          obtain ⟨-, rfl⟩ := Reads.ok_iff.mp h
          exact .semicolon semicolon
        · next b opens =>
          obtain ⟨u, mid, shorter, closes, h⟩ := h.of_bind
          refine .group ?_ opens (Group.reads_close_iff.mp ⟨shorter, closes⟩)
            (ih mid.length (Nat.lt_succ_of_lt shorter) h.of_widen rfl)
          rintro (_ | ⟨place, starts⟩ | kind)
          · exact noDeclaration ⟨place, starts⟩
          · simp [opens] at kind
        · next noBrace noClosing noSemicolon noOpening =>
          refine .plain ?_ noSemicolon noOpening noClosing (ih _ (Nat.lt_add_one _) h.of_wider rfl)
          rintro (_ | ⟨place, starts⟩ | kind)
          · exact noDeclaration ⟨place, starts⟩
          · exact noClosing _ kind

theorem DeclarationRest.reads {afterBlock : Bool} {ts rest : List Token}
    (h : DeclarationRest afterBlock ts rest) : Reads (declarationRest afterBlock ts) () rest := by
  induction h with
  | stop ends =>
    rw [declarationRest.eq_def]
    cases ends with
    | nil => exact Reads.ok
    | declaration place starts =>
      dsimp only
      rw [if_pos (by simpa [starts] using place)]
      exact Reads.ok
    | closing kind =>
      dsimp only
      split
      · exact Reads.ok
      · simp only [kind]
        exact Reads.ok
  | @semicolon afterBlock t rest kind =>
    rw [declarationRest.eq_def]
    dsimp only
    have noWord : Modifier.startsDeclaration t = false := by
      simp [Modifier.startsDeclaration, kind, Token.isWordIn]
    simp only [noWord, Bool.and_false, Bool.false_eq_true, ↓reduceIte, kind]
    exact Reads.ok
  | group goesOn opens closes _ ih =>
    rw [declarationRest.eq_def]
    dsimp only
    rw [if_neg]
    · simp only [opens]
      exact (Group.reads_close_iff.mpr closes).bind fun _ => ih.widen
    · simp only [Bool.and_eq_true, Bool.or_eq_true]
      rintro ⟨place, starts⟩
      exact goesOn (.declaration place starts)
  | plain goesOn noSemicolon noOpening noClosing _ ih =>
    rw [declarationRest.eq_def]
    dsimp only
    rw [if_neg]
    · split
      · next kind => exact absurd kind (noClosing _)
      · next kind => exact absurd kind (noClosing _)
      · next kind => exact absurd kind noSemicolon
      · next kind => exact absurd kind (noOpening _)
      · exact ih.wider
    · simp only [Bool.and_eq_true, Bool.or_eq_true]
      rintro ⟨place, starts⟩
      exact goesOn (.declaration place starts)

/-- A declaration is skipped exactly as far as its rest goes. -/
theorem reads_declarationRest_iff {afterBlock : Bool} {ts rest : List Token} :
    Reads (declarationRest afterBlock ts) () rest ↔ DeclarationRest afterBlock ts rest :=
  ⟨declarationRest_of_reads, DeclarationRest.reads⟩

/-- The tokens of a declaration behind its first word, which is `first`. The first word is read
whatever it is, unless it is a closing bracket. -/
inductive Other (first : Token) (ts : List Token) : List Token → Prop
  | semicolon : first.kind = .semicolon → Other first ts ts
  | group {b : Bracket} {u : Token} {mid rest : List Token} :
      first.kind = .opening b → Group.Closes b [] ts u mid →
      DeclarationRest (b == .brace) mid rest →
      Other first ts rest
  | plain {rest : List Token} :
      first.kind ≠ .semicolon → (∀ b, first.kind ≠ .opening b) → (∀ b, first.kind ≠ .closing b) →
      DeclarationRest false ts rest → Other first ts rest

/-- A member that is kept as its first word is that word and the rest of a declaration. -/
theorem reads_other_iff {first : Token} {ts rest : List Token} {m : Member} :
    Reads (other first ts) m rest ↔ m = .other first.text first.span ∧ Other first ts rest := by
  rw [other.eq_def]
  dsimp only
  constructor
  · intro h
    split at h
    · exact absurd h Reads.not_error
    · next kind =>
      obtain ⟨rfl, rfl⟩ := Reads.ok_iff.mp h
      exact ⟨rfl, .semicolon kind⟩
    · next b opens =>
      obtain ⟨u, mid, shorter, closes, h⟩ := h.of_bind
      obtain ⟨_, rest', shorter', more, h⟩ := h.of_bind
      obtain ⟨rfl, rfl⟩ := Reads.ok_iff.mp h
      exact ⟨rfl, .group opens (Group.reads_close_iff.mp ⟨shorter, closes⟩)
        (reads_declarationRest_iff.mp ⟨shorter', more⟩)⟩
    · next noClosing noSemicolon noOpening =>
      obtain ⟨_, rest', shorter, more, h⟩ := h.of_bind
      obtain ⟨rfl, rfl⟩ := Reads.ok_iff.mp h
      exact ⟨rfl, .plain noSemicolon noOpening noClosing
        (reads_declarationRest_iff.mp ⟨shorter, more⟩)⟩
  · rintro ⟨rfl, kind | ⟨opens, closes, more⟩ | ⟨noSemicolon, noOpening, noClosing, more⟩⟩
    · simp only [kind]
      exact Reads.ok
    · simp only [opens]
      exact (Group.reads_close_iff.mpr closes).bind fun _ =>
        (reads_declarationRest_iff.mpr more).bind fun _ => Reads.ok
    · split
      · next kind => exact absurd kind (noClosing _)
      · next kind => exact absurd kind noSemicolon
      · next kind => exact absurd kind (noOpening _)
      · exact (reads_declarationRest_iff.mpr more).bind fun _ => Reads.ok

/-- `Conditional depth ts rest`: the tokens `ts` begin with the rest of a conditional block within
which `depth` further blocks are open. -/
inductive Conditional : Nat → List Token → List Token → Prop
  | last {t word : Token} {rest : List Token} :
      t.kind = .pound → word.isWord "endif" = true → Conditional 0 (t :: word :: rest) rest
  | outer {depth : Nat} {t word : Token} {ts rest : List Token} :
      t.kind = .pound → word.isWord "endif" = true → Conditional depth (word :: ts) rest →
      Conditional (depth + 1) (t :: word :: ts) rest
  | inner {depth : Nat} {t word : Token} {ts rest : List Token} :
      t.kind = .pound → word.isWord "if" = true → Conditional (depth + 1) (word :: ts) rest →
      Conditional depth (t :: word :: ts) rest
  | plain {depth : Nat} {t word : Token} {ts rest : List Token} :
      (t.kind = .pound → word.isWord "if" = false ∧ word.isWord "endif" = false) →
      Conditional depth (word :: ts) rest → Conditional depth (t :: word :: ts) rest

theorem conditional_of_reads {depth : Nat} {ts rest : List Token} {x : Unit}
    (h : Reads (conditional depth ts) x rest) : Conditional depth ts rest := by
  induction ts generalizing depth with
  | nil => exact absurd h Reads.not_error
  | cons t ts ih =>
    cases ts with
    | nil => exact absurd h Reads.not_error
    | cons word ts =>
      rw [conditional.eq_def] at h
      dsimp only at h
      split at h
      · next pound =>
        split at h
        · next opens => exact .inner pound opens (ih h.of_wider)
        · next noIf =>
          split at h
          · next ends =>
            split at h
            · obtain ⟨-, rfl⟩ := Reads.ok_iff.mp h
              exact .last pound ends
            · exact .outer pound ends (ih h.of_wider)
          · next noEnd => exact .plain (fun _ => by simp [noIf, noEnd]) (ih h.of_wider)
      · next noPound => exact .plain (fun pound => absurd pound noPound) (ih h.of_wider)

theorem isWord_if_of_endif {t : Token} (h : t.isWord "endif" = true) : t.isWord "if" = false := by
  simp only [Token.isWord, Bool.and_eq_true, beq_iff_eq] at h
  simp [Token.isWord, h.2]

/-- Every conditional block is skipped up to the word that ends it. -/
theorem Conditional.reads {depth : Nat} {ts rest : List Token} (h : Conditional depth ts rest) :
    Reads (conditional depth ts) () rest := by
  induction h with
  | last pound ends =>
    rw [conditional.eq_def]
    simp only [pound, isWord_if_of_endif ends, ends, ↓reduceIte]
    exact Reads.ok
  | outer pound ends _ ih =>
    rw [conditional.eq_def]
    simp only [pound, isWord_if_of_endif ends, ends, ↓reduceIte]
    exact ih.wider
  | inner pound opens _ ih =>
    rw [conditional.eq_def]
    simp only [pound, opens, ↓reduceIte]
    exact ih.wider
  | plain noDirective _ ih =>
    rw [conditional.eq_def]
    dsimp only
    split
    · next pound =>
      simp only [noDirective pound]
      exact ih.wider
    · exact ih.wider

/-- A conditional block is skipped up to the directive that ends it, blocks within it included. -/
theorem reads_conditional_iff {depth : Nat} {ts rest : List Token} :
    Reads (conditional depth ts) () rest ↔ Conditional depth ts rest :=
  ⟨conditional_of_reads, Conditional.reads⟩

/-- A compiler directive, made of its sign, its name and what follows. -/
inductive Directive : List Token → Member → List Token → Prop
  | conditional {pound name : Token} {ts rest : List Token} :
      pound.kind = .pound → name.kind = .ident → name.text = "if" → Conditional 0 ts rest →
      Directive (pound :: name :: ts) (.other ("#" ++ name.text) pound.span) rest
  | simple {pound name : Token} {closer? : Option Token} {ts rest : List Token} :
      pound.kind = .pound → name.kind = .ident → name.text ≠ "if" →
      Group.Arguments ts closer? rest →
      Directive (pound :: name :: ts) (.other ("#" ++ name.text) pound.span) rest

/-- A directive is read exactly if it is a conditional block, or a word and its arguments. -/
theorem reads_directive_iff {ts rest : List Token} {m : Member} :
    Reads (directive ts) m rest ↔ Directive ts m rest := by
  constructor
  · intro h
    obtain ⟨pound, ts₁, lt₁, hp, h⟩ := h.of_bind
    obtain ⟨name, ts₂, lt₂, hn, h⟩ := h.of_bind
    obtain ⟨rfl, pound⟩ := Token.reads_expect_iff.mp ⟨_, hp⟩
    obtain ⟨rfl, ident⟩ := Token.reads_expect_iff.mp ⟨_, hn⟩
    dsimp only at h
    split at h
    · next isIf =>
      obtain ⟨_, ts₃, lt₃, block, h⟩ := h.of_bind
      obtain ⟨rfl, rfl⟩ := Reads.ok_iff.mp h
      exact .conditional pound ident isIf (reads_conditional_iff.mp ⟨lt₃, block⟩)
    · next noIf =>
      obtain ⟨closer?, ts₃, lt₃, arguments, h⟩ := h.of_bind
      obtain ⟨rfl, rfl⟩ := Reads.ok_iff.mp h
      exact .simple pound ident noIf (Group.reads_skipArguments_iff.mp ⟨lt₃, arguments⟩)
  · rintro (⟨pound, ident, isIf, block⟩ | ⟨pound, ident, noIf, arguments⟩)
    · refine (Token.reads_expect_iff.mpr ⟨rfl, pound⟩).bind fun _ => ?_
      refine (Token.reads_expect_iff.mpr ⟨rfl, ident⟩).bind fun _ => ?_
      dsimp only
      rw [if_pos isIf]
      exact (reads_conditional_iff.mpr block).bind fun _ => Reads.ok
    · refine (Token.reads_expect_iff.mpr ⟨rfl, pound⟩).bind fun _ => ?_
      refine (Token.reads_expect_iff.mpr ⟨rfl, ident⟩).bind fun _ => ?_
      dsimp only
      rw [if_neg noIf]
      exact (Group.reads_skipArguments_iff.mpr arguments).bind fun _ => Reads.ok

end Skipping

end CodableSynthesis
