import CodableSynthesis.Proofs.Grammar.Declarations

/-!
Readers stay within the tokens that they are given. What a reader leaves is an end of them, and if
it fails at a token that it does not expect, that is one of them; so the fault of a whole file is at
one of its tokens, or behind them all.

* `StaysIn`: what it means of an outcome.
* `StaysIn.bind`: readers in sequence stay within their tokens if each of them does.
* `Group.close_stays` and the like: every reader does.
* `Declaration.readFile_found`: the faults of whole files.

The grammars say nothing about failures, so this goes through the readers themselves, one after the
other. Each proof follows the recursion of its reader and passes the statement through its
sequences; the mutual readers have mutual proofs.
-/

namespace CodableSynthesis

variable {α β : Type} {m n : Nat} {ts : List Token}

/-- What a reader leaves is an end of the tokens `ts`, and a token that it does not expect is one of
them. The end of the input is always allowed as a fault. -/
inductive StaysIn (ts : List Token) : Reading α n → Prop
  /-- What is left is an end of the tokens. -/
  | ok {s : Step Token α n} : s.rest <:+ ts → StaysIn ts (.ok s)
  /-- A token that is not expected is one of the tokens. -/
  | unexpected {expected : Expectation} {t : Token} :
      t ∈ ts → StaysIn ts (.error (.unexpected expected t))
  /-- The tokens ended where more were expected. -/
  | endOfInput {expected : Expectation} : StaysIn ts (.error (.endOfInput expected))

namespace StaysIn

variable {r : Reading α m} {rest : List Token}

theorem done {x : α} {shorter : ts.length < n} : StaysIn ts (.ok ⟨x, ts, shorter⟩) :=
  .ok (List.suffix_refl _)

theorem behind (h : StaysIn rest r) (suffix : rest <:+ ts) : StaysIn ts r := by
  cases h with
  | ok left => exact .ok (left.trans suffix)
  | unexpected mem => exact .unexpected (suffix.subset mem)
  | endOfInput => exact .endOfInput

theorem cons {t : Token} (h : StaysIn ts r) : StaysIn (t :: ts) r :=
  h.behind (List.suffix_cons _ _)

/-- Readers in sequence, each within what the one before it leaves. -/
theorem bind {f : Step Token α m → Reading β n} (h : StaysIn ts r)
    (later : ∀ x left shorter, StaysIn left (f ⟨x, left, shorter⟩)) : StaysIn ts (r >>= f) := by
  cases h with
  | ok left => exact (later _ _ _).behind left
  | unexpected mem => exact .unexpected mem
  | endOfInput => exact .endOfInput

theorem pass {g : Step Token α m → Step Token β n} (h : StaysIn ts r)
    (left : ∀ s, (g s).rest = s.rest) : StaysIn ts (r >>= fun s => pure (g s)) :=
  h.bind fun _ _ _ => .ok (left _ ▸ List.suffix_refl _)

theorem wider (h : StaysIn ts r) : StaysIn ts (r >>= fun s => pure s.wider) :=
  h.pass fun _ => rfl

theorem widen {bound : m ≤ n} (h : StaysIn ts r) :
    StaysIn ts (r >>= fun s => pure (s.widen bound)) :=
  h.pass fun _ => rfl

end StaysIn

/-- A token that is expected and not found is the next one, or none is left. -/
theorem Token.expect_stays (kind : TokenKind) (expected : Expectation) (ts : List Token) :
    StaysIn ts (expect kind expected ts) := by
  unfold expect
  split
  · exact .endOfInput
  · split
    · exact .cons .done
    · exact .unexpected (.head _)

/-! ### Groups

Where a reader calls itself behind a bracket, what it leaves is an end of an end. -/

namespace Group

theorem close_stays (inner : Bracket) (outer : List Bracket) (ts : List Token) :
    StaysIn ts (close inner outer ts) := by
  fun_induction close inner outer ts with
  | case1 => exact .endOfInput
  | case2 inner outer t ts b _ ih => exact ih.wider.cons
  | case3 => exact .cons .done
  | case4 inner t ts _ next outer ih => exact ih.wider.cons
  | case5 => exact .unexpected (.head _)
  | case6 inner outer t ts _ _ ih => exact ih.wider.cons

theorem skipArguments_stays (ts : List Token) : StaysIn ts (skipArguments ts) := by
  unfold skipArguments
  split
  · exact .done
  · split
    · exact .cons ((close_stays _ _ _).pass fun _ => rfl)
    · exact .done

theorem closeAngle_stays (depth : Nat) (ts : List Token) : StaysIn ts (closeAngle depth ts) := by
  fun_induction closeAngle depth ts with
  | case1 => exact .endOfInput
  | case2 depth t ts _ ih => exact ih.wider.cons
  | case3 => exact .cons .done
  | case4 t ts _ outer ih => exact ih.wider.cons
  | case5 depth t ts _ ih =>
    exact ((close_stays _ _ _).bind fun _ left shorter => (ih left shorter).widen).cons
  | case6 depth t ts _ ih =>
    exact ((close_stays _ _ _).bind fun _ left shorter => (ih left shorter).widen).cons
  | case7 depth t ts _ _ _ _ ih => exact ih.wider.cons

/-- What follows generic arguments is an end of the tokens. -/
theorem afterArguments_suffix {depth : Nat} {ts : List Token} {s : Step Token Unit ts.length}
    (h : afterArguments? depth ts = some s) : s.rest <:+ ts := by
  induction ts generalizing depth with
  | nil => cases h
  | cons t ts ih =>
    have further {depth' : Nat} (h : (afterArguments? depth' ts).map (·.wider) = some s) :
        s.rest <:+ t :: ts := by
      obtain ⟨s', found, rfl⟩ := Option.map_eq_some_iff.mp h
      exact (ih found).trans (List.suffix_cons _ _)
    rw [afterArguments?.eq_def] at h
    dsimp only at h
    split at h
    · exact further h
    · split at h
      · cases h
        exact List.suffix_cons _ _
      · exact further h
    · split at h
      · exact further h
      · cases h

end Group

/-! ### Attributes and modifiers -/

namespace Attribute

theorem readPath_suffix (name : String) (last : Text.Span) (ts : List Token) :
    (readPath name last ts).rest <:+ ts := by
  fun_induction readPath name last ts with
  | case1 | case2 | case4 => exact List.suffix_refl _
  | case3 name last t n rest _ ih =>
    exact ih.trans ((List.suffix_cons _ _).trans (List.suffix_cons _ _))

theorem read_stays (ts : List Token) : StaysIn ts (read ts) := by
  unfold read
  refine (Token.expect_stays _ _ _).bind fun sign left _ => ?_
  refine (Token.expect_stays _ _ _).bind fun first left _ => ?_
  refine StaysIn.behind ?_ (readPath_suffix first.text first.span left)
  exact (Group.skipArguments_stays _).bind fun _ _ _ => .done

theorem readAll_stays (ts : List Token) : StaysIn ts (readAll ts) := by
  fun_induction readAll ts with
  | case1 => exact .done
  | case2 t rest _ ih =>
    exact (read_stays _).bind fun a left shorter => (ih left shorter).pass fun _ => rfl
  | case3 => exact .done

end Attribute

namespace Modifier

theorem skipDetail_suffix (ts : List Token) : (skipDetail ts).rest <:+ ts := by
  unfold skipDetail
  split
  · split
    · exact (List.suffix_cons _ _).trans ((List.suffix_cons _ _).trans (List.suffix_cons _ _))
    · exact List.suffix_refl _
  · exact List.suffix_refl _

theorem readAll_suffix (ts : List Token) : (readAll ts).rest <:+ ts := by
  fun_induction readAll ts with
  | case1 t next rest _ detail left shorter skipped modifiers left' shorter' read ih =>
    rw [read] at ih
    have behind := skipDetail_suffix (next :: rest)
    rw [skipped] at behind
    exact ih.trans (behind.trans (List.suffix_cons _ _))
  | case2 | case3 => exact List.suffix_refl _

end Modifier

/-! ### Types

The readers of types are mutually recursive, and so are these statements; each assumes the others
for fewer tokens, or for the same tokens and a reader further down. -/

namespace TypeExpr

theorem readLabel_suffix (ts : List Token) : (readLabel ts).rest <:+ ts := by
  unfold readLabel
  split
  · split
    · exact (List.suffix_cons _ _).trans (List.suffix_cons _ _)
    · split
      · exact (List.suffix_cons _ _).trans ((List.suffix_cons _ _).trans (List.suffix_cons _ _))
      · exact List.suffix_refl _
  · split
    · exact (List.suffix_cons _ _).trans (List.suffix_cons _ _)
    · exact List.suffix_refl _
  · exact List.suffix_refl _
  · exact List.suffix_refl _

theorem skipDots_suffix (ts : List Token) : (skipDots ts).rest <:+ ts := by
  fun_induction skipDots ts with
  | case1 | case3 => exact List.suffix_refl _
  | case2 t rest _ ih => exact ih.trans (List.suffix_cons _ _)

mutual

theorem read_stays (ts : List Token) : StaysIn ts (TypeExpr.read ts) := by
  rw [TypeExpr.read]
  refine (readOperand_stays ts).bind fun first left shorter => ?_
  cases left with
  | nil => exact .done
  | cons t more =>
    dsimp only
    split
    · exact .cons ((readParts_stays more).pass fun _ => rfl)
    · exact .done
termination_by 8 * ts.length + 5
decreasing_by all_goals (try simp only [List.length_cons] at *); all_goals omega

theorem readParts_stays (ts : List Token) : StaysIn ts (readParts ts) := by
  rw [readParts]
  refine (readOperand_stays ts).bind fun part left shorter => ?_
  cases left with
  | nil => exact .done
  | cons t more =>
    dsimp only
    split
    · exact .cons ((readParts_stays more).pass fun _ => rfl)
    · exact .done
termination_by 8 * ts.length + 5
decreasing_by all_goals (try simp only [List.length_cons] at *); all_goals omega

theorem readOperand_stays (ts : List Token) : StaysIn ts (readOperand ts) := by
  rw [readOperand]
  refine (readPrimary_stays ts).bind fun primary left shorter => ?_
  exact (readMarks_stays primary left).widen
termination_by 8 * ts.length + 4
decreasing_by all_goals omega

theorem readMarks_stays (type : TypeExpr) (ts : List Token) : StaysIn ts (readMarks type ts) := by
  rw [readMarks.eq_def]
  cases ts with
  | nil => exact .done
  | cons t rest =>
    dsimp only
    split
    · exact (readMarks_stays _ rest).wider.cons
    · exact (readMarks_stays _ rest).wider.cons
    · cases type with
      | named path =>
        cases rest with
        | nil => exact .done
        | cons n more =>
          dsimp only
          split
          · refine .cons ((readSegment_stays (n :: more)).bind fun segment left shorter => ?_)
            exact (readMarks_stays _ left).widen
          · exact .done
      | _ => exact .done
    · exact .done
termination_by 8 * ts.length + 1
decreasing_by all_goals simp only [List.length_cons] at *; omega

theorem readPrimary_stays (ts : List Token) : StaysIn ts (readPrimary ts) := by
  rw [readPrimary.eq_def]
  cases ts with
  | nil => exact .endOfInput
  | cons t rest =>
    dsimp only
    split
    · refine (Attribute.read_stays _).bind fun a left₁ shorter₁ => ?_
      refine (Attribute.readAll_stays _).bind fun as left₂ shorter₂ => ?_
      exact (readOperand_stays left₂).pass fun _ => rfl
    · split
      · exact .cons ((readOperand_stays rest).pass fun _ => rfl)
      · exact (readSegment_stays (t :: rest)).pass fun _ => rfl
    · refine .cons ((read_stays rest).bind fun element left shorter => ?_)
      cases left with
      | nil => exact .endOfInput
      | cons s more =>
        dsimp only
        split
        · refine .cons ((read_stays more).bind fun value left shorter => ?_)
          exact (Token.expect_stays _ _ _).pass fun _ => rfl
        · exact (Token.expect_stays _ _ _).pass fun _ => rfl
    · exact (readParenthesized_stays rest).wider.cons
    · exact .unexpected (.head _)
termination_by 8 * ts.length + 3
decreasing_by all_goals simp only [List.length_cons] at *; omega

theorem readSegment_stays (ts : List Token) : StaysIn ts (readSegment ts) := by
  rw [readSegment]
  refine (Token.expect_stays _ _ _).bind fun name left shorter => ?_
  cases left with
  | nil => exact .done
  | cons t more =>
    dsimp only
    split
    · exact .cons ((readArguments_stays more).pass fun _ => rfl)
    · exact .done
termination_by 8 * ts.length + 2
decreasing_by all_goals simp only [List.length_cons] at *; omega

theorem readArguments_stays (ts : List Token) : StaysIn ts (readArguments ts) := by
  rw [readArguments]
  refine (read_stays ts).bind fun argument left shorter => ?_
  cases left with
  | nil => exact .endOfInput
  | cons t more =>
    dsimp only
    split
    · exact .cons ((readArguments_stays more).pass fun _ => rfl)
    · exact (Token.expect_stays _ _ _).pass fun _ => rfl
termination_by 8 * ts.length + 6
decreasing_by all_goals (try simp only [List.length_cons] at *); all_goals omega

theorem readParenthesized_stays (ts : List Token) : StaysIn ts (readParenthesized ts) := by
  rw [readParenthesized]
  refine (readElements_stays ts).bind fun elements left₁ shorter₁ => ?_
  refine (readEffects_stays left₁).bind fun effects left₂ shorter₂ => ?_
  cases left₂ with
  | nil =>
    dsimp only
    split
    · exact .done
    · exact .endOfInput
  | cons t more =>
    dsimp only
    split
    · exact .cons ((read_stays more).pass fun _ => rfl)
    · split
      · exact .done
      · exact .unexpected (.head _)
termination_by 8 * ts.length + 7
decreasing_by all_goals (try simp only [List.length_cons] at *); all_goals omega

theorem readElements_stays (ts : List Token) : StaysIn ts (readElements ts) := by
  rw [readElements.eq_def]
  cases ts with
  | nil => exact .endOfInput
  | cons t rest =>
    dsimp only
    split
    · exact .cons .done
    · have shorter := (readLabel (t :: rest)).shorter
      refine .behind ?_ (readLabel_suffix (t :: rest))
      refine (read_stays _).bind fun type left₂ shorter₂ => ?_
      have shorter₃ := (skipDots left₂).shorter
      refine .behind ?_ (skipDots_suffix left₂)
      generalize skipDots left₂ = dots at shorter₃ ⊢
      obtain ⟨_, left₃, _⟩ := dots
      cases left₃ with
      | nil => exact .endOfInput
      | cons s more =>
        dsimp only
        split
        · exact .cons ((readElements_stays more).pass fun _ => rfl)
        · split
          · exact .cons .done
          · exact .unexpected (.head _)
termination_by 8 * ts.length + 6
decreasing_by all_goals simp only [List.length_cons] at *; omega

theorem readEffects_stays (ts : List Token) : StaysIn ts (readEffects ts) := by
  rw [readEffects.eq_def]
  cases ts with
  | nil => exact .done
  | cons t rest =>
    dsimp only
    split
    · cases rest with
      | nil => exact .cons .done
      | cons s more =>
        dsimp only
        split
        · refine .cons (.cons ((read_stays more).bind fun error left₁ shorter₁ => ?_))
          refine (Token.expect_stays _ _ _).bind fun _ left₂ shorter₂ => ?_
          exact (readEffects_stays left₂).pass fun _ => rfl
        · exact .cons ((readEffects_stays (s :: more)).pass fun _ => rfl)
    · exact .done
termination_by 8 * ts.length + 1
decreasing_by all_goals simp only [List.length_cons] at *; omega

end

end TypeExpr

/-! ### Skipping -/

namespace Skipping

theorem expression_stays (started : Bool) (ts : List Token) :
    StaysIn ts (expression started ts) := by
  fun_induction expression started ts with
  | case1 | case2 | case3 | case4 | case5 | case6 => exact .done
  | case7 started t rest _ b _ _ ih =>
    exact .cons ((Group.close_stays _ _ _).bind fun _ left shorter => (ih left shorter).widen)
  | case8 started t rest _ _ _ left shorter arguments ih =>
    have behind : left <:+ rest := by
      split at arguments
      · exact Group.afterArguments_suffix arguments
      · cases arguments
    exact (ih.widen.behind behind).cons
  | case9 started t rest _ _ _ ih | case10 started t rest _ _ _ _ _ _ ih => exact ih.wider.cons

theorem declarationRest_stays (afterBlock : Bool) (ts : List Token) :
    StaysIn ts (declarationRest afterBlock ts) := by
  fun_induction declarationRest afterBlock ts with
  | case1 | case2 | case3 => exact .done
  | case4 => exact .unexpected (.head _)
  | case5 => exact .cons .done
  | case6 afterBlock t rest _ b _ ih =>
    exact .cons ((Group.close_stays _ _ _).bind fun _ left shorter => (ih left shorter).widen)
  | case7 afterBlock t rest _ _ _ _ _ ih => exact ih.wider.cons

theorem other_stays (first : Token) (ts : List Token) : StaysIn (first :: ts) (other first ts) := by
  unfold other
  dsimp only
  split
  · exact .unexpected (.head _)
  · exact .cons .done
  · refine .cons ((Group.close_stays _ _ _).bind fun _ left _ => ?_)
    exact (declarationRest_stays _ _).pass fun _ => rfl
  · exact .cons ((declarationRest_stays _ _).pass fun _ => rfl)

theorem conditional_stays (depth : Nat) (ts : List Token) : StaysIn ts (conditional depth ts) := by
  fun_induction conditional depth ts with
  | case1 | case2 => exact .endOfInput
  | case3 _ _ _ _ _ _ ih
  | case5 _ _ _ _ _ _ _ ih
  | case6 _ _ _ _ _ _ _ ih
  | case7 _ _ _ _ _ ih => exact ih.wider.cons
  | case4 => exact .cons (.cons .done)

theorem directive_stays (ts : List Token) : StaysIn ts (directive ts) := by
  unfold directive
  refine (Token.expect_stays _ _ _).bind fun pound left _ => ?_
  refine (Token.expect_stays _ _ _).bind fun name left _ => ?_
  dsimp only
  split
  · exact (conditional_stays _ _).pass fun _ => rfl
  · exact (Group.skipArguments_stays _).pass fun _ => rfl

end Skipping

/-! ### Properties -/

namespace Pattern

mutual

theorem read_stays (ts : List Token) : StaysIn ts (Pattern.read ts) := by
  rw [Pattern.read.eq_def]
  cases ts with
  | nil => exact .endOfInput
  | cons t rest =>
    dsimp only
    split
    · exact .cons .done
    · exact .cons ((readItems_stays rest).pass fun _ => rfl)
    · exact .unexpected (.head _)
termination_by 2 * ts.length
decreasing_by all_goals simp only [List.length_cons]; omega

theorem readItems_stays (ts : List Token) : StaysIn ts (readItems ts) := by
  rw [readItems.eq_def]
  cases ts with
  | nil => exact .endOfInput
  | cons t rest =>
    dsimp only
    split
    · exact .cons .done
    · refine (read_stays (t :: rest)).bind fun item left shorter => ?_
      cases left with
      | nil => exact .endOfInput
      | cons s more =>
        dsimp only
        split
        · exact .cons ((readItems_stays more).pass fun _ => rfl)
        · split
          · exact .cons .done
          · exact .unexpected (.head _)
termination_by 2 * ts.length + 1
decreasing_by all_goals simp only [List.length_cons] at *; omega

end

end Pattern

theorem AccessorBlock.read_stays (ts : List Token) : StaysIn ts (read? ts) := by
  unfold read?
  split
  · exact .done
  · split
    · exact .cons ((Group.close_stays _ _ _).pass fun _ => rfl)
    · exact .done

namespace Binding

theorem readType_stays (ts : List Token) : StaysIn ts (readType? ts) := by
  unfold readType?
  split
  · exact .done
  · split
    · exact .cons ((TypeExpr.read_stays _).pass fun _ => rfl)
    · exact .done

theorem skipInitializer_stays (ts : List Token) : StaysIn ts (skipInitializer ts) := by
  unfold skipInitializer
  split
  · exact .done
  · split
    · exact .cons ((Skipping.expression_stays _ _).pass fun _ => rfl)
    · exact .done

theorem read_stays (ts : List Token) : StaysIn ts (read ts) := by
  unfold read
  split
  · exact .endOfInput
  · refine (Pattern.read_stays _).bind fun pattern left₁ _ => ?_
    refine (readType_stays _).bind fun type? left₂ _ => ?_
    refine (skipInitializer_stays _).bind fun hasInitializer left₃ _ => ?_
    exact (AccessorBlock.read_stays _).pass fun _ => rfl

theorem readMore_stays (ts : List Token) : StaysIn ts (readMore ts) := by
  fun_induction readMore ts with
  | case1 | case3 => exact .done
  | case2 t rest _ ih =>
    refine .cons ((read_stays rest).bind fun binding left shorter => ?_)
    exact (ih left shorter).pass fun _ => rfl

end Binding

theorem Variable.read_stays (attributes : List Attribute) (modifiers : List String)
    (specifier : Specifier) (keyword : Token) (ts : List Token) :
    StaysIn ts (read attributes modifiers specifier keyword ts) := by
  unfold read
  refine (Binding.read_stays _).bind fun first left _ => ?_
  exact (Binding.readMore_stays _).pass fun _ => rfl

/-! ### Headings -/

namespace Heading

theorem readTypes_stays (ts : List Token) : StaysIn ts (readTypes ts) := by
  fun_induction readTypes ts with
  | case1 ts ih =>
    refine (TypeExpr.read_stays ts).bind fun type left shorter => ?_
    cases left with
    | nil => exact .done
    | cons t more =>
      dsimp only
      split
      · exact .cons ((ih t more shorter).pass fun _ => rfl)
      · exact .done

theorem readInherited_stays (ts : List Token) : StaysIn ts (readInherited ts) := by
  unfold readInherited
  split
  · exact .done
  · split
    · exact .cons ((readTypes_stays _).pass fun _ => rfl)
    · exact .done

theorem skipGenericClause_stays (ts : List Token) : StaysIn ts (skipGenericClause ts) := by
  unfold skipGenericClause
  split
  · exact .done
  · split
    · exact .cons ((Group.closeAngle_stays _ _).pass fun _ => rfl)
    · exact .done

theorem skipToBrace_stays (ts : List Token) : StaysIn ts (skipToBrace ts) := by
  fun_induction skipToBrace ts with
  | case1 => exact .endOfInput
  | case2 => exact .done
  | case3 t rest b _ _ ih =>
    exact .cons ((Group.close_stays _ _ _).bind fun _ left shorter => (ih left shorter).widen)
  | case4 t rest _ _ ih => exact ih.wider.cons

theorem skipWhereClause_stays (ts : List Token) : StaysIn ts (skipWhereClause ts) := by
  unfold skipWhereClause
  split
  · exact .done
  · split
    · exact (skipToBrace_stays _).wider.cons
    · exact .done

theorem readName_stays (kind : DeclarationKind) (ts : List Token) :
    StaysIn ts (readName kind ts) := by
  unfold readName
  split
  · exact (TypeExpr.read_stays _).pass fun _ => rfl
  · exact (Token.expect_stays _ _ _).pass fun _ => rfl

theorem read_stays (attributes : List Attribute) (modifiers : List String)
    (kind : DeclarationKind) (keyword : Token) (ts : List Token) :
    StaysIn ts (read attributes modifiers kind keyword ts) := by
  unfold read
  refine (readName_stays _ _).bind fun name left₁ _ => ?_
  refine (skipGenericClause_stays _).bind fun _ left₂ _ => ?_
  refine (readInherited_stays _).bind fun inherited left₃ _ => ?_
  exact (skipWhereClause_stays _).pass fun _ => rfl

end Heading

/-! ### Members and files

A member is read where the members before it ended, so everything stays within the tokens of the
file. -/

mutual

theorem Declaration.read_stays (attributes : List Attribute) (modifiers : List String)
    (kind : DeclarationKind) (keyword : Token) (ts : List Token) :
    StaysIn ts (Declaration.read attributes modifiers kind keyword ts) := by
  rw [Declaration.read]
  refine (Heading.read_stays _ _ _ _ _).bind fun heading left₁ shorter₁ => ?_
  refine (Token.expect_stays _ _ _).bind fun opener left₂ shorter₂ => ?_
  exact (Member.readAll_stays left₂).pass fun _ => rfl
termination_by 2 * ts.length
decreasing_by all_goals omega

theorem Member.read_stays (ts : List Token) : StaysIn ts (Member.read ts) := by
  rw [Member.read.eq_def]
  cases ts with
  | nil => exact .endOfInput
  | cons t rest =>
    dsimp only
    split
    · exact Skipping.directive_stays _
    · refine (Attribute.readAll_stays _).bind fun attributes left₁ shorter₁ => ?_
      have shorter₂ := (Modifier.readAll left₁).shorter
      refine .behind ?_ (Modifier.readAll_suffix left₁)
      generalize Modifier.readAll left₁ = front at shorter₂ ⊢
      obtain ⟨modifiers, left₂, _⟩ := front
      cases left₂ with
      | nil => exact .endOfInput
      | cons word left₂ =>
        dsimp only
        split
        · exact .cons ((Declaration.read_stays _ _ _ _ left₂).pass fun _ => rfl)
        · exact .cons ((Variable.read_stays _ _ _ _ _).pass fun _ => rfl)
        · split
          · split
            · exact .done
            · exact .unexpected (.head _)
          · exact (Skipping.other_stays _ _).pass fun _ => rfl
termination_by 2 * ts.length
decreasing_by all_goals simp only [List.length_cons] at *; omega

theorem Member.readAll_stays (ts : List Token) : StaysIn ts (Member.readAll ts) := by
  rw [Member.readAll.eq_def]
  cases ts with
  | nil => exact .endOfInput
  | cons t rest =>
    dsimp only
    split
    · exact .cons .done
    · exact (Member.readAll_stays rest).wider.cons
    · refine (Member.read_stays (t :: rest)).bind fun member left shorter => ?_
      exact (Member.readAll_stays left).pass fun _ => rfl
termination_by 2 * ts.length + 1
decreasing_by all_goals simp only [List.length_cons] at *; omega

end

/-- If a file cannot be read, the token that is not expected is one of it. -/
theorem Declaration.readFile_found {ts : List Token} {expected : Expectation} {t : Token}
    (h : readFile ts = .error (.unexpected expected t)) : t ∈ ts := by
  fun_induction readFile ts with
  | case1 => cases h
  | case2 u rest _ ih => exact .tail _ (ih h)
  | case3 u rest _ ih =>
    have stays := Member.read_stays (u :: rest)
    rcases fails_of_bind h with fault | ⟨⟨member, left, shorter⟩, read, h⟩
    · rw [fault] at stays
      cases stays with
      | unexpected mem => exact mem
    · rw [read] at stays
      cases stays with
      | ok suffix =>
        refine suffix.subset (ih left shorter ?_)
        cases member with
        | type d =>
          rcases fails_of_bind h with fault | ⟨_, -, ⟨⟩⟩
          exact fault
        | «variable» | other => exact h

end CodableSynthesis
