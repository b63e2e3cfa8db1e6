import CodableSynthesis.Proofs.Grammar.Failures
import CodableSynthesis.Proofs.Progress.Rounds

/-!
The loops of the readers of declarations and types, each with its rounds. The tokens may be of any
kind, well formed or not.

* `Declaration.fileRound`, `Member.bodyRound`: the loops over members, of `parse_source` and of
  `parse_type_decl`.
* `Heading.requirementsRound`: the loop over a `where` clause, up to the brace of the body.
* `TypeExpr.effectsRound`, `TypeExpr.dotsRound`: the effects of a function type, and the dots of a
  variadic parameter.
* `Loop.listed`, `Loop.enclosed`: the loops over bindings, inherited types, patterns and the
  elements of a tuple.
* `Declaration.describes_file` and the like: the readers are the loops of these rounds, and each
  round leaves fewer tokens.

A round is written as the body of the loop stands in the source: what is tested first, what is read,
and whether the loop goes on. It is compared with the reader by unfolding that once; the rest is
that what was read has taken a token.
-/

namespace CodableSynthesis

open Loop (Round Describes)

/-! ### Types -/

namespace TypeExpr

/-- Reads an element of a tuple: its label, its type, and the dots of a variadic parameter. -/
def readElement (ts : List Token) : Loop.Result TupleElement :=
  (outcome (TypeExpr.read (readLabel ts).rest)).map fun p =>
    (.mk (readLabel ts).value p.1, (skipDots p.2).rest)

/-- The dots of a variadic parameter, one a round. -/
def dotsRound : List Token → Round Unit
  | [] => .ended (.ok ((), []))
  | t :: ts =>
    if t.kind = .dot && t.touches then .next id ts else .ended (.ok ((), t :: ts))

/-- The effects of a function type, one a round, with the type in parentheses that touches it. -/
def effectsRound : List Token → Round (List String)
  | [] => .ended (.ok ([], []))
  | t :: ts =>
    if t.isWordIn effectWords then
      match ts with
      | [] => .next (t.text :: ·) []
      | s :: more =>
        if s.kind = .opening .parenthesis && s.touches then
          .after (outcome (TypeExpr.read more)) fun error rest =>
            .after (outcome (Token.expect (.closing .parenthesis) (.closing .parenthesis) rest))
              fun _ rest => .next ((t.text ++ "(" ++ error.render ++ ")") :: ·) rest
        else .next (t.text :: ·) (s :: more)
    else .last (.ok ([], t :: ts))

theorem read_nil : TypeExpr.read [] = .error (.endOfInput .type) := by
  rw [TypeExpr.read, readOperand, readPrimary]
  rfl

/-- An element takes at least one token. -/
theorem readElement_shorter (ts : List Token) (x : TupleElement) (rest : List Token)
    (h : readElement ts = .ok (x, rest)) : rest.length < ts.length := by
  rw [readElement] at h
  cases read : outcome (TypeExpr.read (readLabel ts).rest) with
  | error => rw [read] at h; cases h
  | ok p =>
    rw [read] at h
    cases h
    have label := (readLabel ts).shorter
    have type := shorter_of_outcome read
    have dots := (skipDots p.2).shorter
    omega

theorem describes_elements :
    Describes (Loop.enclosed readElement) fun ts => outcome (readElements ts) where
  unfolds ts := by
    cases ts with
    | nil =>
      rw [readElements, Loop.enclosed, readElement]
      simp only [readLabel, Step.stay_rest, read_nil]
      rfl
    | cons t ts =>
      rw [readElements.eq_def, Loop.enclosed]
      dsimp only
      split
      · rfl
      · rw [Round.result_after, readElement]
        -- What counts is the type behind the label, and what stands behind its dots.
        generalize TypeExpr.read (readLabel (t :: ts)).rest = type
        cases type with
        | error => rfl
        | ok type =>
          simp only [bind, Except.bind, outcome_ok, Except.map]
          generalize skipDots type.rest = dots
          obtain ⟨_, left, _⟩ := dots
          cases left with
          | nil => rfl
          | cons s more =>
            dsimp only [Loop.behindItem]
            split
            · exact outcome_pass (fun _ => rfl) (fun _ => rfl)
            · split <;> rfl
  shortens ts := Loop.enclosed_below readElement_shorter ts

theorem describes_dots : Describes dotsRound fun ts => .ok ((), (skipDots ts).rest) where
  unfolds ts := by
    cases ts with
    | nil => rfl
    | cons t ts =>
      rw [skipDots, dotsRound]
      split <;> rfl
  shortens ts := by
    cases ts with
    | nil => exact trivial
    | cons t ts =>
      rw [dotsRound]
      split
      · exact Nat.lt_add_one _
      · exact trivial

theorem describes_effects : Describes effectsRound fun ts => outcome (readEffects ts) where
  unfolds ts := by
    cases ts with
    | nil =>
      rw [readEffects]
      rfl
    | cons t ts =>
      rw [readEffects.eq_def, effectsRound.eq_def]
      dsimp only
      split
      · cases ts with
        | nil =>
          dsimp only
          rw [Round.result, readEffects]
          rfl
        | cons s more =>
          dsimp only
          split
          · rw [Round.result_after]
            refine outcome_bind fun error rest _ => ?_
            dsimp only
            rw [Round.result_after]
            refine outcome_bind fun _ rest _ => ?_
            exact outcome_pass (fun _ => rfl) (fun _ => rfl)
          · exact outcome_pass (fun _ => rfl) (fun _ => rfl)
      · rfl
  shortens ts := by
    cases ts with
    | nil => exact trivial
    | cons t ts =>
      rw [effectsRound.eq_def]
      dsimp only
      split
      · cases ts with
        | nil => exact Nat.zero_lt_one
        | cons s more =>
          dsimp only
          split
          · refine Round.below_after fun error rest read => ?_
            refine Round.below_after fun _ rest' closed => ?_
            have type := shorter_of_outcome read
            have closer := shorter_of_outcome closed
            show rest'.length < more.length + 1 + 1
            omega
          · exact Nat.lt_add_one _
      · exact trivial

end TypeExpr

/-! ### Properties -/

namespace Pattern

/-- The items of a pattern in parentheses. -/
theorem describes_items :
    Describes (Loop.enclosed fun ts => outcome (Pattern.read ts)) fun ts => outcome (readItems ts)
    where
  unfolds ts := by
    cases ts with
    | nil =>
      rw [readItems, Loop.enclosed, Pattern.read]
      rfl
    | cons t ts =>
      rw [readItems.eq_def, Loop.enclosed]
      dsimp only
      split
      · rfl
      · rw [Round.result_after]
        refine outcome_bind fun item left _ => ?_
        cases left with
        | nil => rfl
        | cons s more =>
          dsimp only [Loop.behindItem]
          split
          · exact outcome_pass (fun _ => rfl) (fun _ => rfl)
          · split <;> rfl
  shortens ts := Loop.enclosed_below (fun _ _ _ => shorter_of_outcome) ts

end Pattern

namespace Variable

variable (attributes : List Attribute) (modifiers : List String) (specifier : Specifier)
  (keyword : Token)

/-- The bindings of a variable declaration: one, and what is read behind it. -/
theorem bindings_read (ts : List Token) :
    (outcome (Variable.read attributes modifiers specifier keyword ts)).map
        (Prod.map Variable.bindings id) =
      outcome (Binding.read ts) >>= fun p =>
        (outcome (Binding.readMore p.2)).map (Prod.map (p.1 :: ·) id) := by
  rw [Variable.read]
  cases Binding.read ts with
  | error => rfl
  | ok first =>
    dsimp only [bind, Except.bind, outcome_ok]
    cases Binding.readMore first.rest <;> rfl

theorem readMore_comma {t : Token} (comma : t.kind = .comma) (ts : List Token) :
    outcome (Binding.readMore (t :: ts)) =
      (outcome (Variable.read attributes modifiers specifier keyword ts)).map
        (Prod.map Variable.bindings id) := by
  rw [Binding.readMore, if_pos comma, bindings_read]
  refine outcome_bind fun b rest _ => ?_
  exact outcome_pass (fun _ => rfl) (fun _ => rfl)

/-- The bindings of a variable declaration, with commas between them. -/
theorem describes_bindings :
    Describes (Loop.listed fun ts => outcome (Binding.read ts)) fun ts =>
      (outcome (Variable.read attributes modifiers specifier keyword ts)).map
        (Prod.map Variable.bindings id) where
  unfolds ts := by
    rw [bindings_read, Loop.listed, Round.result_after]
    refine bind_congr fun (b, rest) => ?_
    cases rest with
    | nil =>
      rw [Binding.readMore]
      rfl
    | cons t more =>
      dsimp only
      split
      · next comma =>
        rw [readMore_comma attributes modifiers specifier keyword comma]
        rfl
      · next noComma =>
        rw [Binding.readMore, if_neg noComma]
        rfl
  shortens ts := Loop.listed_below (fun _ _ _ => shorter_of_outcome) ts

end Variable

/-! ### Headings -/

namespace Heading

/-- Requirements up to the brace that opens the members, a token or a group a round. What the
requirements are is not looked at. -/
def requirementsRound : List Token → Round Unit
  | [] => .last (.error (.endOfInput (.opening .brace)))
  | t :: ts =>
    match t.kind with
    | .opening .brace => .ended (.ok ((), t :: ts))
    | .opening b => .after (outcome (Group.close b [] ts)) fun _ rest => .next id rest
    | _ => .next id ts

/-- The types of an inheritance clause. -/
theorem describes_inherited :
    Describes (Loop.listed fun ts => outcome (TypeExpr.read ts)) fun ts => outcome (readTypes ts)
    where
  unfolds ts := by
    rw [readTypes, Loop.listed, Round.result_after]
    refine outcome_bind fun type left _ => ?_
    cases left with
    | nil => rfl
    | cons t more =>
      dsimp only
      split
      · exact outcome_pass (fun _ => rfl) (fun _ => rfl)
      · rfl
  shortens ts := Loop.listed_below (fun _ _ _ => shorter_of_outcome) ts

/-- The requirements of a `where` clause. -/
theorem describes_requirements :
    Describes requirementsRound fun ts => outcome (skipToBrace ts) where
  unfolds ts := by
    cases ts with
    | nil =>
      rw [skipToBrace]
      rfl
    | cons t ts =>
      rw [skipToBrace.eq_def, requirementsRound]
      cases kind : t.kind with
      | opening b =>
        cases b with
        | brace =>
          simp only [kind]
          rfl
        | parenthesis | square =>
          simp only [kind, Round.result_after, Round.result_next_id]
          exact outcome_bind fun _ rest _ => outcome_widen
      | _ =>
        simp only [kind, Round.result_next_id]
        exact outcome_wider
  shortens ts := by
    cases ts with
    | nil => exact trivial
    | cons t ts =>
      rw [requirementsRound]
      split
      · exact trivial
      · exact Round.below_after fun _ rest closed => Nat.lt_succ_of_lt (shorter_of_outcome closed)
      · exact Nat.lt_add_one _

/-- The loop begins at the word `where` itself, which is passed over in a round of its own. -/
theorem outcome_skipWhereClause {word : Token} (isWhere : word.isWord "where" = true)
    (ts : List Token) :
    outcome (skipWhereClause (word :: ts)) = outcome (skipToBrace (word :: ts)) := by
  have ident : word.kind = .ident := by
    rw [Token.isWord, Bool.and_eq_true, beq_iff_eq] at isWhere
    exact isWhere.1
  have round : requirementsRound (word :: ts) = .next id ts := by
    rw [requirementsRound, ident]
  rw [describes_requirements.unfolds, round, Round.result_next_id, skipWhereClause, if_pos isWhere]
  exact outcome_wider

end Heading

/-! ### Members and files -/

namespace Member

/-- Members up to the brace that closes them, a member or a semicolon a round. The end of the tokens
is an error here. -/
def bodyRound : List Token → Round (List Member × Token)
  | [] => .last (.error (.endOfInput (.closing .brace)))
  | t :: ts =>
    if t.kind = .closing .brace then .last (.ok (([], t), ts))
    else if t.kind = .semicolon then .next id ts
    else .after (outcome (Member.read (t :: ts))) fun m rest => .next (Prod.map (m :: ·) id) rest

/-- The members of a type. -/
theorem describes_body : Describes bodyRound fun ts => outcome (Member.readAll ts) where
  unfolds ts := by
    cases ts with
    | nil =>
      rw [Member.readAll]
      rfl
    | cons t ts =>
      rw [Member.readAll.eq_def, bodyRound]
      dsimp only
      split
      · next closes =>
        rw [if_pos closes]
        rfl
      · next semicolon =>
        rw [if_neg (by rw [semicolon]; nofun), if_pos semicolon, Round.result_next_id]
        exact outcome_wider
      · next noCloser noSemicolon =>
        rw [if_neg noCloser, if_neg noSemicolon, Round.result_after]
        exact outcome_bind fun m rest _ => outcome_pass (fun _ => rfl) (fun _ => rfl)
  shortens ts := by
    cases ts with
    | nil => exact trivial
    | cons t ts =>
      rw [bodyRound]
      split
      · exact trivial
      · split
        · exact Nat.lt_add_one _
        · exact Round.below_after fun _ rest read => shorter_of_outcome read

end Member

namespace Declaration

/-- The members of a file, a member or a semicolon a round. A closing brace outside of any body is
an error of the member. -/
def fileRound : List Token → Round (List Declaration)
  | [] => .ended (.ok ([], []))
  | t :: ts =>
    if t.kind = .semicolon then .next id ts
    else .after (outcome (Member.read (t :: ts))) fun m rest => .next (m.type?.toList ++ ·) rest

/-- The members of a file. -/
theorem describes_file :
    Describes fileRound fun ts => (Declaration.readFile ts).map fun ds => (ds, []) where
  unfolds ts := by
    cases ts with
    | nil =>
      rw [Declaration.readFile]
      rfl
    | cons t ts =>
      by_cases semicolon : t.kind = .semicolon
      · rw [Declaration.readFile, if_pos semicolon, fileRound, if_pos semicolon,
          Round.result_next_id]
      · rw [readFile_cons semicolon, fileRound, if_neg semicolon, Round.result_after]
        cases Member.read (t :: ts) with
        | error => rfl
        | ok s =>
          dsimp only [bind, Except.bind, outcome_ok, Round.result]
          cases Declaration.readFile s.rest <;> rfl
  shortens ts := by
    cases ts with
    | nil => exact trivial
    | cons t ts =>
      rw [fileRound]
      split
      · exact Nat.lt_add_one _
      · exact Round.below_after fun _ rest read => shorter_of_outcome read

end Declaration

end CodableSynthesis
