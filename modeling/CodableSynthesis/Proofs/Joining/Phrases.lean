import CodableSynthesis.Proofs.Joining.Seams

/-!
Types, values and properties in front of a seam.

* `TypeExpr.Spells.grafted`: every phrase of a type is read alike.
* `Skipping.Expression.grafted`: so is a value, if it ends where it did.
* `Variable.Spelled.grafted`: so are the names that a property declares, with their types, values
  and accessors.

Everything here is an induction on the grammar in question. A phrase that ends in the middle of the
tokens keeps the token behind it; one that ends at the seam has to be shown not to go on, and this
is where the conditions on the seam come in. Types need only that the next token begins no type.
Values go on over almost everything, so theirs is the delicate case: a value that ended in front of
an attribute, or of a closing brace, has to end in front of what comes in its place
(`Binding.endsExpression_graft`).

Blocks of accessors and of observers are told apart by looking into them. They end in a brace, so
that what is looked at never lies behind the seam.
-/

namespace CodableSynthesis

variable {all ts mid us rest rest' : List Token} {t : Token}

/-! ### Types -/

namespace TypeExpr

section

variable {p : Phrase}

/-- What is left of a phrase that is not empty stands behind its first token. -/
theorem Spells.tail (h : Spells p (t :: ts) us) (proper : ¬ p.IsOptional) : us <:+ ts :=
  (show Consumes AtAttribute _ _ from h.leaves.2 proper).tail

theorem Spells.ne (h : Spells p ts us) (proper : ¬ p.IsOptional) (inside : rest <:+ us) :
    ts ≠ rest :=
  (show Consumes AtAttribute _ _ from h.leaves.2 proper).ne inside

/-- What is left behind a label and a type stands behind the first token. -/
theorem Label.tail {label : Option String} {type : TypeExpr} (h : Label (t :: ts) label mid)
    (spelled : Spells (.type type) mid us) : us <:+ ts :=
  (show Consumes AtAttribute _ _ from spelled.consumes.behind h.suffix).tail

end

/-- Dots are read alike, as something stands behind them in front of the seam. -/
theorem Dots.grafted (h : Dots ts us) (inside : rest <:+ us) (proper : us ≠ rest) :
    Dots (graft rest rest' ts) (graft rest rest' us) := by
  induction h with
  | stop absent => exact .stop (by rwa [graft_head? inside proper])
  | dot dot touches later ih =>
    rw [graft_cons (inside.trans later.suffix)]
    exact .dot dot touches (ih inside proper)

/-- No type goes on behind a seam that did not. -/
theorem goesOn_graft {before : TypeExpr} (s : Seam all rest rest') (within : us <:+ all)
    (inside : rest <:+ us) (none : ¬ GoesOn before us) : ¬ GoesOn before (graft rest rest' us) := by
  rw [GoesOn, not_or] at none ⊢
  refine ⟨?_, fun starts => none.2 ⟨starts.1, ?_⟩⟩
  · rintro ⟨t, head, mark, touches⟩
    refine s.stops (P := fun t => (t.kind = .question ∨ t.kind = .bang) ∧ t.touches = true) ?_
      inside ?_ t head ⟨mark, touches⟩
    · rintro u begins ⟨mark | mark, -⟩ <;> rcases begins.kind with kind | kind <;>
        rw [mark] at kind <;> cases kind
    · exact fun t head mark => none.1 ⟨t, head, mark⟩
  · by_contra absent
    exact s.not_segment within inside absent starts.2

theorem not_startsGenerics (s : Seam all rest rest') (inside : rest <:+ us)
    (none : ¬ StartsGenerics us) : ¬ StartsGenerics (graft rest rest' us) := by
  rintro ⟨t, head, starts⟩
  refine s.stops (P := fun t => t.kind = .less ∧ t.touches = true) ?_ inside ?_ t head starts
  · rintro u begins ⟨less, -⟩
    rcases begins.kind with kind | kind <;> rw [less] at kind <;> cases kind
  · exact fun u head starts => none ⟨u, head, starts⟩

theorem not_effect (s : Seam all rest rest') (inside : rest <:+ us)
    (none : ∀ u ∈ us.head?, u.isWordIn effectWords = false) :
    ∀ u ∈ (graft rest rest' us).head?, u.isWordIn effectWords = false := by
  have noEffect {u : Token} (begins : u.Begins) : u.isWordIn effectWords = false :=
    begins.not_word (by decide)
  have other := s.stops (P := fun u => u.isWordIn effectWords = true)
    (fun u begins => by simp [noEffect begins]) inside (fun u head => by simp [none u head])
  exact fun u head => by simpa using other u head

theorem startsOperand_congr {us us' : List Token} (same : us'.head? = us.head?) :
    startsOperand us' = startsOperand us := by
  cases us <;> cases us' <;> simp_all [startsOperand]

/-- Behind a keyword that stands alone, no type begins. -/
theorem not_startsOperand (s : Seam all rest rest') (within : t :: us <:+ all)
    (inside : rest <:+ us) (known : t.kind = .ident ∧ operandKeywords.contains t.text = true)
    (none : startsOperand us = false) : startsOperand (graft rest rest' us) = false := by
  by_cases same : us = rest
  · subst same
    rw [graft_self]
    rcases s.head with same | ⟨u, here, v, head, renews⟩
    · rwa [startsOperand_congr same]
    · obtain ⟨more, rfl⟩ := List.head?_eq_some_iff.mp here
      rcases renews.old with sign | ⟨closes, -⟩
      · rw [startsOperand, sign] at none
        cases none
      · have ends := (renews.last t within).2 closes
        rw [List.contains_iff_mem] at known
        simp [Token.reachesOn, Token.isWordIn, known] at ends
  · rwa [startsOperand_congr (graft_head? inside same)]

/-- A label is read alike in front of a type that is. -/
theorem Label.grafted {label : Option String} (h : Label ts label us) (inside : rest <:+ us)
    (none : ts = us → ¬ StartsLabel (graft rest rest' ts)) :
    Label (graft rest rest' ts) label (graft rest rest' us) := by
  cases h with
  | none => exact .none (none rfl)
  | one ident colon =>
    rw [graft_cons (suffix_behind inside), graft_cons inside]
    exact .one ident colon
  | two ident ident' colon =>
    rw [graft_cons (suffix_behind (suffix_behind inside)), graft_cons (suffix_behind inside),
      graft_cons inside]
    exact .two ident ident' colon

/-- An element of a tuple ends in front of a comma or a parenthesis. -/
theorem Dots.head {v : Token} (h : Dots ts (v :: us)) :
    ∀ u ∈ ts.head?, u = v ∨ u.kind = .dot := by
  cases h with
  | stop => rintro _ ⟨⟩; exact .inl rfl
  | dot dot => rintro _ ⟨⟩; exact .inr dot

/-- A label in front of a type that is read alike is read alike: what stands behind the type is no
name and no colon. -/
theorem label_of_type {label : Option String} {type : TypeExpr} {v : Token} {ts₁ ts₂ : List Token}
    (label_ : Label ts label ts₁) (inside : rest <:+ ts₁)
    (spelled : Spells (.type type) (graft rest rest' ts₁) ts₂) (dots : Dots ts₂ (v :: us))
    (kind : v.kind ≠ .ident ∧ v.kind ≠ .colon) :
    Label (graft rest rest' ts) label (graft rest rest' ts₁) := by
  refine label_.grafted inside ?_
  rintro rfl
  refine spelled.not_startsLabel (fun u head => ?_) fun u head => ?_
  · rcases dots.head u head with rfl | dot
    · exact kind.1
    · rw [dot]; nofun
  · rcases dots.head u head with rfl | dot
    · exact kind.2
    · rw [dot]; nofun

/-- A phrase is read alike whatever stands behind the seam. -/
theorem Spells.grafted {p : Phrase} (h : Spells p ts us) (s : Seam all rest rest')
    (within : ts <:+ all) (inside : rest <:+ us) :
    Spells p (graft rest rest' ts) (graft rest rest' us) := by
  induction h with
  | single _ next operand =>
    exact .single (operand within inside) (s.not_kind ⟨nofun, nofun⟩ inside next)
  | composition operand ampersand parts ih ihParts =>
    -- The seam lies behind the ampersand, which is therefore kept.
    have left := inside.trans parts.suffix
    have first := ih within (suffix_behind left)
    rw [graft_cons left] at first
    exact .composition first ampersand
      (ihParts ((List.suffix_cons _ _).trans (operand.suffix.trans within)) inside)
  | lastPart _ next operand =>
    exact .lastPart (operand within inside) (s.not_kind ⟨nofun, nofun⟩ inside next)
  | part operand ampersand parts ih ihParts =>
    have left := inside.trans parts.suffix
    have first := ih within (suffix_behind left)
    rw [graft_cons left] at first
    exact .part first ampersand
      (ihParts ((List.suffix_cons _ _).trans (operand.suffix.trans within)) inside)
  | operand primary marks ih ihMarks =>
    exact .operand (ih within (inside.trans marks.suffix))
      (ihMarks (primary.suffix.trans within) inside)
  | unmarked stops => exact .unmarked (goesOn_graft s within inside stops)
  | optional question touches marks ih =>
    rw [graft_cons (inside.trans marks.suffix)]
    exact .optional question touches (ih ((List.suffix_cons _ _).trans within) inside)
  | implicitlyUnwrapped bang touches marks ih =>
    rw [graft_cons (inside.trans marks.suffix)]
    exact .implicitlyUnwrapped bang touches (ih ((List.suffix_cons _ _).trans within) inside)
  | path dot ident segment marks ih ihMarks =>
    have left := inside.trans marks.suffix
    have behind := (List.suffix_cons _ _).trans within
    have named := ih behind left
    rw [graft_cons (left.trans segment.suffix)]
    rw [graft_cons (left.trans (segment.tail id))] at named ⊢
    exact .path dot ident named (ihMarks (segment.suffix.trans behind) inside)
  | attributed first others operand ih =>
    have behind := inside.trans operand.suffix
    have within' := first.suffix.trans within
    exact .attributed (first.grafted s within (behind.trans others.suffix))
      (others.grafted s within' behind) (ih (others.suffix.trans within') inside)
  | prefixed ident known starts operand ih =>
    have behind := inside.trans operand.suffix
    rw [graft_cons behind]
    -- The operand is not empty, so it begins as before and still follows a keyword.
    have head : (graft rest rest' _).head? = _ := graft_head? behind (operand.ne id inside)
    exact .prefixed ident known ((startsOperand_congr head).trans starts)
      (ih ((List.suffix_cons _ _).trans within) inside)
  | @named segment u ts us ident alone spelled ih =>
    have tail := inside.trans (spelled.tail id)
    have segment' := ih within inside
    rw [graft_cons tail] at segment' ⊢
    refine .named ident (fun known => ?_) segment'
    -- Behind the keyword stands what the segment leaves, or its generic arguments.
    cases spelled with
    | plainSegment => exact not_startsOperand s within inside ⟨ident, known⟩ (alone known)
    | genericSegment _ _ _ arguments =>
      refine (startsOperand_congr (graft_head? tail ?_)).trans (alone known)
      exact cons_ne_of_suffix (inside.trans arguments.suffix)
  | array opens type closes ih =>
    have behind := (suffix_behind inside).trans type.suffix
    have element := ih ((List.suffix_cons _ _).trans within) (suffix_behind inside)
    rw [graft_cons inside] at element
    rw [graft_cons behind]
    exact .array opens element closes
  | dictionary opens key colon value closes ih ihValue =>
    have left := (suffix_behind inside).trans value.suffix
    have within' := (List.suffix_cons _ _).trans within
    have key' := ih within' (suffix_behind left)
    have value' := ihValue ((List.suffix_cons _ _).trans (key.suffix.trans within'))
      (suffix_behind inside)
    rw [graft_cons left] at key'
    rw [graft_cons inside] at value'
    rw [graft_cons ((suffix_behind left).trans key.suffix)]
    exact .dictionary opens key' colon value' closes
  | parenthesized opens inner ih =>
    rw [graft_cons (inside.trans inner.suffix)]
    exact .parenthesized opens (ih ((List.suffix_cons _ _).trans within) inside)
  | plainSegment ident stops =>
    rw [graft_cons inside]
    exact .plainSegment ident (not_startsGenerics s inside stops)
  | genericSegment ident less touches arguments ih =>
    have behind := inside.trans arguments.suffix
    rw [graft_cons (suffix_behind behind), graft_cons behind]
    exact .genericSegment ident less touches
      (ih ((List.suffix_cons _ _).trans ((List.suffix_cons _ _).trans within)) inside)
  | lastArgument type greater ih =>
    have type' := ih within (suffix_behind inside)
    rw [graft_cons inside] at type'
    exact .lastArgument type' greater
  | argument type comma later ih ihLater =>
    have left := inside.trans later.suffix
    have type' := ih within (suffix_behind left)
    rw [graft_cons left] at type'
    exact .argument type' comma
      (ihLater ((List.suffix_cons _ _).trans (type.suffix.trans within)) inside)
  | tuple elements effects next ih ihEffects =>
    exact .tuple (ih within (inside.trans effects.suffix))
      (ihEffects (elements.suffix.trans within) inside) (s.not_kind ⟨nofun, nofun⟩ inside next)
  | function elements effects arrow result ih ihEffects ihResult =>
    have left := inside.trans result.suffix
    have within' := elements.suffix.trans within
    have effects' := ihEffects within' (suffix_behind left)
    rw [graft_cons left] at effects'
    exact .function (ih within ((suffix_behind left).trans effects.suffix)) effects' arrow
      (ihResult ((List.suffix_cons _ _).trans (effects.suffix.trans within')) inside)
  | noElement closes =>
    rw [graft_cons inside]
    exact .noElement closes
  | lastElement opens label type dots closes ih =>
    have left := (suffix_behind inside).trans dots.suffix
    have behind := left.trans type.suffix
    have type' := ih (label.suffix.trans within) left
    have dots' : Dots (graft rest rest' _) (graft rest rest' _) :=
      dots.grafted (suffix_behind inside) (cons_ne_of_suffix inside)
    rw [graft_cons inside] at dots'
    have label' := label_of_type label behind type' dots' (by rw [closes]; exact ⟨nofun, nofun⟩)
    rw [graft_cons (left.trans (label.tail type))] at label' ⊢
    exact .lastElement opens label' type' dots' closes
  | element opens label type dots comma later ih ihLater =>
    have left := inside.trans later.suffix
    have atDots := (suffix_behind left).trans dots.suffix
    have within' := label.suffix.trans within
    have type' := ih within' atDots
    have dots' : Dots (graft rest rest' _) (graft rest rest' _) :=
      dots.grafted (suffix_behind left) (cons_ne_of_suffix left)
    rw [graft_cons left] at dots'
    have label' := label_of_type label (atDots.trans type.suffix) type' dots'
      (by rw [comma]; exact ⟨nofun, nofun⟩)
    have behind := dots.suffix.trans (type.suffix.trans within')
    rw [graft_cons (atDots.trans (label.tail type))] at label' ⊢
    exact .element opens label' type' dots' comma
      (ihLater ((List.suffix_cons _ _).trans behind) inside)
  | noEffect next => exact .noEffect (not_effect s inside next)
  | effect known alone later ih =>
    have behind := inside.trans later.suffix
    rw [graft_cons behind]
    exact .effect known (s.not_arguments behind alone)
      (ih ((List.suffix_cons _ _).trans within) inside)
  | typedEffect known opens touches type closes later ih ihLater =>
    have left := inside.trans later.suffix
    have within' := (List.suffix_cons _ _).trans ((List.suffix_cons _ _).trans within)
    have type' := ih within' (suffix_behind left)
    rw [graft_cons left] at type'
    have behind := (suffix_behind left).trans type.suffix
    rw [graft_cons (suffix_behind behind), graft_cons behind]
    exact .typedEffect known opens touches type' closes
      (ihLater ((List.suffix_cons _ _).trans (type.suffix.trans within')) inside)

end TypeExpr

/-! ### What is skipped -/

/-- Names stand behind the signs in front of a brace if they do in all. -/
theorem Signed.of_front {front : List Token} (h : Signed (front ++ us)) (ends : EndsInBrace front) :
    Signed front := by
  intro sign later suffix kind
  obtain ⟨before, rfl⟩ := suffix
  obtain ⟨n, head, ident⟩ := h sign (later ++ us) ⟨before, by simp⟩ kind
  cases later with
  | cons m later => exact ⟨n, head, ident⟩
  | nil =>
    obtain ⟨last, isLast, closes⟩ := ends
    obtain rfl : sign = last := by simpa using isLast
    rw [kind] at closes
    cases closes

/-- The bracket that closes a group is of the kind that was opened first. -/
theorem Group.Closes.kind {b : Bracket} {outer : List Bracket} {u : Token}
    (h : Group.Closes b outer ts u us) : ∀ c ∈ (b :: outer).getLast?, u.kind = .closing c := by
  induction h with
  | last closes => rintro _ ⟨⟩; exact closes
  | outer _ _ ih => rwa [List.getLast?_cons_cons]
  | inner _ _ ih => rwa [List.getLast?_cons_cons] at ih
  | plain _ _ _ ih => exact ih

/-- What stands behind a block is no part of it. -/
theorem Group.Closes.front {u : Token} (h : Group.Closes .brace [] ts u us) :
    ∃ front, EndsInBrace front ∧ ts = front ++ us := by
  obtain ⟨inner, made⟩ := h.ends_last
  exact ⟨inner ++ [u], ⟨u, by simp, h.kind _ rfl⟩, by simp [made]⟩

namespace Skipping

/-- Whether a block begins with an observer does not depend on what stands behind its end. -/
theorem startsObserver_append (more : List Token) (signed : Signed ts) (ends : EndsInBrace ts) :
    startsObserver (ts ++ more) = startsObserver ts := by
  fun_induction startsObserver ts with
  | case1 sign kind =>
    obtain ⟨_, ⟨⟩, -⟩ := signed sign [] (List.suffix_refl _) kind
  | case2 sign kind n rest ih =>
    obtain ⟨_, ⟨⟩, ident⟩ := signed sign _ (List.suffix_refl _) kind
    rw [List.cons_append, List.cons_append, startsObserver, if_pos kind]
    exact ih signed.tail.tail ((ends.tail (by simp [kind])).tail (by simp [ident]))
  | case3 t rest noSign =>
    rw [List.cons_append, startsObserver.eq_def]
    exact if_neg noSign
  | case4 => obtain ⟨_, _, ⟨⟩⟩ := ends.exists_cons

/-- Whether a block begins with an observer does not depend on what stands behind it. -/
theorem startsObserver_graft {u : Token} (closes : Group.Closes .brace [] ts u us)
    (signed : Signed ts) (inside : rest <:+ us) :
    startsObserver (graft rest rest' ts) = startsObserver ts := by
  obtain ⟨front, ends, rfl⟩ := closes.front
  rw [graft_behind front inside, startsObserver_append _ (signed.of_front ends) ends,
    startsObserver_append _ (signed.of_front ends) ends]

/-- Whether an expression ends depends on its next token, and on the block that it may open. -/
theorem endsExpression_congr {started : Bool} {t : Token} {ts ts' : List Token}
    (block : t.kind = .opening .brace → startsObserver ts' = startsObserver ts) :
    EndsExpression started (t :: ts') ↔ EndsExpression started (t :: ts) := by
  constructor
  · rintro (_ | ⟨begun, newline, starts⟩ | kind | kind | kind | ⟨kind, begun, starts⟩)
    · exact .declaration begun newline starts
    · exact .comma kind
    · exact .semicolon kind
    · exact .closing kind
    · exact .observers kind begun (block kind ▸ starts)
  · rintro (_ | ⟨begun, newline, starts⟩ | kind | kind | kind | ⟨kind, begun, starts⟩)
    · exact .declaration begun newline starts
    · exact .comma kind
    · exact .semicolon kind
    · exact .closing kind
    · exact .observers kind begun ((block kind).trans starts)

/-- An expression is read alike if it ends where it did. -/
theorem Expression.grafted {started : Bool} (h : Expression started ts us)
    (s : Seam all rest rest') (signed : Signed ts) (inside : rest <:+ us)
    (first : ts = us → EndsExpression started us → EndsExpression started (graft rest rest' us))
    (stops : EndsExpression true us → EndsExpression true (graft rest rest' us)) :
    Expression started (graft rest rest' ts) (graft rest rest' us) := by
  induction h with
  | stop ends => exact .stop (first rfl ends)
  | group goesOn opens closes later ih =>
    have behind := inside.trans later.leaves.suffix
    rw [graft_cons (behind.trans closes.suffix)]
    refine .group ((not_congr (endsExpression_congr fun brace => ?_)).mpr goesOn) opens
      (closes.grafted behind)
      (ih (signed.tail.of_suffix closes.suffix) inside (fun _ => stops) stops)
    rw [opens] at brace
    cases brace
    exact startsObserver_graft closes signed.tail behind
  | arguments goesOn opens later ih =>
    obtain ⟨less, touches, closes⟩ := opens
    have behind := inside.trans later.leaves.suffix
    rw [graft_cons (behind.trans closes.suffix)]
    refine .arguments ((not_congr (endsExpression_congr fun brace => ?_)).mpr goesOn)
      ⟨less, touches, closes.grafted behind⟩
      (ih (signed.tail.of_suffix closes.suffix) inside (fun _ => stops) stops)
    rw [less] at brace
    cases brace
  | plain goesOn noOpening noArguments later ih =>
    have behind := inside.trans later.leaves.suffix
    rw [graft_cons behind]
    refine .plain ((not_congr (endsExpression_congr fun brace => ?_)).mpr goesOn) noOpening ?_
      (ih signed.tail inside (fun _ => stops) stops)
    · exact absurd brace (noOpening _)
    · rintro _ ⟨less, touches, closes⟩
      obtain ⟨mid, closes⟩ := s.closesArguments behind closes
      exact noArguments mid ⟨less, touches, closes⟩

theorem endsDeclaration_congr {afterBlock : Bool} {us us' : List Token}
    (same : us'.head? = us.head?) :
    EndsDeclaration afterBlock us' ↔ EndsDeclaration afterBlock us := by
  have only {us us' : List Token} (same : us'.head? = us.head?)
      (ends : EndsDeclaration afterBlock us) : EndsDeclaration afterBlock us' := by
    cases ends with
    | nil =>
      obtain rfl := List.head?_eq_none_iff.mp same
      exact .nil
    | declaration place starts =>
      obtain ⟨_, rfl⟩ := List.head?_eq_some_iff.mp same
      exact .declaration place starts
    | closing kind =>
      obtain ⟨_, rfl⟩ := List.head?_eq_some_iff.mp same
      exact .closing kind
  exact ⟨only same.symm, only same⟩

theorem not_endsDeclaration {afterBlock : Bool} {t : Token} {ts ts' : List Token}
    (goesOn : ¬ EndsDeclaration afterBlock (t :: ts)) : ¬ EndsDeclaration afterBlock (t :: ts') :=
  fun ends => goesOn ((@endsDeclaration_congr _ (t :: ts) (t :: ts') rfl).mp ends)

/-- A declaration that ended in front of the seam ends there again. -/
theorem endsDeclaration_graft {afterBlock : Bool} (s : Seam all rest rest') (inside : rest <:+ us)
    (ends : EndsDeclaration afterBlock us) :
    EndsDeclaration afterBlock (graft rest rest' us) := by
  by_cases same : us = rest
  · subst same
    rw [graft_self]
    rcases s.head with same | ⟨t, here, u, head, renews⟩
    · exact (endsDeclaration_congr same).mpr ends
    · obtain ⟨more, rfl⟩ := List.head?_eq_some_iff.mp here
      obtain ⟨more', rfl⟩ := List.head?_eq_some_iff.mp head
      refine .declaration ?_ renews.begins.startsDeclaration
      cases ends with
      | declaration place starts => exact place.imp_left fun newline => renews.line (.inl newline)
      | closing kind => exact .inl (renews.line (.inr kind))
  · exact (endsDeclaration_congr (graft_head? inside same)).mpr ends

/-- The rest of a declaration is read alike in front of a seam. -/
theorem DeclarationRest.grafted {afterBlock : Bool} (h : DeclarationRest afterBlock ts us)
    (s : Seam all rest rest') (inside : rest <:+ us) :
    DeclarationRest afterBlock (graft rest rest' ts) (graft rest rest' us) := by
  induction h with
  | stop ends => exact .stop (endsDeclaration_graft s inside ends)
  | semicolon kind => rw [graft_cons inside]; exact .semicolon kind
  | group goesOn opens closes later ih =>
    have behind := inside.trans later.suffix
    rw [graft_cons (behind.trans closes.suffix)]
    exact .group (not_endsDeclaration goesOn) opens (closes.grafted behind)
      (ih inside)
  | plain goesOn noSemicolon noOpening noClosing later ih =>
    rw [graft_cons (inside.trans later.suffix)]
    exact .plain (not_endsDeclaration goesOn) noSemicolon noOpening noClosing
      (ih inside)

/-- So is a declaration that is kept as its first word. -/
theorem Other.grafted {first : Token} (h : Other first ts us) (s : Seam all rest rest')
    (inside : rest <:+ us) : Other first (graft rest rest' ts) (graft rest rest' us) := by
  cases h with
  | semicolon kind => exact .semicolon kind
  | group opens closes later =>
    exact .group opens (closes.grafted (inside.trans later.suffix)) (later.grafted s inside)
  | plain noSemicolon noOpening noClosing later =>
    exact .plain noSemicolon noOpening noClosing (later.grafted s inside)

theorem Conditional.tail {depth : Nat} (h : Conditional depth (t :: ts) us) : us <:+ ts :=
  h.consumes.tail

/-- A conditional block is read alike, whatever stands behind it. -/
theorem Conditional.grafted {depth : Nat} (h : Conditional depth ts us) (inside : rest <:+ us) :
    Conditional depth (graft rest rest' ts) (graft rest rest' us) := by
  induction h with
  | last pound ends =>
    rw [graft_cons (suffix_behind inside), graft_cons inside]
    exact .last pound ends
  | outer pound ends later ih =>
    have behind := inside.trans later.tail
    have later' := ih inside
    rw [graft_cons (suffix_behind behind)]
    rw [graft_cons behind] at later' ⊢
    exact .outer pound ends later'
  | inner pound opens later ih =>
    have behind := inside.trans later.tail
    have later' := ih inside
    rw [graft_cons (suffix_behind behind)]
    rw [graft_cons behind] at later' ⊢
    exact .inner pound opens later'
  | plain other later ih =>
    have behind := inside.trans later.tail
    have later' := ih inside
    rw [graft_cons (suffix_behind behind)]
    rw [graft_cons behind] at later' ⊢
    exact .plain other later'

/-- A directive is read alike in front of a seam. -/
theorem Directive.grafted {m : Member} (h : Directive ts m us) (s : Seam all rest rest')
    (inside : rest <:+ us) : Directive (graft rest rest' ts) m (graft rest rest' us) := by
  cases h with
  | conditional pound ident isIf block =>
    have behind := inside.trans block.consumes.suffix
    rw [graft_cons (suffix_behind behind), graft_cons behind]
    exact .conditional pound ident isIf (block.grafted inside)
  | simple pound ident other arguments =>
    have behind := inside.trans arguments.suffix
    rw [graft_cons (suffix_behind behind), graft_cons behind]
    exact .simple pound ident other (arguments.grafted s inside)

end Skipping

/-! ### Properties -/

/-- A pattern is read alike, whatever stands behind it. -/
theorem Pattern.Spells.grafted {p : Phrase} (h : Spells p ts us) (inside : rest <:+ us) :
    Spells p (graft rest rest' ts) (graft rest rest' us) := by
  induction h with
  | name ident => rw [graft_cons inside]; exact .name ident
  | tuple opens items ih =>
    rw [graft_cons (inside.trans items.consumes.suffix)]
    exact .tuple opens (ih inside)
  | noItem closes => rw [graft_cons inside]; exact .noItem closes
  | lastItem opens item closes ih =>
    have item' := ih (suffix_behind inside)
    rw [graft_cons inside, graft_cons ((suffix_behind inside).trans item.consumes.tail)] at item'
    rw [graft_cons ((suffix_behind inside).trans item.consumes.tail)]
    exact .lastItem opens item' closes
  | item opens item comma items ih ihItems =>
    have left := inside.trans items.consumes.suffix
    have item' := ih (suffix_behind left)
    rw [graft_cons left, graft_cons ((suffix_behind left).trans item.consumes.tail)] at item'
    rw [graft_cons ((suffix_behind left).trans item.consumes.tail)]
    exact .item opens item' comma (ihItems inside)

namespace AccessorBlock

/-- What is stepped over in front of an accessor lies in the block. -/
theorem behindModifiers_append (more : List Token) (signed : Signed ts) (ends : EndsInBrace ts) :
    behindModifiers (ts ++ more) = behindModifiers ts ++ more ∧
      EndsInBrace (behindModifiers ts) := by
  fun_induction behindModifiers ts with
  | case1 sign kind =>
    obtain ⟨_, ⟨⟩, -⟩ := signed sign [] (List.suffix_refl _) kind
  | case2 sign kind n rest ih =>
    obtain ⟨_, ⟨⟩, ident⟩ := signed sign _ (List.suffix_refl _) kind
    rw [List.cons_append, List.cons_append, behindModifiers, if_pos kind]
    exact ih signed.tail.tail ((ends.tail (by simp [kind])).tail (by simp [ident]))
  | case3 t rest noSign known ih =>
    rw [List.cons_append, behindModifiers.eq_def]
    dsimp only
    rw [if_neg noSign, if_pos known]
    exact ih signed.tail (ends.tail (by simp [Token.kind_of_isWordIn known]))
  | case4 t rest noSign unknown =>
    rw [List.cons_append, behindModifiers.eq_def]
    dsimp only
    rw [if_neg noSign, if_neg unknown]
    exact ⟨rfl, ends⟩
  | case5 => obtain ⟨_, _, ⟨⟩⟩ := ends.exists_cons

/-- Whether a block begins with an accessor does not depend on what stands behind it. -/
theorem startsAccessor_append (more : List Token) (signed : Signed ts) (ends : EndsInBrace ts) :
    startsAccessor (ts ++ more) = startsAccessor ts := by
  obtain ⟨same, ends⟩ := behindModifiers_append more signed ends
  obtain ⟨u, us, made⟩ := ends.exists_cons
  rw [startsAccessor, startsAccessor, same, made]
  rfl

theorem startsAccessor_graft {u : Token} (closes : Group.Closes .brace [] ts u us)
    (signed : Signed ts) (inside : rest <:+ us) :
    startsAccessor (graft rest rest' ts) = startsAccessor ts := by
  obtain ⟨front, ends, rfl⟩ := closes.front
  rw [graft_behind front inside, startsAccessor_append _ (signed.of_front ends) ends,
    startsAccessor_append _ (signed.of_front ends) ends]

/-- The keywords of a block are those in front of the brace that closes it. -/
theorem keywordsAt_graft {b : Bracket} {outer : List Bracket} {u : Token}
    (h : Group.Closes b outer ts u us) (inside : rest <:+ us) :
    keywordsAt outer.length (graft rest rest' ts) = keywordsAt outer.length ts := by
  induction h with
  | last closes =>
    rw [graft_cons inside]
    unfold keywordsAt
    simp only [closes, List.length_nil]
  | outer closes later ih =>
    rw [graft_cons (inside.trans later.suffix)]
    unfold keywordsAt
    simp only [closes, List.length_cons, ih inside]
  | inner opens later ih =>
    rw [graft_cons (inside.trans later.suffix)]
    unfold keywordsAt
    simp only [opens]
    exact ih inside
  | plain _ _ later ih =>
    rw [graft_cons (inside.trans later.suffix)]
    unfold keywordsAt
    simp only [ih inside]

/-- A block is read alike in front of a seam. -/
theorem Spelled.grafted {block? : Option AccessorBlock} (h : Spelled ts block? us)
    (s : Seam all rest rest') (signed : Signed ts) (inside : rest <:+ us) :
    Spelled (graft rest rest' ts) block? (graft rest rest' us) := by
  cases h with
  | none absent =>
    refine .none ?_
    rintro ⟨t, head, opens⟩
    exact s.not_kind (k := .opening .brace) ⟨nofun, nofun⟩ inside
      (fun u head opens => absent ⟨u, head, opens⟩) t head opens
  | @some t u ts _ opens closes =>
    have same : ofTokens (graft rest rest' ts) = ofTokens ts := by
      rw [ofTokens, ofTokens, startsAccessor_graft closes signed.tail inside,
        show keywordsAt 0 _ = _ from keywordsAt_graft closes inside]
      rfl
    rw [graft_cons (inside.trans closes.suffix), ← same]
    exact .some opens (closes.grafted inside)

end AccessorBlock

namespace Binding

/-- A type behind a colon is read alike in front of a seam. -/
theorem TypeSpelled.grafted {type? : Option TypeExpr} (h : TypeSpelled ts type? us)
    (s : Seam all rest rest') (within : ts <:+ all) (inside : rest <:+ us) :
    TypeSpelled (graft rest rest' ts) type? (graft rest rest' us) := by
  cases h with
  | none absent => exact .none (s.not_kind ⟨nofun, nofun⟩ inside absent)
  | some colon type =>
    rw [graft_cons (inside.trans type.suffix)]
    exact .some colon (type.grafted s ((List.suffix_cons _ _).trans within) inside)

/-- A value that ended in front of the seam ends there again, unless only its equals sign was
read. -/
theorem endsExpression_graft {started : Bool} (s : Seam all rest rest') (inside : rest <:+ us)
    (noBlock : ¬ AccessorBlock.StartsBlock us)
    (begun : started = true ∨ ∃ b : Token, b.kind = .equals ∧ b :: us <:+ all)
    (ends : Skipping.EndsExpression started us) :
    Skipping.EndsExpression started (graft rest rest' us) := by
  have same {us' : List Token} (head : us'.head? = us.head?) :
      Skipping.EndsExpression started us' := by
    cases us with
    | nil =>
      obtain rfl := List.head?_eq_none_iff.mp head
      exact .nil
    | cons t us =>
      obtain ⟨_, rfl⟩ := List.head?_eq_some_iff.mp head
      exact (Skipping.endsExpression_congr fun opens => absurd ⟨t, rfl, opens⟩ noBlock).mpr ends
  by_cases whole : us = rest
  · subst whole
    rw [graft_self]
    rcases s.head with head | ⟨t, here, u, head, renews⟩
    · exact same head
    · obtain ⟨more, rfl⟩ := List.head?_eq_some_iff.mp here
      obtain ⟨more', rfl⟩ := List.head?_eq_some_iff.mp head
      rcases renews.old with sign | ⟨closes, -⟩
      · obtain ⟨begun, newline⟩ : started = true ∧ t.newlineBefore = true := by
          cases ends with
          | declaration begun newline => exact ⟨begun, newline⟩
          | comma kind | semicolon kind | closing kind | observers kind =>
            rw [sign] at kind; cases kind
        exact .declaration begun (renews.line (.inl newline)) renews.begins.startsDeclaration
      · rcases begun with begun | ⟨b, equals, place⟩
        · exact .declaration begun (renews.line (.inr closes)) renews.begins.startsDeclaration
        · have := (renews.last b place).2 closes
          simp [Token.reachesOn, equals] at this
  · exact same (graft_head? inside whole)

/-- A value is read alike in front of a seam, with the block behind it. -/
theorem Initializer.grafted {present : Bool} {block? : Option AccessorBlock} {vs : List Token}
    (h : Initializer ts present us) (block : AccessorBlock.Spelled us block? vs)
    (s : Seam all rest rest') (signed : Signed ts) (within : ts <:+ all) (inside : rest <:+ vs) :
    Initializer (graft rest rest' ts) present (graft rest rest' us) := by
  have left := inside.trans block.leaves.suffix
  cases h with
  | none absent => exact .none (s.not_kind ⟨nofun, nofun⟩ left absent)
  | @some t ts _ equals value =>
    have behind := left.trans value.leaves.suffix
    -- A value ends in front of a block that follows, or of what the seam may change.
    have ends {started : Bool}
        (begun : started = true ∨ ∃ b : Token, b.kind = .equals ∧ b :: us <:+ all)
        (stops : Skipping.EndsExpression started us) :
        Skipping.EndsExpression started (graft rest rest' us) := by
      cases block with
      | none absent => exact endsExpression_graft s left absent begun stops
      | some opens closes =>
        rw [graft_cons (inside.trans closes.suffix)]
        have signed := (signed.tail.of_suffix value.leaves.suffix).tail
        exact (Skipping.endsExpression_congr fun _ =>
          Skipping.startsObserver_graft closes signed inside).mpr stops
    rw [graft_cons behind]
    refine .some equals (value.grafted s signed.tail left ?_ (ends (.inl rfl)))
    rintro rfl
    exact ends (.inr ⟨t, equals, within⟩)

/-- A binding is read alike in front of a seam. -/
theorem Spelled.grafted {b : Binding} (h : Spelled ts b us) (s : Seam all rest rest')
    (signed : Signed ts) (within : ts <:+ all) (inside : rest <:+ us) :
    Spelled (graft rest rest' ts) b (graft rest rest' us) := by
  have tail := h.consumes
  obtain ⟨pattern, type, initializer, accessors⟩ := h
  have behindPattern := pattern.consumes.suffix
  have behindType := type.leaves.suffix.trans behindPattern
  have behindValue := initializer.leaves.suffix.trans behindType
  have atBlock := inside.trans accessors.leaves.suffix
  have atValue := atBlock.trans initializer.leaves.suffix
  have atType := atValue.trans type.leaves.suffix
  have pattern' : Pattern.Spells _ (graft rest rest' _) _ := pattern.grafted atType
  rw [graft_cons (inside.trans tail.tail)] at pattern' ⊢
  exact .mk pattern' (type.grafted s (behindPattern.trans within) atValue)
    (initializer.grafted accessors s (signed.of_suffix behindType) (behindType.trans within) inside)
    (accessors.grafted s (signed.of_suffix behindValue) inside)

/-- So are further bindings. -/
theorem MoreSpelled.grafted {bs : List Binding} (h : MoreSpelled ts bs us) (s : Seam all rest rest')
    (signed : Signed ts) (within : ts <:+ all) (inside : rest <:+ us) :
    MoreSpelled (graft rest rest' ts) bs (graft rest rest' us) := by
  induction h with
  | nil absent => exact .nil (s.not_kind ⟨nofun, nofun⟩ inside absent)
  | cons comma binding later ih =>
    have left := inside.trans later.leaves.suffix
    have within' := (List.suffix_cons _ _).trans within
    rw [graft_cons (left.trans binding.consumes.suffix)]
    exact .cons comma (binding.grafted s signed.tail within' left)
      (ih (signed.tail.of_suffix binding.consumes.suffix) (binding.consumes.suffix.trans within')
        inside)

end Binding

/-- So is a variable declaration. -/
theorem Variable.Spelled.grafted {b : Binding} {bs : List Binding} (h : Spelled ts b bs us)
    (s : Seam all rest rest') (signed : Signed ts) (within : ts <:+ all) (inside : rest <:+ us) :
    Spelled (graft rest rest' ts) b bs (graft rest rest' us) := by
  obtain ⟨first, others⟩ := h
  have behind := first.consumes.suffix
  exact .mk (first.grafted s signed within
      (inside.trans others.leaves.suffix))
    (others.grafted s (signed.of_suffix behind) (behind.trans within) inside)

end CodableSynthesis
