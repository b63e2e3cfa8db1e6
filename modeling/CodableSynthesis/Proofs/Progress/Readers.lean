import CodableSynthesis.Proofs.Grammar.Ends
import CodableSynthesis.Proofs.Progress.Loops
import CodableSynthesis.Proofs.Respelling.Laid

/-!
Readers go forward. What a reader leaves is an end of the tokens it is given, a member that is read
takes at least one of them, and so the loops of the readers end, whatever tokens they are given.

* `Member.AdvancesAt`: what it means that a member takes a token.
* `ReadersForward`: no reader goes back.
* `LoopsBounded`: no loop takes more rounds than there are tokens.
* `readers_advance`: all of this holds.

That a member advances is not the same as that it is well formed. Attributes and modifiers in front
of a closing brace are read as a member without a keyword, and an unknown token is passed over as
one. What is promised is that the token at the beginning is taken, unless it is a closing bracket:
that is what keeps `parse_source` from going round in circles on malformed input.

The second statement is one line per function of the parser that moves the cursor. A reader's type
already says that it leaves no more tokens than it was given; that what it leaves is an end of them,
and not other tokens, has to be proved, and the same for the token that an error names.
-/

namespace CodableSynthesis

variable {t closer : Token} {ts rest : List Token}

/-! ### Members -/

/-- A member that is read at the token `t`, in front of `ts`, takes `t`. Attributes and modifiers in
front of a closing brace are a member as well: none is refused for taking nothing. -/
structure Member.AdvancesAt (t : Token) (ts : List Token) : Prop where
  /-- What is read leaves an end of `ts`. -/
  onward (m : Member) (rest : List Token) : Reads (Member.read (t :: ts)) m rest → rest <:+ ts
  /-- In front of a closing brace the attributes and modifiers alone are a member. -/
  dangling (attributes : List Attribute) (modifiers : List String) (closer : Token)
    (rest : List Token) :
    t.kind ≠ .pound → PrefixSpelled (t :: ts) attributes modifiers (closer :: rest) →
    closer.kind = .closing .brace →
    Reads (Member.read (t :: ts)) (.other closer.text closer.span) (closer :: rest)

/-- In front of a closing brace something stands, unless the brace is all. -/
theorem PrefixSpelled.shorter {attributes : List Attribute} {modifiers : List String}
    (h : PrefixSpelled (t :: ts) attributes modifiers (closer :: rest)) (other : t ≠ closer) :
    rest.length < ts.length := by
  rcases (h.leaves : Leaves AtAttribute _ _) with same | ⟨front, last, made, -⟩
  · exact absurd (List.cons.inj same).1 other
  · have lengths := congrArg List.length made
    simp only [List.length_append, List.length_cons] at lengths
    omega

/-- A member takes the token that it is read at, unless that is a closing bracket. -/
theorem Member.advancesAt (notClosing : ∀ b, t.kind ≠ .closing b) (ts : List Token) :
    Member.AdvancesAt t ts where
  onward m rest read := by
    obtain ⟨shorter, read⟩ := read
    have stays := Member.read_stays (t :: ts)
    rw [read] at stays
    cases stays with
    | ok left =>
      rcases List.suffix_cons_iff.mp left with rfl | left
      · exact absurd shorter (Nat.lt_irrefl _)
      · exact left
  dangling attributes modifiers closer rest noPound front closes := by
    have other : t ≠ closer := by
      rintro rfl
      exact notClosing _ closes
    exact (LeafSpelled.dangling noPound front closes (front.shorter other)).reads

/-! ### Readers -/

/-- What the reader leaves is an end of the tokens it is given, and if it does not expect a token,
it is one of these. For the loops this is more than the length: it is the same list, further on. -/
def GoesForward {α : Type} {bound : List Token → Nat}
    (read : (ts : List Token) → Reading α (bound ts)) : Prop :=
  ∀ ts, StaysIn ts (read ts)

/-- No reader goes back. There is one line for each function of the parser that moves its cursor,
those included that only pass over something. -/
structure ReadersForward : Prop where
  oneAttribute : GoesForward Attribute.read
  attributes : GoesForward Attribute.readAll
  modifiers : GoesForward fun ts => .ok (Modifier.readAll ts)
  detail : GoesForward fun ts => .ok (Modifier.skipDetail ts)
  member : GoesForward Member.read
  members : GoesForward Member.readAll
  declaration (attributes : List Attribute) (modifiers : List String) (kind : DeclarationKind)
    (keyword : Token) : GoesForward (Declaration.read attributes modifiers kind keyword)
  heading (attributes : List Attribute) (modifiers : List String) (kind : DeclarationKind)
    (keyword : Token) : GoesForward (Heading.read attributes modifiers kind keyword)
  property (attributes : List Attribute) (modifiers : List String) (specifier : Specifier)
    (keyword : Token) : GoesForward (Variable.read attributes modifiers specifier keyword)
  binding : GoesForward Binding.read
  pattern : GoesForward Pattern.read
  accessors : GoesForward AccessorBlock.read?
  type : GoesForward TypeExpr.read
  operand : GoesForward TypeExpr.readOperand
  primary : GoesForward TypeExpr.readPrimary
  segment : GoesForward TypeExpr.readSegment
  parenthesized : GoesForward TypeExpr.readParenthesized
  label : GoesForward fun ts => .ok (TypeExpr.readLabel ts)
  dots : GoesForward fun ts => .ok (TypeExpr.skipDots ts)
  effects : GoesForward TypeExpr.readEffects
  group (inner : Bracket) (outer : List Bracket) : GoesForward (Group.close inner outer)
  arguments : GoesForward Group.skipArguments
  angle (depth : Nat) : GoesForward (Group.closeAngle depth)
  generics (depth : Nat) (ts : List Token) (s : Step Token Unit ts.length) :
    Group.afterArguments? depth ts = some s → s.rest <:+ ts
  expression (started : Bool) : GoesForward (Skipping.expression started)
  other (first : Token) (ts : List Token) : StaysIn (first :: ts) (Skipping.other first ts)
  directive : GoesForward Skipping.directive

/-- Each of them was shown to stay in its tokens along with its grammar. -/
theorem readersForward : ReadersForward where
  oneAttribute := Attribute.read_stays
  attributes := Attribute.readAll_stays
  modifiers ts := .ok (Modifier.readAll_suffix ts)
  detail ts := .ok (Modifier.skipDetail_suffix ts)
  member := Member.read_stays
  members := Member.readAll_stays
  declaration := Declaration.read_stays
  heading := Heading.read_stays
  property := Variable.read_stays
  binding := Binding.read_stays
  pattern := Pattern.read_stays
  accessors := AccessorBlock.read_stays
  type := TypeExpr.read_stays
  operand := TypeExpr.readOperand_stays
  primary := TypeExpr.readPrimary_stays
  segment := TypeExpr.readSegment_stays
  parenthesized := TypeExpr.readParenthesized_stays
  label ts := .ok (TypeExpr.readLabel_suffix ts)
  dots ts := .ok (TypeExpr.skipDots_suffix ts)
  effects := TypeExpr.readEffects_stays
  group := Group.close_stays
  arguments := Group.skipArguments_stays
  angle := Group.closeAngle_stays
  generics _ _ _ := Group.afterArguments_suffix
  expression := Skipping.expression_stays
  other := Skipping.other_stays
  directive := Skipping.directive_stays

/-! ### Loops -/

/-- No loop takes more rounds than there are tokens: with so many rounds it gives what the reader
gives. A loop that has to read something counts the token in front of it, which is a keyword, a
name, a colon or an opening bracket that was read already; the loop over requirements begins at the
word `where`, behind the name of the declaration. -/
structure LoopsBounded : Prop where
  /-- The loop of a file, which may be left at once. -/
  file (ts : List Token) : Loop.within Declaration.fileRound ts.length ts =
    some ((Declaration.readFile ts).map fun ds => (ds, []))
  /-- The loop behind the colon of a heading. -/
  inherited (colon : Token) (ts : List Token) :
    Loop.within (Loop.listed fun us => outcome (TypeExpr.read us)) (colon :: ts).length ts =
      some (outcome (Heading.readTypes ts))
  /-- The loop that begins at the word `where`. -/
  requirements (name word : Token) (ts : List Token) : word.isWord "where" = true →
    Loop.within Heading.requirementsRound (name :: word :: ts).length (word :: ts) =
      some (outcome (Heading.skipWhereClause (word :: ts)))
  /-- The loop behind an opening brace. -/
  members (opener : Token) (ts : List Token) :
    Loop.within Member.bodyRound (opener :: ts).length ts = some (outcome (Member.readAll ts))
  /-- The loop behind `let` or `var`. -/
  bindings (attributes : List Attribute) (modifiers : List String) (specifier : Specifier)
    (keyword : Token) (ts : List Token) :
    Loop.within (Loop.listed fun us => outcome (Binding.read us)) (keyword :: ts).length ts =
      some ((outcome (Variable.read attributes modifiers specifier keyword ts)).map
        (Prod.map Variable.bindings id))
  /-- The loop of a pattern in parentheses. -/
  items (opener : Token) (ts : List Token) :
    Loop.within (Loop.enclosed fun us => outcome (Pattern.read us)) (opener :: ts).length ts =
      some (outcome (Pattern.readItems ts))
  /-- The loop of a type in parentheses. -/
  elements (opener : Token) (ts : List Token) :
    Loop.within (Loop.enclosed TypeExpr.readElement) (opener :: ts).length ts =
      some (outcome (TypeExpr.readElements ts))
  /-- The loop over the dots of a parameter. -/
  dots (ts : List Token) : Loop.within TypeExpr.dotsRound ts.length ts =
    some (.ok ((), (TypeExpr.skipDots ts).rest))
  /-- The loop over the effects of a function. -/
  effects (ts : List Token) : Loop.within TypeExpr.effectsRound ts.length ts =
    some (outcome (TypeExpr.readEffects ts))

/-- The bound holds for every loop, because each is described by its rounds. -/
theorem loopsBounded : LoopsBounded where
  file := Declaration.describes_file.within_length ⟨_, rfl⟩
  inherited := Heading.describes_inherited.within_cons
  requirements name word ts isWhere := by
    rw [Heading.outcome_skipWhereClause isWhere]
    exact Heading.describes_requirements.within_cons name (word :: ts)
  members := Member.describes_body.within_cons
  bindings attributes modifiers specifier keyword :=
    (Variable.describes_bindings attributes modifiers specifier keyword).within_cons keyword
  items := Pattern.describes_items.within_cons
  elements := TypeExpr.describes_elements.within_cons
  dots := TypeExpr.describes_dots.within_length ⟨_, rfl⟩
  effects := TypeExpr.describes_effects.within_length ⟨_, rfl⟩

/-- Readers go forward: a member takes the token that it is read at, unless that is a closing
bracket, no reader goes back, and no loop takes more rounds than there are tokens. The tokens are
any list; they need not come from a source, and brackets among them need not match. -/
theorem readers_advance :
    (∀ t ts, (∀ b, t.kind ≠ .closing b) → Member.AdvancesAt t ts) ∧
      ReadersForward ∧ LoopsBounded :=
  ⟨fun _ ts notClosing => Member.advancesAt notClosing ts, readersForward, loopsBounded⟩

/-- `@objc }` -/
def danglingAttribute : List Token :=
  [.laid false .atSign "@", .laid true .ident "objc", .laid false (.closing .brace) "\x7d"]

/-- The first part at an attribute in front of a closing brace. -/
theorem readers_advance_dangling :
    (∀ b, (Token.laid false .atSign "@").kind ≠ .closing b) ∧
      Reads (Member.read danglingAttribute) (.other "\x7d" ⟨0, 0, 0, 0⟩)
        [.laid false (.closing .brace) "\x7d"] ∧
      [.laid false (.closing .brace) "\x7d"] <:+ danglingAttribute.tail := by
  have notClosing : ∀ b, (Token.laid false .atSign "@").kind ≠ .closing b := nofun
  have attributes : Attribute.AllSpelled danglingAttribute [⟨"objc", ⟨0, 0, 0, 0⟩, ⟨0, 0, 0, 0⟩⟩]
      [.laid false (.closing .brace) "\x7d"] :=
    .cons (Attribute.reads_read_iff.mp ⟨_, rfl⟩) (.nil (by rintro _ ⟨⟩; nofun))
  have modifiers : Modifier.AllSpelled [.laid false (.closing .brace) "\x7d"] []
      [.laid false (.closing .brace) "\x7d"] :=
    .nil (by rintro ⟨_, _, _, ⟨⟩, -⟩)
  obtain ⟨onward, dangling⟩ := readers_advance.1 _ danglingAttribute.tail notClosing
  have read := dangling _ _ (.laid false (.closing .brace) "\x7d") [] nofun
    (.mk attributes modifiers) rfl
  exact ⟨notClosing, read, onward _ _ read⟩

end CodableSynthesis
