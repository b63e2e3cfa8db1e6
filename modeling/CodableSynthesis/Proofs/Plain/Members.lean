import CodableSynthesis.Proofs.Plain.Classes
import CodableSynthesis.Proofs.Respelling.Classes
import CodableSynthesis.Proofs.Respelling.RoundTrip

/-!
The members of a plain class as tokens. Each line is cut into tokens that are read as one variable
declaration, and what that adds to the field model is known.

* `TypeExpr.isWritten_iff`: the types that are written in sources are those that their canonical
  texts spell.
* `PlainMember.Written`: laid out tokens that are the line of a member.
* `PlainMember.Sound.tokens`: the tokens of one member.
* `members_of_written`: those of all members up to the closing brace.

The four kinds of members have one lemma each, from `written_stored` to `written_inferred`. In each
of them the tokens are written down, their text is compared with the line, and the declaration is
put together from the pieces of the grammar.

A member ends where the next line begins or the class ends. That is not automatic: a type that ends
in `any` or `some` takes the next word for its operand, so `PlainMember.EndsBefore` asks that this
does not happen.
-/

namespace CodableSynthesis

open Lexeme (Spelling Stops)

theorem IsIdentifier.spelling {s : String} (h : IsIdentifier s) : Spelling .ident s.toList := by
  obtain ⟨t, tokens, ident, rfl⟩ := h
  have spelled := (placed_of_tokenize tokens).spelled t (.head _)
  rwa [ident] at spelled

/-- The types that are written in sources are those that their canonical texts spell. -/
theorem TypeExpr.isWritten_iff {t : TypeExpr} : t.IsWritten ↔ t.Buildable := by
  refine ⟨fun ⟨source, ds, read, occurs⟩ => occurs.buildable read, fun buildable => ?_⟩
  obtain ⟨ds, read, d, v, rfl, members, types⟩ := buildable.readSource_specimen
  obtain ⟨b, binding, annotated⟩ := List.mem_map.mp (types ▸ List.mem_singleton_self (some t))
  exact ⟨_, _, read, occursIn_of_annotated (.head _) (by rw [members]; exact .head _) binding
    annotated⟩

/-! ### Lines that end with a number -/

theorem Lexeme.Spelling.digit {d : Char} (digit : d.isDigit = true) : Spelling .number [d] :=
  .number digit (.cons (Literal.isAlphanum_of_isDigit digit) .nil)

theorem AtLineEnd.not_continuesNumber {cs : List Char} (h : AtLineEnd cs) :
    ¬ Literal.ContinuesNumber cs := by
  rintro (⟨c, head, continues⟩ | ⟨d, more, rfl, -⟩)
  · rw [h c head] at continues
    cases continues
  · cases h '.' rfl

/-- A line that ends with a number. -/
theorem Line.sound_of_number {us : List Token} {text : String} {indent : Nat} (nonempty : us ≠ [])
    (cuts : Cuts (lead true us)) (number : Spelling .number text.toList) :
    (Line.mk indent (us ++ [.laid false .number text])).Sound where
  nonempty := by simp
  flat := by
    have front := (sound_of_cuts (l := ⟨indent, us⟩) nonempty cuts).flat
    exact List.forall_mem_append.mpr ⟨front, List.forall_mem_singleton.mpr rfl⟩
  cut {ls cs} ends cut := by
    have last := @Token.cut (.laid false .number text) ls cs number ends.not_continuesNumber cut
    have whole := cuts.cut EndsName.blank last
    simpa [nonempty] using whole

/-! ### Pieces of members

Pieces of the grammar that all four kinds of members share. -/

section

variable {t n u : Token} {ts rest : List Token}

/-- An initializer that is one number. -/
theorem Skipping.Expression.number (kind : t.kind = .number) (ends : EndsExpression true rest) :
    Expression false (t :: rest) rest := by
  refine .plain ?_ (by rw [kind]; nofun) ?_ (.stop ends)
  · intro stops
    cases stops with
    | declaration started | observers _ started => cases started
    | comma same | semicolon same | closing same => rw [kind] at same; cases same
  · rintro _ ⟨less, -⟩
    rw [kind] at less
    cases less

/-- A variable declaration without attributes and modifiers, of one property. -/
theorem LeafSpelled.plain {specifier : Specifier} {keyword : Token} {b : Binding}
    (isSpecifier : Specifier.ofToken? keyword = some specifier)
    (binding : Binding.Spelled ts b rest) (noMore : ∀ u ∈ rest.head?, u.kind ≠ .comma) :
    LeafSpelled (keyword :: ts) (.variable ⟨[], [], specifier, b, [], keyword.span⟩) rest := by
  have kind := Specifier.kind_of_ofToken? isSpecifier
  have front := PrefixSpelled.none kind (@Specifier.not_starts _ ts _ isSpecifier)
  exact .property (by rw [kind]; nofun) front isSpecifier (.mk binding (.nil noMore))

/-- The modifier of a property that belongs to the class. -/
theorem Modifier.AllSpelled.static {specifier : Specifier} {modifier keyword : Token}
    (isStatic : modifier.isWord "static" = true)
    (isSpecifier : Specifier.ofToken? keyword = some specifier) :
    AllSpelled (modifier :: keyword :: ts) ["static"] (keyword :: ts) := by
  have kind := Specifier.kind_of_ofToken? isSpecifier
  obtain ⟨ident, text⟩ : modifier.kind = .ident ∧ modifier.text = "static" := by
    simpa [Token.isWord] using isStatic
  have isModifier : isModifier modifier keyword = true := by
    rw [Modifier.isModifier, kind]
    simp [Token.isWord, Token.isWordIn, ident, text, keywords]
  rw [← text]
  refine .cons isModifier (.none ?_) (.nil (Specifier.not_starts isSpecifier))
  rintro ⟨_, _, _, _, ⟨⟩, opens, -⟩
  rw [kind] at opens
  cases opens

/-- A variable declaration of one property that belongs to the class. -/
theorem LeafSpelled.static {specifier : Specifier} {modifier keyword : Token} {b : Binding}
    (isStatic : modifier.isWord "static" = true)
    (isSpecifier : Specifier.ofToken? keyword = some specifier)
    (binding : Binding.Spelled ts b rest) (noMore : ∀ u ∈ rest.head?, u.kind ≠ .comma) :
    LeafSpelled (modifier :: keyword :: ts)
      (.variable ⟨[], ["static"], specifier, b, [], keyword.span⟩) rest := by
  have ident := Token.kind_of_isWord isStatic
  have attributes :
      Attribute.AllSpelled (modifier :: keyword :: ts) [] (modifier :: keyword :: ts) :=
    .nil (by rintro _ ⟨⟩; rw [ident]; nofun)
  exact .property (by rw [ident]; nofun) (.mk attributes (.static isStatic isSpecifier)) isSpecifier
    (.mk binding (.nil noMore))

end

/-! ### One member -/

/-- The token begins a line of a plain class. It is one of three words, with a line break in
front. -/
structure Token.BeginsLine (t : Token) : Prop where
  ident : t.kind = .ident
  newline : t.newlineBefore = true
  word : t.text ∈ ["let", "var", "static"]

theorem Token.BeginsLine.startsDeclaration {t : Token} (h : t.BeginsLine) :
    Modifier.startsDeclaration t = true := by
  have word := h.word
  simp only [List.mem_cons, List.not_mem_nil, or_false] at word
  rcases word with word | word | word <;>
    simp [Modifier.startsDeclaration, h.ident, Token.isWordIn, word, Modifier.declarationWords,
      Modifier.keywords]

theorem Token.BeginsLine.isPlainName {t : Token} (h : t.BeginsLine) :
    TypeExpr.isPlainName t = true := by
  have word := h.word
  simp only [List.mem_cons, List.not_mem_nil, or_false] at word
  rcases word with word | word | word <;>
    simp [TypeExpr.isPlainName, h.ident, Token.isWordIn, word, TypeExpr.effectWords]

namespace PlainMember

/-- A member ends before the tokens: the class ends there, or a line begins that its type does not
go on with. -/
def EndsBefore (m : PlainMember) (rest : List Token) : Prop :=
  ∃ u us, rest = u :: us ∧ (u.kind = .closing .brace ∨
    u.BeginsLine ∧ ∀ t ∈ m.type?, t.endsInKeyword = false)

/-- What a member adds to the field model, at no place. Places are compared by `Contribution.Same`,
which leaves them out here. -/
def contribution : PlainMember → Contribution
  | stored _ name type optional => .field ⟨name, if optional then .optional type else type⟩
  | constant name => .skipped ⟨name, .typeLevel, 0, 0⟩
  | computed name => .skipped ⟨name, .computed, 0, 0⟩
  | inferred name => .skipped ⟨name, .missingType, 0, 0⟩

/-- The laid out tokens `ts` are the line of a member. -/
structure Written (m : PlainMember) (ts : List Token) : Prop where
  /-- The tokens are laid out as the line. -/
  text : laidText (lead true ts) = m.line.toList
  /-- The line is cut into them. -/
  sound : (Line.mk 4 ts).Sound
  /-- The first of them begins a line. -/
  begins : ∃ t us, fresh ts = t :: us ∧ t.BeginsLine
  /-- They are read as one variable declaration, in front of whatever the member ends before. -/
  spells : ∀ {rest}, m.EndsBefore rest → ∃ v, LeafSpelled (fresh ts ++ rest) (.variable v) rest ∧
    Contribution.ofVariable v = [m.contribution]

namespace EndsBefore

variable {m : PlainMember} {rest : List Token}

theorem expression (h : m.EndsBefore rest) : Skipping.EndsExpression true rest := by
  obtain ⟨u, us, rfl, closes | ⟨begins, -⟩⟩ := h
  · exact .closing closes
  · exact .declaration rfl begins.newline begins.startsDeclaration

theorem kinds (h : m.EndsBefore rest) :
    ∀ u ∈ rest.head?, u.kind ≠ .equals ∧ u.kind ≠ .opening .brace ∧ u.kind ≠ .comma := by
  obtain ⟨u, us, rfl, kind | ⟨begins, -⟩⟩ := h
  · rintro _ ⟨⟩
    rw [kind]
    exact ⟨nofun, nofun, nofun⟩
  · rintro _ ⟨⟩
    rw [begins.ident]
    exact ⟨nofun, nofun, nofun⟩

theorem type (h : m.EndsBefore rest) {t : TypeExpr} (typed : m.type? = some t) :
    TypeExpr.Before t.behindType rest := by
  obtain ⟨u, us, rfl, closes | ⟨begins, apart⟩⟩ := h
  · refine .cons (TypeExpr.behindType_of_stopsType ?_)
    rw [closes]
    rfl
  · refine .cons ?_
    rw [TypeExpr.behindType, begins.isPlainName, apart t typed, Bool.not_false, Bool.and_true,
      Bool.or_true]

theorem noBlock (h : m.EndsBefore rest) : ¬ AccessorBlock.StartsBlock rest := by
  rintro ⟨u, head, opens⟩
  exact (h.kinds u head).2.1 opens

theorem noMore (h : m.EndsBefore rest) : ∀ u ∈ rest.head?, u.kind ≠ .comma :=
  fun u head => (h.kinds u head).2.2

end EndsBefore

theorem colon : (Token.laid true .colon ":").IsMark :=
  ⟨':', by simp, rfl⟩

theorem equals : (Token.laid false .equals "=").IsMark :=
  ⟨'=', by simp, rfl⟩

variable {name : String}

theorem ofName_eq (named : name ≠ "_") : Pattern.ofName name = .identifier name :=
  if_neg named

/-- A stored property: its specifier, its name and its type. -/
theorem written_stored {specifier : Specifier} {type : TypeExpr} {optional : Bool}
    (spelled : Spelling .ident name.toList) (named : name ≠ "_")
    (buildable : TypeExpr.Buildable (if optional then .optional type else type)) :
    ∃ ts, (stored specifier name type optional).Written ts := by
  obtain ⟨us, canonical⟩ := buildable
  have word : Spelling .ident specifier.word.toList := by
    cases specifier <;> exact .word (by decide)
  refine ⟨.laid true .ident specifier.word :: .laid false .ident name :: .laid true .colon ":" ::
    lead false us, ?_, ?_, ?_, ?_⟩
  · have text : TypeExpr.render (if optional then .optional type else type) =
        type.render ++ (if optional then "?" else "") := by
      cases optional <;> simp [TypeExpr.render]
    simp [canonical.text_blank, line, text, String.append_assoc]
  · refine Line.sound_of_cuts (by simp) ?_
    exact .name word (.name spelled (.mark colon (canonical.cuts false)) (.mark colon)) (.blank rfl)
  · refine ⟨_, _, rfl, rfl, rfl, ?_⟩
    cases specifier <;> simp [Specifier.word]
  · intro rest ends
    have type := @canonical.spells false rest (ends.type rfl)
    have isSpecifier :
        Specifier.ofToken? (.begun .ident specifier.word) = some specifier := by
      cases specifier <;> rfl
    have leaf := @LeafSpelled.stored (.laid false .ident name) _ rest specifier _
      (.laid true .colon ":") _ isSpecifier rfl rfl type ends.kinds
    refine ⟨_, leaf, ?_⟩
    simp [Contribution.ofVariable, MemberClass.ofVariable, MemberClass.ofBinding, ofName_eq named,
      Variable.isTypeLevel, Contribution.ofFirst, contribution]

/-- A constant of the class, with its type and a number. -/
theorem written_constant (spelled : Spelling .ident name.toList) (named : name ≠ "_") :
    ∃ ts, (constant name).Written ts := by
  refine ⟨[.laid true .ident "static", .laid false .ident "let", .laid false .ident name,
    .laid true .colon ":", .laid false .ident "Int", .laid false .equals "="] ++
      [.laid false .number "1"], ?_, ?_, ?_, ?_⟩
  · simp [line]
  · refine Line.sound_of_number (by simp) ?_ (by simpa using .digit rfl)
    have front : Cuts [.laid true .colon ":", .laid false .ident "Int", .laid false .equals "="] :=
      .mark colon (.name (.word (by decide)) (.mark equals .nil) (.mark equals))
    exact .name (.word (by decide)) (.name (.word (by decide)) (.name spelled front (.mark colon))
      (.blank rfl)) (.blank rfl)
  · exact ⟨_, _, rfl, rfl, rfl, by simp⟩
  · intro rest ends
    have binding : Binding.Spelled (.laid false .ident name :: .laid true .colon ":" ::
        .laid false .ident "Int" :: .laid false .equals "=" :: .laid false .number "1" :: rest)
          ⟨_, _, _, _, _⟩ rest :=
      .mk (.name rfl) (.some rfl (TypeExpr.spells_name rfl (by decide) (.inl rfl)))
        (.some rfl (.number rfl ends.expression)) (.none ends.noBlock)
    refine ⟨_, @LeafSpelled.static _ _ .let (.begun .ident "static") (.laid false .ident "let") _
      rfl rfl binding ends.noMore, ?_⟩
    simp [Contribution.ofVariable, MemberClass.ofVariable, ofName_eq named, Variable.isTypeLevel,
      Contribution.ofFirst, Contribution.skip, contribution, Pattern.render, Token.laid]

/-- A property with a getter, whose body is a number. -/
theorem written_computed (spelled : Spelling .ident name.toList) (named : name ≠ "_") :
    ∃ ts, (computed name).Written ts := by
  have opens : (Token.laid false (.opening .brace) "\x7b").IsMark := ⟨'\x7b', by simp, rfl⟩
  have closes : (Token.laid false (.closing .brace) "\x7d").IsMark := ⟨'\x7d', by simp, rfl⟩
  refine ⟨[.laid true .ident "var", .laid false .ident name, .laid true .colon ":",
    .laid false .ident "Int", .laid false (.opening .brace) "\x7b", .laid false .number "0",
    .laid false (.closing .brace) "\x7d"], ?_, ?_, ?_, ?_⟩
  · simp [line]
  · refine Line.sound_of_cuts (by simp) ?_
    have block : Cuts [.laid false (.opening .brace) "\x7b", .laid false .number "0",
        .laid false (.closing .brace) "\x7d"] := by
      refine .mark opens (.cons (by simpa using .digit rfl) ?_ (.mark closes .nil))
      rintro cs - (⟨_, ⟨⟩, continues⟩ | ⟨_, _, ⟨⟩, -⟩)
      cases continues
    have type : Cuts (.laid true .colon ":" :: .laid false .ident "Int" :: _) :=
      .mark colon (.name (.word (by decide)) block (.mark opens))
    exact .name (.word (by decide)) (.name spelled type (.mark colon)) (.blank rfl)
  · exact ⟨_, _, rfl, rfl, rfl, by simp⟩
  · intro rest ends
    have closed : Group.Closes .brace [] (.laid false .number "0" ::
        .laid false (.closing .brace) "\x7d" :: rest) _ rest :=
      .plain nofun nofun (.last rfl)
    have binding : Binding.Spelled (.laid false .ident name :: .laid true .colon ":" ::
        .laid false .ident "Int" :: .laid false (.opening .brace) "\x7b" ::
          .laid false .number "0" :: .laid false (.closing .brace) "\x7d" :: rest)
          ⟨_, _, _, some .getter, _⟩ rest :=
      .mk (.name rfl) (.some rfl (TypeExpr.spells_name rfl (by decide) (.inr (.inl rfl))))
        (.none (by rintro _ ⟨⟩; nofun)) (.some rfl closed)
    refine ⟨_, @LeafSpelled.plain _ _ .var (.begun .ident "var") _ rfl binding ends.noMore, ?_⟩
    simp [Contribution.ofVariable, MemberClass.ofVariable, MemberClass.ofBinding, ofName_eq named,
      Variable.isTypeLevel, Contribution.ofFirst, Contribution.skip, contribution, Pattern.render,
      Token.laid]

/-- A property with a number and no type. -/
theorem written_inferred (spelled : Spelling .ident name.toList) (named : name ≠ "_") :
    ∃ ts, (inferred name).Written ts := by
  refine ⟨[.laid true .ident "var", .laid false .ident name, .laid false .equals "="] ++
    [.laid false .number "0"], ?_, ?_, ?_, ?_⟩
  · simp [line]
  · refine Line.sound_of_number (by simp) ?_ (by simpa using .digit rfl)
    exact .name (.word (by decide)) (.name spelled (.mark equals .nil) (.mark equals)) (.blank rfl)
  · exact ⟨_, _, rfl, rfl, rfl, by simp⟩
  · intro rest ends
    have binding : Binding.Spelled (.laid false .ident name :: .laid false .equals "=" ::
        .laid false .number "0" :: rest) ⟨_, _, _, _, _⟩ rest :=
      .mk (.name rfl) (.none (by rintro _ ⟨⟩; nofun)) (.some rfl (.number rfl ends.expression))
        (.none ends.noBlock)
    refine ⟨_, @LeafSpelled.plain _ _ .var (.begun .ident "var") _ rfl binding ends.noMore, ?_⟩
    simp [Contribution.ofVariable, MemberClass.ofVariable, MemberClass.ofBinding, ofName_eq named,
      Variable.isTypeLevel, Contribution.ofFirst, Contribution.skip, contribution, Pattern.render,
      Token.laid]

/-- The line of a sound member, as tokens. -/
theorem Sound.tokens {m : PlainMember} (h : m.Sound) : ∃ ts, m.Written ts := by
  obtain ⟨⟨isName, named⟩, types, -⟩ := h
  have spelled := isName.spelling
  cases m with
  | stored specifier name type optional =>
    exact written_stored spelled named (TypeExpr.isWritten_iff.mp (types _ rfl))
  | constant name => exact written_constant spelled named
  | computed name => exact written_computed spelled named
  | inferred name => exact written_inferred spelled named

end PlainMember

/-! ### All members -/

/-- The lines of sound members, as tokens. -/
theorem PlainMember.exists_written {ms : List PlainMember} (sound : ∀ m ∈ ms, m.Sound) :
    ∃ tss, List.Forall₂ Written ms tss := by
  induction ms with
  | nil => exact ⟨[], .nil⟩
  | cons m ms ih =>
    obtain ⟨here, later⟩ := List.forall_mem_cons.mp sound
    obtain ⟨ts, written⟩ := here.tokens
    obtain ⟨tss, others⟩ := ih later
    exact ⟨ts :: tss, .cons written others⟩

/-- The lines of members, of each but the last with a type that the next line does not go on with,
are those members, up to the brace that closes the class. The induction is on the members; the first
word of the next one is what the type in front of it has to end before. -/
theorem members_of_written {ms : List PlainMember} {tss : List (List Token)} {closer : Token}
    (written : List.Forall₂ PlainMember.Written ms tss) (closes : closer.kind = .closing .brace)
    (apart : ∀ m ∈ ms.dropLast, ∀ t ∈ m.type?, t.endsInKeyword = false) :
    ∃ vs : List Variable, Members (tss.flatMap fresh ++ [closer]) (vs.map .variable) closer [] ∧
      vs.flatMap Contribution.ofVariable = ms.map (·.contribution) := by
  induction written with
  | nil => exact ⟨[], .close closes, rfl⟩
  | @cons m ts ms tss here later ih =>
    obtain ⟨vs, members, contributions⟩ := ih fun m' mem => apart m' (by
      cases ms with
      | nil => cases mem
      | cons => exact .tail _ mem)
    have ends : m.EndsBefore (tss.flatMap fresh ++ [closer]) := by
      cases later with
      | nil => exact ⟨closer, [], rfl, .inl closes⟩
      | @cons next us _ _ there _ =>
        obtain ⟨t, more, made, begins⟩ := there.begins
        refine ⟨t, _, by rw [List.flatMap_cons, made]; rfl, .inr ⟨begins, apart m ?_⟩⟩
        simp
    obtain ⟨v, leaf, contributed⟩ := here.spells ends
    obtain ⟨t, more, made, begins⟩ := here.begins
    rw [List.flatMap_cons, List.append_assoc]
    rw [made, List.cons_append] at leaf ⊢
    have begins : t.BeginsMember := by
      constructor <;> rw [begins.ident] <;> nofun
    refine ⟨v :: vs, .leaf begins leaf members, ?_⟩
    rw [List.flatMap_cons, contributed, contributions, List.map_cons, List.singleton_append]

end CodableSynthesis
