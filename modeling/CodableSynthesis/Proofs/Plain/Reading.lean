import CodableSynthesis.Proofs.Joining.Sources
import CodableSynthesis.Proofs.Plain.Members
import CodableSynthesis.Proofs.Printing.Members

/-!
How a plain class is read. Its text is laid out in lines, so that its tokens are known, and with
them the places where the edits of its expansion are made.

* `PlainClass.Front`: the tokens of the attribute and of the heading, and where they stand.
* `PlainClass.Sound.tokenize_source`: the tokens of a plain class, each at its place.
* `PlainClass.Becomes`: the declaration that a plain class is.
* `PlainClass.Sound.readSource`: it is what is read of the class.

Places matter at five points only: the attribute, the keyword, the two braces and the end of the
text. Everything in between is compared up to its place, so the members are read from tokens that
are not placed, and `Member.Same` carries that over to the placed ones.

The heading is read from its tokens, step by step as `parse_type_decl` does it: the attribute, the
modifier, the keyword, the name, and the brace. That the keyword is not taken for a modifier is
where the name of the class matters.
-/

namespace CodableSynthesis

open Lexeme (Spelling)
open Text (Position Span byteLength byteLength_append)

/-! ### Tokens at their places

From laid out tokens to tokens of a text. A token stands where the texts of the lexemes in front of
it end. -/

/-- A lexeme as a token, its gap beginning at `p`. -/
def Lexeme.placed (p : Position) (l : Lexeme) : Token :=
  ⟨l.kind, String.ofList l.text, .between (p.advance l.gap.text) (p.advance l.whole),
    l.gap.crossed, l.gap.text.isEmpty⟩

section

variable {p : Position} {l : Lexeme} {ls : List Lexeme}

theorem Token.place_cons : place p (l :: ls) = l.placed p :: place (p.advance l.whole) ls := by
  rw [place, Lexeme.placed, Lexeme.whole, Position.advance_append]

theorem Lexeme.placed_start {before : List Char} :
    (l.placed (Position.start.advance before)).span.start = byteLength (before ++ l.gap.text) := by
  rw [← Rest.offset_start, Position.advance_append]
  rfl

theorem Lexeme.placed_stop {before : List Char} :
    (l.placed (Position.start.advance before)).span.stop = byteLength (before ++ l.whole) := by
  rw [← Rest.offset_start, Position.advance_append]
  rfl

theorem flatMap_whole_lexemes (us : List Token) :
    (us.map Token.lexeme).flatMap Lexeme.whole = laidText us := by
  rw [List.flatMap_map, laidText]
  refine List.flatMap_congr fun t _ => ?_
  rw [Lexeme.whole, Token.lexeme]
  cases t.touches <;> rfl

theorem Line.flatMap_whole_lexemes {l : Line} (nonempty : l.tokens ≠ []) :
    l.lexemes.flatMap Lexeme.whole = '\n' :: l.text := by
  obtain ⟨indent, tokens⟩ := l
  cases tokens with
  | nil => exact absurd rfl nonempty
  | cons t ts =>
    rw [lexemes, List.flatMap_cons, CodableSynthesis.flatMap_whole_lexemes]
    simp [Lexeme.whole, text, lead_cons, Token.chars]

theorem Line.flatMap_whole_lines {ls : List Line} (nonempty : ∀ l ∈ ls, l.tokens ≠ []) :
    (ls.flatMap Line.lexemes).flatMap Lexeme.whole = Line.join ls := by
  rw [List.flatMap_assoc, join]
  exact List.flatMap_congr fun l mem => l.flatMap_whole_lexemes (nonempty l mem)

end

/-! ### The heading -/

/-- The line of the attribute. -/
def attributeTokens : List Token :=
  [.laid true .atSign "@", .laid true .ident "Codable"]

theorem cuts_attributeTokens : Cuts attributeTokens :=
  .mark ⟨'@', by simp, rfl⟩ (.name (.word (by decide)) .nil fun _ => id)

namespace PlainClass

variable {c : PlainClass}

/-- The line of the heading. -/
def headingTokens (c : PlainClass) : List Token :=
  c.modifier.toList.map (Token.laid false .ident ·) ++
    [.laid false .ident "class", .laid false .ident c.name, .laid false (.opening .brace) "\x7b"]

theorem isWord_of_modifier {m : String} (h : m ∈ Modifier.keywords) : isWord m = true := by
  have all : Modifier.keywords.all isWord = true := by decide +kernel
  exact List.all_eq_true.mp all m h

theorem headingTokens_ne_nil : c.headingTokens ≠ [] := by
  simp [headingTokens]

theorem laidText_headingTokens : laidText (lead true c.headingTokens) = c.headingLine.toList := by
  unfold headingTokens headingLine modified
  cases c.modifier <;> simp

theorem Sound.cuts_headingTokens (h : c.Sound) : Cuts (lead true c.headingTokens) := by
  have brace : (Token.laid false (.opening .brace) "\x7b").IsMark := ⟨'\x7b', by simp, rfl⟩
  have behind (b : Bool) : Cuts [.laid b .ident "class", .laid false .ident c.name,
      .laid false (.opening .brace) "\x7b"] :=
    .name (.word (by decide)) (.name h.name.spelling (.mark brace .nil) (.mark brace)) (.blank rfl)
  unfold headingTokens
  cases modifier : c.modifier with
  | none => exact behind true
  | some m =>
    exact .name (.word (isWord_of_modifier (h.modifier m modifier))) (behind false) (.blank rfl)

/-- The modifier of the class as a lexeme, if it has one. -/
def modifierLexeme? (c : PlainClass) : Option Lexeme :=
  c.modifier.map fun m => ⟨⟨['\n'], true⟩, .ident, m.toList⟩

/-- The keyword as a lexeme: it begins a line, or stands behind the modifier. -/
def keywordLexeme (c : PlainClass) : Lexeme :=
  ⟨if c.modifier.isSome then ⟨[' '], false⟩ else ⟨['\n'], true⟩, .ident, "class".toList⟩

/-- The lexemes of the attribute and of the modifier. -/
def modifierLexemes (c : PlainClass) : List Lexeme :=
  attributeTokens.map Token.lexeme ++ c.modifierLexeme?.toList

/-- The lexemes behind the keyword. -/
def nameLexemes (c : PlainClass) : List Lexeme :=
  [⟨⟨[' '], false⟩, .ident, c.name.toList⟩, ⟨⟨[' '], false⟩, .opening .brace, ['\x7b']⟩]

/-- The lexemes up to the brace, in two parts around the keyword. -/
theorem lexemes_heading :
    attributeTokens.map Token.lexeme ++ (Line.mk 0 c.headingTokens).lexemes =
      c.modifierLexemes ++ c.keywordLexeme :: c.nameLexemes := by
  unfold modifierLexemes modifierLexeme? keywordLexeme headingTokens Line.lexemes
  cases c.modifier <;> rfl

/-- The text up to the opening brace. -/
def frontText (c : PlainClass) : List Char :=
  "@Codable\n".toList ++ c.headingLine.toList

theorem source_keyword : c.modifierLexemes.flatMap Lexeme.whole ++ c.keywordLexeme.gap.text =
    "@Codable\n".toList ++ (c.modified "").toList := by
  unfold modifierLexemes modifierLexeme? keywordLexeme modified
  cases c.modifier <;> simp [attributeTokens, Token.lexeme, Lexeme.whole, Gap.none]

theorem source_heading :
    (c.modifierLexemes ++ c.keywordLexeme :: c.nameLexemes).flatMap Lexeme.whole =
      c.frontText := by
  unfold modifierLexemes modifierLexeme? keywordLexeme frontText headingLine modified
  cases c.modifier <;> simp [attributeTokens, Token.lexeme, Lexeme.whole, Gap.none, nameLexemes]

/-- The tokens of the attribute and of the heading, and where they stand. Only the places that edits
are made at are given. -/
structure Front (c : PlainClass) (sign word : Token) (modifier? : Option Token)
    (keyword name opener : Token) : Prop where
  /-- The attribute begins the text. -/
  sign : sign.kind = .atSign ∧ sign.span.start = 0
  /-- Its name ends the first line. -/
  word : word.kind = .ident ∧ word.text = "Codable" ∧ word.span.stop = 8
  /-- The modifier is that of the class. -/
  modifier : modifier?.map (·.text) = c.modifier ∧ ∀ m ∈ modifier?, m.kind = .ident
  /-- The keyword stands behind the modifier. -/
  keyword : keyword.kind = .ident ∧ keyword.text = "class" ∧
    keyword.span.start = byteLength ("@Codable\n".toList ++ (c.modified "").toList)
  /-- The name is that of the class. -/
  name : name.kind = .ident ∧ name.text = c.name
  /-- The brace ends the line. -/
  opener : opener.kind = .opening .brace ∧ opener.span.stop = byteLength c.frontText

/-- The tokens in front of the keyword. -/
theorem place_modifierLexemes (c : PlainClass) : ∃ sign word modifier?,
    Token.place .start c.modifierLexemes = sign :: word :: Option.toList modifier? ∧
      (sign.kind = .atSign ∧ sign.span.start = 0) ∧
      (word.kind = .ident ∧ word.text = "Codable" ∧ word.span.stop = 8) ∧
      modifier?.map (·.text) = c.modifier ∧ ∀ m ∈ modifier?, m.kind = .ident := by
  let sign := (Token.laid true .atSign "@").lexeme.placed .start
  let word := (Token.laid true .ident "Codable").lexeme.placed (Position.start.advance ['@'])
  have front : Token.place .start (attributeTokens.map Token.lexeme) = [sign, word] := rfl
  rw [modifierLexemes, Token.place_append, front]
  generalize Position.advance .start _ = p
  refine ⟨sign, word, c.modifierLexeme?.map (·.placed p), ?_, ⟨rfl, rfl⟩, ⟨rfl, rfl, rfl⟩, ?_⟩
  · unfold modifierLexeme?
    cases c.modifier <;> rfl
  · unfold modifierLexeme?
    cases c.modifier with
    | none => exact ⟨rfl, nofun⟩
    | some m =>
      refine ⟨by simp [Lexeme.placed], ?_⟩
      rintro _ ⟨⟩
      rfl

/-- The tokens of the attribute and of the heading, in front of others. -/
theorem place_heading (c : PlainClass) (ls : List Lexeme) :
    ∃ sign word modifier? keyword name opener,
      Token.place .start (c.modifierLexemes ++ c.keywordLexeme :: c.nameLexemes ++ ls) =
        sign :: word :: (Option.toList modifier? ++ keyword :: name :: opener ::
          Token.place (Position.start.advance c.frontText) ls) ∧
      c.Front sign word modifier? keyword name opener := by
  obtain ⟨sign, word, modifier?, placed, isSign, isWord, isModifier⟩ := c.place_modifierLexemes
  let seen := c.modifierLexemes.flatMap Lexeme.whole
  let keyword := c.keywordLexeme.placed (Position.start.advance seen)
  let nameLexeme : Lexeme := ⟨⟨[' '], false⟩, .ident, c.name.toList⟩
  let name := nameLexeme.placed (Position.start.advance (seen ++ c.keywordLexeme.whole))
  let openerLexeme : Lexeme := ⟨⟨[' '], false⟩, .opening .brace, ['\x7b']⟩
  let opener := openerLexeme.placed
    (Position.start.advance (seen ++ c.keywordLexeme.whole ++ nameLexeme.whole))
  have whole : seen ++ c.keywordLexeme.whole ++ nameLexeme.whole ++ openerLexeme.whole =
      c.frontText := by
    rw [← c.source_heading]
    simp [nameLexemes, seen, nameLexeme, openerLexeme]
  refine ⟨sign, word, modifier?, keyword, name, opener, ?_, isSign, isWord, isModifier,
    ⟨rfl, by simp [keyword, Lexeme.placed, keywordLexeme], ?_⟩, ⟨rfl, ?_⟩, rfl, ?_⟩
  · rw [Token.place_append, Token.place_append, placed, c.source_heading, Token.place_cons,
      nameLexemes, Token.place_cons, Token.place_cons, ← Position.advance_append,
      ← Position.advance_append]
    simp [Token.place, keyword, name, opener, nameLexeme, openerLexeme, seen]
  · rw [Lexeme.placed_start, source_keyword]
  · simp [name, Lexeme.placed, nameLexeme]
  · rw [Lexeme.placed_stop, whole]

namespace Front

variable {sign word keyword name opener : Token} {modifier? : Option Token}

/-- The attribute, in front of a word. -/
theorem attributes (front : c.Front sign word modifier? keyword name opener) {rest : List Token}
    (first : ∀ t ∈ rest.head?, t.kind = .ident) :
    Attribute.AllSpelled (sign :: word :: rest) [⟨"Codable", sign.span, word.span⟩] rest := by
  obtain ⟨⟨isSign, -⟩, ⟨isName, codable, -⟩, -⟩ := front
  have spelled : Attribute.Spelled (sign :: word :: rest) ⟨"Codable", sign.span, word.span⟩ rest := by
    rw [← codable]
    refine .mk isSign isName (.stop ?_) (.none ?_)
    · rintro ⟨t, _, _, made, dot, -⟩
      rw [first t (by rw [made]; rfl)] at dot
      cases dot
    · rintro ⟨t, head, opens, -⟩
      rw [first t head] at opens
      cases opens
  exact .cons spelled (.nil fun t head => by rw [first t head]; nofun)

theorem noModifier (front : c.Front sign word modifier? keyword name opener) (h : c.Sound)
    (body : List Token) : ¬ Modifier.Starts (keyword :: name :: body) := by
  obtain ⟨-, -, -, ⟨isKeyword, isClass, -⟩, ⟨nameKind, nameText⟩, -⟩ := front
  rintro ⟨_, _, _, ⟨⟩, isModifier⟩
  have behind := h.noModifier
  rw [Modifier.isModifier, if_pos (by simp [Token.isWord, isKeyword, isClass])] at isModifier
  simp [Token.isWordIn, nameKind, nameText, behind] at isModifier

/-- The modifier of the class, if it has one. -/
theorem modifiers (front : c.Front sign word modifier? keyword name opener) (h : c.Sound)
    (body : List Token) :
    Modifier.AllSpelled (modifier?.toList ++ keyword :: name :: body) c.modifier.toList
      (keyword :: name :: body) := by
  have noModifier := front.noModifier h body
  obtain ⟨-, -, ⟨modifier, isWord⟩, ⟨isKeyword, -⟩, -⟩ := front
  rw [← modifier]
  cases modifier? with
  | none => exact .nil noModifier
  | some m =>
    have known : m.text ∈ Modifier.keywords := h.modifier m.text modifier.symm
    have other : m.text ≠ "class" := by
      intro same
      rw [same] at known
      revert known
      decide
    refine .cons ?_ (.none ?_) (.nil noModifier)
    · rw [Modifier.isModifier, isKeyword]
      simp [Token.isWord, Token.isWordIn, isWord m rfl, other, known]
    · rintro ⟨_, _, _, _, ⟨⟩, opens, -⟩
      rw [isKeyword] at opens
      cases opens

theorem kind (front : c.Front sign word modifier? keyword name opener) :
    DeclarationKind.ofToken? keyword = some .classType := by
  obtain ⟨-, -, -, ⟨isKeyword, isClass, -⟩, -⟩ := front
  rw [DeclarationKind.ofToken?, if_pos isKeyword, isClass]
  rfl

theorem noClause (front : c.Front sign word modifier? keyword name opener) :
    opener.isWord "where" = false := by
  rw [Token.isWord, front.opener.1]
  rfl

/-- The heading of a plain class. -/
theorem opening (front : c.Front sign word modifier? keyword name opener) (h : c.Sound)
    (body : List Token) :
    OpeningSpelled (sign :: word :: (modifier?.toList ++ keyword :: name :: opener :: body))
      ⟨[⟨"Codable", sign.span, word.span⟩], c.modifier.toList, .classType, c.name, [],
        keyword.span⟩ opener body := by
  have modifiers := front.modifiers h (opener :: body)
  have first : ∀ t ∈ (modifier?.toList ++ keyword :: name :: opener :: body).head?,
      t.kind = .ident := by
    cases modifier? with
    | none => rintro _ ⟨⟩; exact front.keyword.1
    | some m => rintro _ ⟨⟩; exact front.modifier.2 m rfl
  have attributes := front.attributes first
  have kind := front.kind
  have noClause := front.noClause
  obtain ⟨⟨isSign, -⟩, -, -, -, ⟨nameKind, nameText⟩, opens, -⟩ := front
  have named : Heading.Spelled .classType (name :: opener :: body) c.name [] (opener :: body) := by
    refine .mk (nameText ▸ .name nofun nameKind) (.none ?_) (.none ?_) (.none ?_)
    · rintro _ ⟨⟩
      rw [opens]
      nofun
    · rintro _ ⟨⟩
      rw [opens]
      nofun
    · rintro _ ⟨⟩
      exact noClause
  exact .mk (by rw [isSign]; nofun) (.mk attributes modifiers) kind named opens

end Front

/-! ### The body -/

/-- The text of the members, each line behind a line feed. -/
def bodyText (c : PlainClass) : List Char :=
  c.memberLines.flatMap fun l => '\n' :: l.toList

/-- The text of a class: up to the brace, the members, and the last line. -/
theorem toList_source : c.source.toList = c.frontText ++ (c.bodyText ++ "\n\x7d\n".toList) := by
  unfold source frontText bodyText
  simp [Text.toList_ofLines]

theorem sound_of_written {ms : List PlainMember} {tss : List (List Token)}
    (written : List.Forall₂ PlainMember.Written ms tss) : ∀ l ∈ tss.map (Line.mk 4), l.Sound := by
  induction written with
  | nil => nofun
  | cons here _ ih => exact List.forall_mem_cons.mpr ⟨here.sound, ih⟩

theorem join_of_written {ms : List PlainMember} {tss : List (List Token)}
    (written : List.Forall₂ PlainMember.Written ms tss) :
    Line.join (tss.map (Line.mk 4)) = ms.flatMap fun m => '\n' :: ("    " ++ m.line).toList := by
  induction written with
  | nil => rfl
  | cons here _ ih =>
    rw [List.map_cons, List.flatMap_cons, ← ih]
    simp [Line.join, Line.text, here.text]

/-- The members of a declaration add to the field model what those of the class do. -/
def Members (c : PlainClass) (ms : List Member) : Prop :=
  ∃ vs : List Variable, ms = vs.map .variable ∧
    List.Forall₂ (Contribution.Same fun _ _ => True) (c.members.map (·.contribution))
      (vs.flatMap Contribution.ofVariable)

/-- Variable declarations at other places. -/
theorem variables_of_same {vs : List Variable} {ms : List Member}
    (same : List.Forall₂ (Member.Same .blind) (vs.map .variable) ms) :
    ∃ us : List Variable, ms = us.map .variable ∧ List.Forall₂ (Variable.Same .blind) vs us := by
  induction vs generalizing ms with
  | nil =>
    cases same
    exact ⟨[], rfl, .nil⟩
  | cons v vs ih =>
    obtain - | @⟨_, m, _, _, head, later⟩ := same
    obtain ⟨us, rfl, rest⟩ := ih later
    cases m with
    | type | other => cases head
    | «variable» u => exact ⟨u :: us, rfl, .cons (Member.variable.inj head) rest⟩

/-- The closing brace as a lexeme. -/
def closerLexeme : Lexeme :=
  ⟨⟨['\n'], true⟩, .closing .brace, ['\x7d']⟩

/-- The members of a plain class are read up to the brace that closes it. They are known from tokens
that are laid out; those of the source differ from these only in their places. -/
theorem members_of_place {tss : List (List Token)} (h : c.Sound)
    (written : List.Forall₂ PlainMember.Written c.members tss) (p : Position) :
    ∃ ms, CodableSynthesis.Members
        (Token.place p ((tss.map (Line.mk 4)).flatMap Line.lexemes ++ [closerLexeme])) ms
        (closerLexeme.placed (p.advance c.bodyText)) [] ∧ c.Members ms := by
  have sound := sound_of_written written
  have text : ((tss.map (Line.mk 4)).flatMap Line.lexemes).flatMap Lexeme.whole = c.bodyText := by
    rw [Line.flatMap_whole_lines fun l mem => (sound l mem).nonempty, join_of_written written,
      bodyText, memberLines, List.flatMap_map]
  have last : Token.place p ((tss.map (Line.mk 4)).flatMap Line.lexemes ++ [closerLexeme]) =
      Token.place p ((tss.map (Line.mk 4)).flatMap Line.lexemes) ++
        [closerLexeme.placed (p.advance c.bodyText)] := by
    rw [Token.place_append, text, Token.place_cons, Token.place]
  -- What is read does not depend on places, and without them the tokens are known.
  obtain ⟨vs, members, contributions⟩ := @members_of_written c.members tss
    (.begun (.closing .brace) "\x7d") written rfl h.apart
  have becomes : List.Forall₂ Lexeme.Becomes
      ((tss.map (Line.mk 4)).flatMap Line.lexemes ++ [closerLexeme])
      (tss.flatMap fresh ++ [.begun (.closing .brace) "\x7d"]) := by
    have lines := Line.becomes_lines sound
    rw [List.flatMap_map (g := Line.words)] at lines
    have closer : closerLexeme.Becomes (.begun (.closing .brace) "\x7d") :=
      ⟨rfl, by simp [closerLexeme, Token.begun, Token.chars], rfl, rfl⟩
    exact List.rel_append lines (.cons closer .nil)
  have agree := Member.readAll_agree (sameTokens_place becomes p)
  obtain ⟨_, read⟩ := members.reads
  rw [read] at agree
  generalize found : Member.readAll _ = outcome at agree
  obtain @⟨_, s, value, rest⟩ := agree
  obtain ⟨⟨ms, closer⟩, left, shorter⟩ := s
  cases rest
  have spelled := Members.reads_readAll_iff.mp ⟨shorter, found⟩
  obtain rfl : closer = closerLexeme.placed (p.advance c.bodyText) := by
    have ends := getLast?_of_suffix spelled.suffix (by simp)
    rw [last] at ends
    simpa using ends.symm
  obtain ⟨us, rfl, same⟩ := variables_of_same value.1
  refine ⟨_, spelled, us, rfl, ?_⟩
  rw [← contributions]
  exact List.rel_flatMap same fun v u hv => hv.contributions fun _ => trivial

/-! ### The class -/

/-- The declaration `d` is the class, with its parts where they stand in its text. -/
structure Becomes (c : PlainClass) (d : Declaration) : Prop where
  /-- It has one attribute, on the first line. -/
  attributes : ∃ a, d.heading.attributes = [a] ∧ a.name = "Codable" ∧ a.span.start = 0 ∧
    a.span.stop = 8
  modifiers : d.heading.modifiers = c.modifier.toList
  kind : d.heading.kind = .classType
  name : d.heading.name = c.name
  inherited : d.heading.inherited = []
  /-- The keyword stands behind the modifier. -/
  keyword : d.heading.keyword.start = byteLength ("@Codable\n".toList ++ (c.modified "").toList)
  /-- The body begins behind the line of the heading. -/
  opener : d.opener.stop = byteLength c.frontText
  /-- It ends with the last line. -/
  closer : d.closer.start = byteLength (c.frontText ++ (c.bodyText ++ ['\n'])) ∧
    d.closer.stop = byteLength (c.frontText ++ (c.bodyText ++ ['\n', '\x7d']))
  /-- Its members are those of the class. -/
  members : c.Members d.members
  /-- All its names and types can be printed. -/
  printed : d.Printed

theorem trailing_lineFeed : Trailing ['\n'] :=
  ⟨true, ['\n'], [], rfl, .space (by decide) .nil, .none, .inl rfl⟩

/-- The tokens of a plain class. -/
theorem Sound.tokenize_source {tss : List (List Token)} (h : c.Sound)
    (written : List.Forall₂ PlainMember.Written c.members tss) :
    tokenize c.source = .ok (Token.place .start
      (c.modifierLexemes ++ c.keywordLexeme :: c.nameLexemes ++
        ((tss.map (Line.mk 4)).flatMap Line.lexemes ++ [closerLexeme]))) := by
  have closer : (Line.mk 0 [.laid true (.closing .brace) "\x7d"]).Sound :=
    Line.sound_of_cuts (by simp) (.mark ⟨'\x7d', by simp, rfl⟩ .nil)
  have heading : (Line.mk 0 c.headingTokens).Sound :=
    Line.sound_of_cuts headingTokens_ne_nil h.cuts_headingTokens
  have sound : ∀ l ∈ ⟨0, c.headingTokens⟩ :: (tss.map (Line.mk 4) ++
      [⟨0, [.laid true (.closing .brace) "\x7d"]⟩]), Line.Sound l :=
    List.forall_mem_cons.mpr ⟨heading,
      List.forall_mem_append.mpr ⟨sound_of_written written, List.forall_mem_singleton.mpr closer⟩⟩
  have front :
      laidText attributeTokens ++ '\n' :: (Line.mk 0 c.headingTokens).text = c.frontText := by
    rw [Line.text, laidText_headingTokens]
    rfl
  have body : Line.join (tss.map (Line.mk 4)) = c.bodyText := by
    rw [join_of_written written, bodyText, memberLines, List.flatMap_map]
  have last :
      Line.join [⟨0, [.laid true (.closing .brace) "\x7d"]⟩] ++ ['\n'] = "\n\x7d\n".toList := by
    decide
  have text : c.source.toList = laidText attributeTokens ++ Line.join (⟨0, c.headingTokens⟩ ::
      (tss.map (Line.mk 4) ++ [⟨0, [.laid true (.closing .brace) "\x7d"]⟩])) ++ ['\n'] := by
    rw [toList_source, ← front, ← body, ← last]
    simp only [Line.join, List.flatMap_cons, List.flatMap_append, List.append_assoc,
      List.cons_append]
  refine (tokenize_lines cuts_attributeTokens sound .lineFeed trailing_lineFeed text).trans ?_
  rw [← lexemes_heading]
  simp only [List.flatMap_cons, List.flatMap_append, List.append_assoc]
  rfl

/-- A plain class is read as the declaration that it is. -/
theorem Sound.readSource (h : c.Sound) :
    ∃ d, CodableSynthesis.readSource c.source = .ok [d] ∧ c.Becomes d := by
  obtain ⟨tss, written⟩ := PlainMember.exists_written h.members
  have tokens := h.tokenize_source written
  obtain ⟨sign, word, modifier?, keyword, name, opener, placed, front⟩ :=
    c.place_heading ((tss.map (Line.mk 4)).flatMap Line.lexemes ++ [closerLexeme])
  rw [placed] at tokens
  obtain ⟨ms, members, contributed⟩ :=
    members_of_place h written (Position.start.advance c.frontText)
  have noSemicolon : sign.kind ≠ .semicolon := by
    rw [front.sign.1]
    nofun
  have file := FileSpelled.type noSemicolon (front.opening h _) members .nil
  have spelt : Spelt _ := (placed_of_tokenize tokens).spelled
  refine ⟨⟨⟨[⟨"Codable", sign.span, word.span⟩], c.modifier.toList, .classType, c.name, [],
    keyword.span⟩, ms, opener.span,
    (closerLexeme.placed ((Position.start.advance c.frontText).advance c.bodyText)).span⟩, ?_,
    ⟨_, rfl, rfl, front.sign.2, front.word.2.2⟩, rfl, rfl, rfl, rfl, front.keyword.2.2,
    front.opener.2, ⟨?_, ?_⟩, contributed, ?_⟩
  · rw [CodableSynthesis.readSource, tokens]
    simp only [bind, Except.bind, file.readFile]
    rfl
  · rw [← Position.advance_append, Lexeme.placed_start, List.append_assoc]
    rfl
  · rw [← Position.advance_append, Lexeme.placed_stop, List.append_assoc]
    rfl
  · exact file.printed spelt _ (.head _) _ (Declaration.mem_withNested_self _)

end PlainClass

end CodableSynthesis
