import CodableSynthesis.Proofs.Repeated.Bodies
import CodableSynthesis.Proofs.Repeated.Lines

/-!
Generated declarations as tokens, and what is read of them. Whatever stands behind them, each is
read as one declaration, and none of them is annotated.

* `LeafSpelled.method`, `Formed.method`: a method with a body, as tokens in general.
* `Laying.Heads.typeset`: the initializer and the method that encodes.
* `KeyEnum.typeset`: the enumeration of keys.
* `Conformance.typeset`: the extension.

Methods are members that the parser passes over up to where a declaration ends, bodies as groups. So
of a method only the heading counts: that its modifiers are read as such, that its signature stays
on one line and opens nothing, and that the brace of its body stands on that line.

The enumeration is read as a declaration of its own, with a case a line. The extension has to be
read wherever it stands, which is what restricts its name: the heading of an extension is a type,
and a dotted name is one only if its parts are.
-/

namespace CodableSynthesis

open Lexeme (Spelling)

/-! ### Methods -/

/-- Whether tokens are modifiers, one in front of the other and the last in front of a word. -/
def Modifier.modifies (word : Token) : List Token → Bool
  | [] => true
  | [t] => isModifier t word && word.kind = .ident
  | t :: n :: ts => isModifier t n && n.kind = .ident && modifies word (n :: ts)

section

variable {word opener closer t : Token} {front sig inner ts us rest : List Token}

/-- Such tokens are read as modifiers. -/
theorem Modifier.AllSpelled.of_modifies (h : modifies word front = true)
    (none : ¬ Starts (word :: ts)) :
    AllSpelled (front ++ word :: ts) (front.map (·.text)) (word :: ts) := by
  have noDetail {t : Token} {ts : List Token} (ident : t.kind = .ident) :
      Detail (t :: ts) (t :: ts) :=
    .none (not_startsDetail (by rw [ident]; nofun))
  induction front with
  | nil => exact .nil none
  | cons t front ih =>
    cases front with
    | nil =>
      simp only [modifies, Bool.and_eq_true, decide_eq_true_eq] at h
      exact .cons h.1 (noDetail h.2) (.nil none)
    | cons n front =>
      simp only [modifies, Bool.and_eq_true, decide_eq_true_eq] at h
      exact .cons h.1.1 (noDetail h.1.2) (ih h.2)

/-- They might stand in generic arguments. -/
theorem Modifier.isArgumentToken_of_modifies (h : modifies word front = true) :
    ∀ t ∈ front, Group.isArgumentToken t = true := by
  have ident {t n : Token} (h : isModifier t n = true) : Group.isArgumentToken t = true := by
    rw [Group.isArgumentToken, kind_of_isModifier h]
  induction front with
  | nil => exact List.forall_mem_nil _
  | cons t front ih =>
    cases front with
    | nil =>
      simp only [modifies, Bool.and_eq_true] at h
      exact List.forall_mem_singleton.mpr (ident h.1)
    | cons n front =>
      simp only [modifies, Bool.and_eq_true] at h
      exact List.forall_mem_cons.mpr ⟨ident h.1.1, ih h.2⟩

/-- No generic arguments end behind tokens of such arguments in front of a brace. -/
theorem Group.not_closesArguments_along {depth : Nat} {mid : List Token}
    (along : ∀ u ∈ us, isArgumentToken u = true) (opens : opener.kind = .opening .brace) :
    ¬ ClosesArguments depth (us ++ opener :: rest) mid := by
  induction us with
  | nil => exact not_closesArguments (.inr (.inr opens))
  | cons u us ih =>
    obtain ⟨here, others⟩ := List.forall_mem_cons.mp along
    exact fun closes => ih others (closes.behind here)

namespace Skipping

/-- A declaration goes on with balanced tokens of a line. The induction is on the tokens, group by
group. -/
theorem DeclarationRest.along {line : List Token} (balanced : Group.Balanced line)
    (flat : ∀ u ∈ line, Group.isArgumentToken u = true ∧ u.newlineBefore = false)
    (later : DeclarationRest false us rest) : DeclarationRest false (line ++ us) rest := by
  have goesOn {t : Token} {ts : List Token}
      (h : Group.isArgumentToken t = true ∧ t.newlineBefore = false) :
      ¬ EndsDeclaration false (t :: ts) := by
    intro ends
    cases ends with
    | declaration starts => simp [h.2] at starts
    | closing kind =>
      rw [Group.isArgumentToken, kind] at h
      simp at h
  induction balanced with
  | nil => exact later
  | @plain t ts noOpening noClosing _ ih =>
    obtain ⟨here, others⟩ := List.forall_mem_cons.mp flat
    refine .plain (goesOn here) (fun kind => ?_) noOpening noClosing (ih others)
    rw [Group.isArgumentToken, kind] at here
    cases here.1
  | @group b t u inner ts opens within closes _ _ ih =>
    obtain ⟨here, others⟩ := List.forall_mem_cons.mp flat
    rw [List.cons_append, List.append_assoc]
    have noBrace : b ≠ .brace := by
      rintro rfl
      rw [Group.isArgumentToken, opens] at here
      simp at here
    have plain : (b == .brace) = false := by simpa using noBrace
    refine .group (goesOn here) opens (Group.closes_iff.mpr ⟨inner, rfl, within, closes⟩) ?_
    rw [plain]
    exact ih fun v mem => others v (by simp [mem])

/-- A declaration ends with a body. -/
theorem DeclarationRest.body (opens : opener.kind = .opening .brace)
    (balanced : Group.Balanced inner) (closes : closer.kind = .closing .brace)
    (flat : opener.newlineBefore = false)
    (ends : EndsDeclaration true rest) :
    DeclarationRest false (opener :: (inner ++ closer :: rest)) rest := by
  refine .group ?_ opens (Group.closes_iff.mpr ⟨inner, rfl, balanced, closes⟩) (.stop ends)
  intro ends
  cases ends with
  | declaration starts => simp [flat] at starts
  | closing kind =>
    rw [opens] at kind
    cases kind

end Skipping

/-- A method with a body ends where a declaration can. -/
theorem LeafSpelled.method (isMethod : word.isWordIn ["init", "func"] = true)
    (modifies : Modifier.modifies word front = true)
    (head : ∃ u ∈ (front ++ [word]).head?, u.kind ≠ .atSign ∧ u.kind ≠ .pound)
    (later : Skipping.DeclarationRest false us rest) :
    LeafSpelled (front ++ word :: us) (.other word.text word.span) rest := by
  have ident := Token.kind_of_isWordIn isMethod
  have text : word.text = "init" ∨ word.text = "func" := by
    simpa [Token.isWordIn, ident] using isMethod
  have other : word.IsOtherWord := by
    rcases text with text | text <;>
      simp [Token.IsOtherWord, DeclarationKind.ofToken?, Specifier.ofToken?, Token.isWord, ident,
        text] <;>
      decide
  have none : ¬ Modifier.Starts (word :: us) := by
    refine Modifier.not_starts ?_ ?_ <;> rcases text with text | text <;>
      simp [Token.isWord, Token.isWordIn, text, Modifier.keywords]
  obtain ⟨u, head, noSign, noPound⟩ := head
  obtain ⟨more, made⟩ : ∃ more, front ++ word :: us = u :: more := by
    cases front with
    | nil =>
      cases head
      exact ⟨_, rfl⟩
    | cons v front =>
      cases head
      exact ⟨_, rfl⟩
  have modifiers := Modifier.AllSpelled.of_modifies modifies none
  rw [made] at modifiers ⊢
  have attributes : Attribute.AllSpelled (u :: more) [] (u :: more) := .nil (by
    rintro _ ⟨⟩
    exact noSign)
  refine .other noPound (.mk attributes modifiers) other ?_ (.plain ?_ ?_ ?_ later) <;> simp [ident]

/-- The tokens of a generated method. -/
theorem Formed.method (isMethod : word.isWordIn ["init", "func"] = true)
    (modifies : Modifier.modifies word front = true)
    (head : ∃ u ∈ (front ++ [word]).head?, u.kind = .ident ∧ u.newlineBefore = true)
    (signature : ∀ u ∈ sig, Group.isArgumentToken u = true ∧ u.newlineBefore = false)
    (level : Group.Balanced sig) (opens : opener.kind = .opening .brace)
    (flat : opener.newlineBefore = false) (balanced : Group.Balanced inner)
    (closes : closer.kind = .closing .brace) :
    Formed (front ++ word :: (sig ++ opener :: (inner ++ [closer]))) := by
  have ident := Token.kind_of_isWordIn isMethod
  obtain ⟨u, first, kind, line⟩ := head
  have begins : u.Begins := by
    cases front with
    | nil =>
      cases first
      refine .inr ?_
      simp only [Token.isWordIn, Bool.and_eq_true, List.contains_iff_mem] at isMethod ⊢
      exact ⟨isMethod.1, (by decide : ∀ s ∈ ["init", "func"],
        s ∈ Modifier.declarationWords ++ Modifier.keywords) _ isMethod.2⟩
    | cons v front =>
      cases first
      cases front with
      | nil =>
        simp only [Modifier.modifies, Bool.and_eq_true] at modifies
        exact Modifier.begins modifies.1
      | cons n front =>
        simp only [Modifier.modifies, Bool.and_eq_true] at modifies
        exact Modifier.begins modifies.1.1
  refine ⟨⟨u, ?_, begins, by simp [kind], line⟩, ?_, fun {rest} ends => ?_⟩
  · cases front <;> exact first
  · intro depth rest mid closes
    have behind : Group.ClosesArguments depth
        ((front ++ word :: sig) ++ opener :: (inner ++ [closer] ++ rest)) mid := by
      simpa using closes
    refine Group.not_closesArguments_along ?_ opens behind
    refine List.forall_mem_append.mpr ⟨Modifier.isArgumentToken_of_modifies modifies,
      List.forall_mem_cons.mpr ⟨?_, fun v mem => (signature v mem).1⟩⟩
    rw [Group.isArgumentToken, ident]
  · have later := (Skipping.DeclarationRest.body opens balanced closes flat ends).along level
      signature
    have leaf := LeafSpelled.method isMethod modifies
      ⟨u, first, by simp [kind], by simp [kind]⟩ later
    exact ⟨.other word.text word.span, .leaf (by simpa using leaf), .leaf rfl⟩

end

/-! ### The headings of methods

The two generated methods differ in their headings only. Each may have a modifier in front, which is
one of the class it is generated for. -/

/-- The tokens of an argument of a method that may throw, and the brace behind. -/
def signatureTokens (label name type : String) : List Token :=
  [.laid true (.opening .parenthesis) "(", .laid true .ident label, .laid false .ident name,
    .laid true .colon ":", .laid false .ident type, .laid true (.closing .parenthesis) ")",
    .laid false .ident "throws"]

/-- A line of laid out tokens that are written in front of a method. -/
structure Laying.Heads (line : String) (hs : List Token) : Prop where
  /-- The line is laid out as the tokens. -/
  laying : Laying line.toList hs
  /-- With a body and a brace behind them, they are read as a member. -/
  formed : ∀ {inner : List Token} {closer : Token}, Group.Balanced inner →
    closer.kind = .closing .brace → Formed (fresh hs ++ (inner ++ [closer]))

/-- A generated declaration has tokens that are read as one member. -/
theorem Laying.Heads.typeset {a : Artifact} {w : Writer} {hs : List Token}
    (h : Heads (a.header ++ " \x7b") hs) (printed : a.IsPrinted)
    (body : ∀ line ∈ a.body, ∃ ts, BodyLine line ts) :
    ∃ us, Typeset (w.render a) us ∧ Formed us := by
  obtain ⟨tss, lines, balanced⟩ := forall₂_of_forall (R := fun (line : String) ts =>
      Laying line.toList ts) (Q := Group.Balanced) fun line mem => by
    obtain ⟨ts, laying, balanced⟩ := body line mem
    exact ⟨ts, laying, balanced⟩
  exact ⟨_, .of_layings printed h.laying lines, h.formed (.lines balanced) rfl⟩

/-- The words that may stand in front of a generated method. -/
def headModifiers : List String :=
  "class" :: Modifier.keywords

/-- The words that stand in front of the initializer, and what stands behind them. -/
def initializerTokens : List Token :=
  .laid false .ident "init" ::
    (signatureTokens "from" "decoder" "Decoder" ++ [.laid false (.opening .brace) "\x7b"])

/-- The signature of the method that encodes, and the brace behind. -/
def encoderTokens : List Token :=
  .laid false .ident "encode" ::
    (signatureTokens "to" "encoder" "Encoder" ++ [.laid false (.opening .brace) "\x7b"])

theorem isWord_headModifiers : ∀ m ∈ headModifiers, isWord m = true := by
  decide

namespace Laying

variable {m : String}

/-- A line with a modifier in front. -/
theorem modified {declaration : String} {text : String} {ts : List Token}
    (known : m ∈ headModifiers) (cuts : Cuts (.laid false .ident text :: ts))
    (chars : ' ' :: declaration.toList = laidText (.laid false .ident text :: ts)) :
    Laying (CodableSynthesis.modified m declaration).toList
      (.laid true .ident m :: .laid false .ident text :: ts) := by
  have word := isWord_headModifiers m known
  refine .of_cuts (.name (.word word) cuts (.blank rfl)) ?_
  have some_ : m.isEmpty = false := by
    revert m
    decide
  rw [CodableSynthesis.modified, if_neg (by simp [some_]), laidText_cons, ← chars,
    String.toList_append, String.toList_append]
  simp

/-- Something behind a declaration stands behind it with its modifier, too. -/
theorem modified_append (m declaration s : String) :
    CodableSynthesis.modified m declaration ++ s =
      CodableSynthesis.modified m (declaration ++ s) := by
  rw [CodableSynthesis.modified, CodableSynthesis.modified]
  split
  · rfl
  · rw [String.append_assoc]

/-- The line that opens the initializer. -/
theorem initializer (known : m = "" ∨ m ∈ headModifiers) :
    ∃ hs, Heads
      (CodableSynthesis.modified m "required init(from decoder: Decoder) throws" ++ " \x7b") hs := by
  have formed (front : List Token)
      (modifies : Modifier.modifies (.laid false .ident "init") front = true)
      (head : ∃ u ∈ (front ++ [Token.laid false .ident "init"]).head?, u.kind = .ident ∧
        u.newlineBefore = true) {inner : List Token} {closer : Token}
      (balanced : Group.Balanced inner) (closes : closer.kind = .closing .brace) :
      Formed (front ++ initializerTokens ++ (inner ++ [closer])) := by
    have := @Formed.method (.laid false .ident "init") (.laid false (.opening .brace) "\x7b") closer
      front (signatureTokens "from" "decoder" "Decoder") inner rfl modifies head (by decide)
      (by decide) rfl rfl balanced closes
    simpa [initializerTokens] using this
  rw [modified_append]
  rcases known with rfl | known
  · exact ⟨.laid true .ident "required" :: initializerTokens,
      .of_cuts (.fixed (by decide)) (by decide),
      formed [.begun .ident "required"] (by decide) (by decide)⟩
  · refine ⟨_, modified known (.fixed (by decide : laysOut true (.laid false .ident "required" ::
      initializerTokens) = true)) (by decide), ?_⟩
    refine formed [.begun .ident m, .laid false .ident "required"] ?_ ⟨_, rfl, rfl, rfl⟩
    exact (by decide : ∀ m ∈ headModifiers, Modifier.modifies (.laid false .ident "init")
      [.begun .ident m, .laid false .ident "required"] = true) m known

/-- The line that opens the method that encodes. -/
theorem encoder (known : m = "" ∨ m ∈ headModifiers) :
    ∃ hs, Heads (CodableSynthesis.modified m "func encode(to encoder: Encoder) throws" ++ " \x7b")
      hs := by
  have formed (word : Token) (front : List Token) (isMethod : word.isWordIn ["init", "func"] = true)
      (modifies : Modifier.modifies word front = true)
      (head : ∃ u ∈ (front ++ [word]).head?, u.kind = .ident ∧ u.newlineBefore = true)
      {inner : List Token} {closer : Token}
      (balanced : Group.Balanced inner) (closes : closer.kind = .closing .brace) :
      Formed (front ++ word :: encoderTokens ++ (inner ++ [closer])) := by
    have := @Formed.method word (.laid false (.opening .brace) "\x7b") closer
      front (.laid false .ident "encode" :: signatureTokens "to" "encoder" "Encoder") inner isMethod
      modifies head (by decide) (by decide) rfl rfl balanced closes
    simpa [encoderTokens] using this
  rw [modified_append]
  rcases known with rfl | known
  · exact ⟨.laid true .ident "func" :: encoderTokens, .of_cuts (.fixed (by decide)) (by decide),
      formed (.begun .ident "func") [] (by decide) (by decide) (by decide)⟩
  · refine ⟨_, modified known (.fixed (by decide : laysOut true (.laid false .ident "func" ::
      encoderTokens) = true)) (by decide), ?_⟩
    refine formed (.laid false .ident "func") [.begun .ident m] (by decide) ?_
      ⟨_, rfl, rfl, rfl⟩
    exact (by decide : ∀ m ∈ headModifiers, Modifier.modifies (.laid false .ident "func")
      [.begun .ident m] = true) m known

end Laying

/-! ### The enumeration of keys -/

section

variable {keys : List String} {closer : Token} {rest : List Token}

/-- The cases of an enumeration up to its closing brace. -/
theorem Members.cases (closes : closer.kind = .closing .brace) :
    ∃ ms, Members ((keys.map caseTokens).flatMap fresh ++ closer :: rest) ms closer rest ∧
      Member.NoneAnnotated ms := by
  induction keys with
  | nil => exact ⟨[], .close closes, nofun⟩
  | cons key keys ih =>
    obtain ⟨ms, later, none⟩ := ih
    have ends : Skipping.EndsDeclaration false
        ((keys.map caseTokens).flatMap fresh ++ closer :: rest) := by
      cases keys with
      | nil => exact .closing closes
      | cons => exact .declaration (.inl rfl) rfl
    have skipped : Skipping.DeclarationRest false ([.laid false .ident key] ++
        ((keys.map caseTokens).flatMap fresh ++ closer :: rest)) _ :=
      .along (.plain nofun nofun .nil) (List.forall_mem_singleton.mpr ⟨rfl, rfl⟩) (.stop ends)
    have leaf : LeafSpelled (.begun .ident "case" :: _) _ _ :=
      .other nofun (.none rfl (Modifier.not_starts rfl rfl)) ⟨rfl, rfl⟩ nofun
        (.plain nofun nofun nofun skipped)
    exact ⟨_ :: ms, .leaf ⟨nofun, nofun⟩ leaf later, none⟩

end

/-- The tokens of the heading of the enumeration. -/
def keyEnumTokens : List Token :=
  [.laid true .ident "enum", .laid false .ident keyEnumName, .laid true .colon ":",
    .laid false .ident "String", .laid true .comma ",", .laid false .ident "CodingKey",
    .laid false (.opening .brace) "\x7b"]

theorem KeyEnum.laying (e : KeyEnum) :
    Laying ((Artifact.keyEnum e).header ++ " \x7b").toList keyEnumTokens :=
  .of_cuts (.fixed (by decide))
    (show ("enum CodingKeys: String, CodingKey" ++ " \x7b").toList = _ by decide)

/-- The enumeration of keys is read in front of whatever may follow a member. -/
theorem KeyEnum.formed (keys : List String) :
    Formed (fresh keyEnumTokens ++ ((keys.map caseTokens).flatMap fresh ++
      [.begun (.closing .brace) "\x7d"])) := by
  refine ⟨⟨_, rfl, .inr rfl, nofun, rfl⟩, ?_, fun {rest} ends => ?_⟩
  · intro depth rest mid closes
    have behind : Group.ClosesArguments depth (fresh keyEnumTokens.dropLast ++
        .laid false (.opening .brace) "\x7b" :: ((keys.map caseTokens).flatMap fresh ++
          [.begun (.closing .brace) "\x7d"] ++ rest)) mid := by
      simpa [keyEnumTokens] using closes
    exact Group.not_closesArguments_along (by decide) rfl behind
  · obtain ⟨ms, members, none⟩ := @Members.cases keys (.begun (.closing .brace) "\x7d") rest rfl
    generalize made : (keys.map caseTokens).flatMap fresh ++
      .begun (.closing .brace) "\x7d" :: rest = body at members
    have front : PrefixSpelled (fresh keyEnumTokens ++ body) [] [] (fresh keyEnumTokens ++ body) :=
      .none rfl (Modifier.not_starts rfl rfl)
    have types : Heading.TypesSpelled (.laid false .ident "String" :: .laid true .comma "," ::
        .laid false .ident "CodingKey" :: .laid false (.opening .brace) "\x7b" :: body) _
        (.laid false (.opening .brace) "\x7b" :: body) :=
      .cons (TypeExpr.spells_name rfl (by decide) (.inr (.inr rfl))) rfl
        (.last (TypeExpr.spells_name rfl (by decide) (.inr (.inl rfl))) (by rintro _ ⟨⟩; nofun))
    have opening : OpeningSpelled (fresh keyEnumTokens ++ body) _ _ body :=
      .mk nofun front rfl (.mk (.name nofun rfl) (.none (by rintro _ ⟨⟩; nofun)) (.some rfl types)
        (.none (by rintro _ ⟨⟩; rfl))) rfl
    have spelled := MemberSpelled.type opening members
    subst made
    exact ⟨_, by simpa using spelled, .type (List.forall_mem_nil _) none⟩

/-- The enumeration of keys, if these are names. -/
theorem KeyEnum.typeset {e : KeyEnum} {w : Writer} (printed : (Artifact.keyEnum e).IsPrinted)
    (spelled : ∀ key ∈ e.cases, Spelling .ident key.toList) :
    ∃ us, Typeset (w.render (.keyEnum e)) us ∧ Formed us := by
  have body : List.Forall₂ (fun l ts => Laying l.toList ts) (Artifact.keyEnum e).body
      (e.cases.map caseTokens) := by
    rw [Artifact.body, List.forall₂_map_left_iff, List.forall₂_map_right_iff]
    exact List.forall₂_same.mpr fun key mem => (BodyLine.case (spelled key mem)).laying
  exact ⟨_, .of_layings printed e.laying body, formed e.cases⟩

/-! ### The extension

The extended type is spelled by the dotted name of the class. -/

/-- The tokens behind the extended type. -/
def conformanceTokens : List Token :=
  [.laid true .colon ":", .laid false .ident codable, .laid false (.opening .brace) "\x7b"]

namespace Conformance

variable {c : Conformance} {t : TypeExpr} {us : List Token}

/-- The first line of the extension. -/
theorem laying (isCodable : c.capability = codable)
    (canonical : TypeExpr.Canonical (.type t) c.typeName us) :
    Laying ((Artifact.conformance c).header ++ " \x7b").toList
      (.laid true .ident "extension" :: (lead false us ++ conformanceTokens)) := by
  have behind : laidText conformanceTokens = ": Codable \x7b".toList := by decide
  have apart : StartsApart (lead false us ++ conformanceTokens) := by
    obtain ⟨u, us, rfl⟩ := List.exists_cons_of_ne_nil canonical.nonempty
    exact .blank rfl
  refine .of_cuts (.name (.word (by decide)) ((canonical.cuts false).append (.fixed (by decide))
    (.mark ⟨':', by simp, rfl⟩)) apart) ?_
  rw [laidText_cons, laidText_append, behind, canonical.text_blank]
  rw [Artifact.header, isCodable]
  have front : "extension ".toList = "extension".toList ++ [' '] := by decide
  have back : ": Codable \x7b".toList = ": ".toList ++ (codable.toList ++ " \x7b".toList) := by
    decide
  rw [back]
  simp only [String.toList_append, front, Token.laid_touches, Token.laid_chars, if_true,
    List.nil_append, List.append_assoc, List.cons_append]

/-- The extension is read wherever it stands. -/
theorem extending (canonical : TypeExpr.Canonical (.type t) t.render us) :
    Extending (fresh (.laid true .ident "extension" :: (lead false us ++ conformanceTokens)) ++
      [.begun (.closing .brace) "\x7d"]) := by
  refine ⟨⟨_, rfl, .inr rfl⟩, fun {rest} => ?_⟩
  have type := @canonical.spells false (.laid true .colon ":" :: .laid false .ident codable ::
    .laid false (.opening .brace) "\x7b" :: .begun (.closing .brace) "\x7d" :: rest) (.cons rfl)
  have opening : OpeningSpelled (.begun .ident "extension" :: _) _ _ _ :=
    .mk nofun (.none rfl (Modifier.not_starts rfl rfl)) rfl
      (.mk (.extended type) (.none (by rintro _ ⟨⟩; nofun))
        (.some rfl (.last (TypeExpr.spells_name rfl (by decide) (.inr (.inl rfl)))
          (by rintro _ ⟨⟩; nofun)))
        (.none (by rintro _ ⟨⟩; rfl))) rfl
  have inner : Member.NoneAnnotated [] := nofun
  have empty : Members (.begun (.closing .brace) "\x7d" :: rest) [] _ rest := .close rfl
  exact ⟨_, by simpa [conformanceTokens] using MemberSpelled.type opening empty,
    .type (List.forall_mem_nil _) inner⟩

/-- The extension of a type that has the name of the class. -/
theorem typeset {w : Writer} (printed : (Artifact.conformance c).IsPrinted)
    (isCodable : c.capability = codable)
    (named : ∃ t : TypeExpr, t.Buildable ∧ t.render = c.typeName) :
    ∃ us, Typeset (w.render (.conformance c)) us ∧ Extending us := by
  obtain ⟨t, ⟨us, canonical⟩, text⟩ := named
  exact ⟨_, .of_layings printed (laying isCodable (text ▸ canonical)) .nil, extending canonical⟩

end Conformance

end CodableSynthesis
