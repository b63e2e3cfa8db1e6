import CodableSynthesis.Proofs.Respelling.Canonical

/-!
Every type that tokens spell is spelled by the tokens of its canonical text.

* `TypeExpr.Within`: the types in a type.
* `TypeExpr.Buildable`: the canonical text of a type spells it.
* `TypeExpr.Opened`: an operand up to some mark, as marks are read one after another.
* `TypeExpr.Spells.respelled`: the laid out tokens of the canonical text are those that were read,
  but for what is left out, and so for every type within.

The theorem is one induction on the grammar of types, with a statement for each kind of phrase
(`Phrase.Respelled`). For types within types it has to be known that all of them are buildable,
hence `AllBuildable` in it. Marks and segments extend a type that was begun before them, so theirs
is a statement about all ways of having begun it.
-/

namespace CodableSynthesis

open Lexeme (Spelling)

theorem Attribute.AllSpelled.not_sign {as : List Attribute} {ts rest : List Token}
    (h : AllSpelled ts as rest) : ∀ t ∈ rest.head?, t.kind ≠ .atSign := by
  induction h with
  | nil noSign => exact noSign
  | cons _ _ ih => exact ih

namespace Spelt

variable {t : Token} {ts : List Token}

theorem tail (h : Spelt (t :: ts)) : Spelt ts :=
  h.of_suffix (List.suffix_cons _ _)

theorem ident (h : Spelt (t :: ts)) (kind : t.kind = .ident) : Spelling .ident t.chars :=
  kind ▸ h t (.head _)

end Spelt

namespace TypeExpr

/-- A type occurs in another one: it is that type, or stands in one of its parts. -/
inductive Within (s : TypeExpr) : TypeExpr → Prop
  | self : Within s s
  | argument {path : List PathSegment} {segment : PathSegment} {t : TypeExpr} :
      segment ∈ path → t ∈ segment.arguments → Within s t → Within s (.named path)
  | optional {t : TypeExpr} : Within s t → Within s (.optional t)
  | implicitlyUnwrapped {t : TypeExpr} : Within s t → Within s (.implicitlyUnwrapped t)
  | array {t : TypeExpr} : Within s t → Within s (.array t)
  | key {key value : TypeExpr} : Within s key → Within s (.dictionary key value)
  | value {key value : TypeExpr} : Within s value → Within s (.dictionary key value)
  | element {elements : List TupleElement} {label : Option String} {t : TypeExpr} :
      .mk label t ∈ elements → Within s t → Within s (.tuple elements)
  | parameter {parameters : List TupleElement} {effects : List String} {result : TypeExpr}
      {label : Option String} {t : TypeExpr} :
      .mk label t ∈ parameters → Within s t → Within s (.function parameters effects result)
  | result {parameters : List TupleElement} {effects : List String} {result : TypeExpr} :
      Within s result → Within s (.function parameters effects result)
  | part {parts : List TypeExpr} {t : TypeExpr} :
      t ∈ parts → Within s t → Within s (.composition parts)
  | prefixed {keyword : String} {t : TypeExpr} : Within s t → Within s (.prefixed keyword t)
  | attributed {attributes : List String} {t : TypeExpr} :
      Within s t → Within s (.attributed attributes t)

/-- The canonical text of a type spells it, whatever may stand behind. -/
def Buildable (t : TypeExpr) : Prop :=
  ∃ us, Canonical (.type t) t.render us

/-- Every type that occurs in a type is spelled by its canonical text. -/
def AllBuildable (t : TypeExpr) : Prop :=
  ∀ s, Within s t → s.Buildable

/-! ### Operands, mark by mark -/

/-- The laid out tokens `us` are the front of an operand up to some mark, `t` being what they
spell. -/
structure Opened (t : TypeExpr) (us : List Token) : Prop where
  nonempty : us ≠ []
  text : laidText (lead true us) = t.render.toList
  cuts : ∀ b, Cuts (lead b us)
  path : ∀ path, t = .named path → path ≠ []
  spells : ∀ {b rest after left}, Before t.behindPrimary rest →
    Spells (.marks t after) rest left → Spells (.operand after) (lead b us ++ rest) left

namespace Opened

variable {t : TypeExpr} {us vs : List Token}

theorem of_primary (h : Canonical (.primary t) t.render us) (path : ∀ p, t = .named p → p ≠ []) :
    Opened t us where
  nonempty := h.nonempty
  text := h.text
  cuts := h.cuts
  path := path
  spells behind marks := .operand (h.spells behind) marks

theorem operand (h : Opened t us) : Canonical (.operand t) t.render us where
  nonempty := h.nonempty
  text := h.text
  cuts := h.cuts
  spells ends := h.spells (ends.mono fun _ => behindPrimary_of_behindOperand)
    (.unmarked ends.not_goesOn)

/-- A type whose tokens may stand alone. -/
theorem buildable (h : Opened t us) : t.Buildable :=
  ⟨us, h.operand.single⟩

/-- A question mark behind what was opened. -/
theorem optional (h : Opened t us) (plain : t.endsInType = false) :
    Opened (.optional t) (us ++ [.laid true .question "?"]) where
  nonempty := by simp
  text := by simp [h.nonempty, h.text, render]
  cuts b := by
    have mark : (Token.laid true .question "?").IsMark := ⟨'?', by simp, rfl⟩
    rw [lead_append h.nonempty]
    exact (h.cuts b).append (.mark mark .nil) (.mark mark)
  path := nofun
  spells behind marks := by
    rw [lead_append h.nonempty, List.append_assoc]
    exact h.spells (.cons (by simp [behindPrimary, isMark, plain])) (.optional rfl rfl marks)

/-- An exclamation mark behind what was opened. -/
theorem implicitlyUnwrapped (h : Opened t us) (plain : t.endsInType = false) :
    Opened (.implicitlyUnwrapped t) (us ++ [.laid true .bang "!"]) where
  nonempty := by simp
  text := by simp [h.nonempty, h.text, render]
  cuts b := by
    have mark : (Token.laid true .bang "!").IsMark := ⟨'!', by simp, rfl⟩
    rw [lead_append h.nonempty]
    exact (h.cuts b).append (.mark mark .nil) (.mark mark)
  path := nofun
  spells behind marks := by
    rw [lead_append h.nonempty, List.append_assoc]
    exact h.spells (.cons (by simp [behindPrimary, isMark, plain]))
      (.implicitlyUnwrapped rfl rfl marks)

/-- A further segment behind a path that was opened. -/
theorem segment {path : List PathSegment} {s : PathSegment} {v : Token}
    (h : Opened (.named path) us) (ident : v.kind = .ident)
    (next : Canonical (.segment s) (renderSegment s) (v :: vs)) :
    Opened (.named (path ++ [s])) (us ++ .laid true .dot "." :: lead true (v :: vs)) where
  nonempty := by simp
  text := by
    simp [h.nonempty, h.text, next.text, render, renderPath_snoc (h.path path rfl)]
  cuts b := by
    have mark : (Token.laid true .dot ".").IsMark := ⟨'.', by simp, rfl⟩
    rw [lead_append h.nonempty]
    exact (h.cuts b).append (.mark mark (next.cuts true)) (.mark mark)
  path := by
    rintro _ ⟨⟩
    simp
  spells {b rest after left} behind marks := by
    have segment := @next.spells true rest (behind.mono fun _ => behindSegment_of_behindPrimary)
    rw [lead_append h.nonempty, List.append_assoc]
    exact h.spells (.cons rfl) (.path rfl ident segment marks)

end Opened

/-! ### What is kept of the tokens -/

section

variable {t u : Token} {ts rest : List Token} {b : Bool}

theorem laid_word_of_mark {k : TokenKind} {c : Char} {text : String} (spelt : Spelt (t :: ts))
    (kind : t.kind = k) (mark : Lexeme.mark? k = some c) (is : text.toList = [c]) :
    (Token.laid b k text).word = t.word := by
  have spelled := spelt t (.head _)
  rw [kind] at spelled
  exact Prod.ext kind.symm (is.trans (spelled.eq_mark mark).symm)

theorem laid_word_of_ident (ident : t.kind = .ident) :
    (Token.laid b .ident t.text).word = t.word :=
  Prod.ext ident.symm rfl

/-- So is an arrow. -/
theorem laid_word_of_arrow (spelt : Spelt (t :: ts)) (arrow : t.kind = .arrow) :
    (Token.laid b .arrow "->").word = t.word := by
  have spelled := spelt t (.head _)
  rw [arrow] at spelled
  refine Prod.ext arrow.symm ?_
  generalize made : t.chars = text at spelled
  cases spelled with
  | punctuation is => cases Lexeme.mark?_of_punctuation? is
  | arrow =>
    unfold Token.chars at made
    simp [Token.word, made]

/-- A mark that is kept. -/
theorem Conveys.mark {k : TokenKind} {c : Char} {text : String} {us : List Token}
    (spelt : Spelt (t :: ts)) (kind : t.kind = k) (mark : Lexeme.mark? k = some c)
    (is : text.toList = [c]) (kept : ¬ StartsElision (t :: ts)) (later : Conveys us ts rest) :
    Conveys (.laid b k text :: us) (t :: ts) rest :=
  .cons (laid_word_of_mark spelt kind mark is) kept later

/-- A name that is kept. -/
theorem Conveys.name {us : List Token} (ident : t.kind = .ident) (later : Conveys us ts rest) :
    Conveys (.laid b .ident t.text :: us) (t :: ts) rest :=
  .cons (laid_word_of_ident ident) (not_startsElision ident (by simp)) later

theorem dot_kept {n : Token} (dot : t.kind = .dot) (ident : n.kind = .ident) :
    ¬ StartsElision (t :: n :: ts) := by
  intro starts
  cases starts with
  | comma kind | arguments kind =>
    rw [dot] at kind
    cases kind
  | dot _ noName => exact noName _ rfl ident

theorem comma_kept (comma : t.kind = .comma)
    (more : ∀ u ∈ ts.head?, u.kind ≠ .closing .parenthesis) : ¬ StartsElision (t :: ts) := by
  intro starts
  cases starts with
  | comma _ closes => exact more _ rfl closes
  | dot kind | arguments kind =>
    rw [comma] at kind
    cases kind

/-- The dots of a variadic parameter are left out. -/
theorem Dots.conveys (h : Dots ts rest) (noName : ∀ n ∈ rest.head?, n.kind ≠ .ident) :
    Conveys [] ts rest := by
  cases h with
  | stop => exact .refl
  | @dot t ts _ dot touches later =>
    have next : ∀ n ∈ ts.head?, n.kind ≠ .ident := by
      cases later with
      | stop => exact noName
      | dot kind =>
        rintro _ ⟨⟩
        rw [kind]
        nofun
    obtain ⟨read, rfl⟩ := later.suffix
    exact @Conveys.shortened _ _ (t :: read) (.dot dot next) (by simp)

/-- A label is laid out anew with its tokens. -/
theorem Label.respelled {label : Option String} (h : Label ts label rest) (spelt : Spelt ts) :
    ∃ ls, LaidLabel label ls ∧ Conveys ls ts rest := by
  cases h with
  | none => exact ⟨[], .none, .refl⟩
  | one ident colon =>
    exact ⟨_, .one (spelt.ident ident),
      .name ident (.mark spelt.tail colon rfl (by simp) (not_startsElision colon (by simp)) .refl)⟩
  | two ident ident' colon =>
    exact ⟨_, .two (spelt.ident ident) (spelt.tail.ident ident'), .name ident (.name ident'
      (.mark spelt.tail.tail colon rfl (by simp) (not_startsElision colon (by simp)) .refl))⟩

theorem path_respelled {name name' : String} {last last' : Text.Span}
    (h : Attribute.Path name last ts name' last' rest) (spelt : Spelt ts) :
    ∃ us, CanonicalPath name name' us ∧ Conveys us ts rest := by
  induction h with
  | stop => exact ⟨[], .stop, .refl⟩
  | segment dot ident _ ih =>
    obtain ⟨us, path, conveys⟩ := ih spelt.tail.tail
    exact ⟨_, path.segment (spelt.tail.ident ident),
      .mark spelt dot rfl (by simp) (dot_kept dot ident) (.name ident conveys)⟩

end

/-- One attribute, its arguments left out. -/
theorem attribute_respelled {a : Attribute} {ts rest : List Token}
    (h : Attribute.Spelled ts a rest) (spelt : Spelt ts) :
    ∃ (first : Token) (us : List Token),
      Spelling .ident first.chars ∧ CanonicalPath first.text a.name us ∧
      Conveys (.laid true .atSign "@" :: .laid true .ident first.text :: us) ts rest := by
  obtain @⟨sign, first, ts, mid, _, name, last, closer?, kind, ident, path, arguments⟩ := h
  obtain ⟨us, canonical, conveys⟩ := path_respelled path spelt.tail.tail
  refine ⟨first, us, spelt.tail.ident ident, canonical, ?_⟩
  cases arguments with
  | none absent =>
    refine .mark spelt kind rfl (by simp) ?_ (.name ident conveys)
    intro starts
    cases starts with
    | comma other | dot other =>
      rw [kind] at other
      cases other
    | arguments _ _ path' starts =>
      obtain ⟨-, -, rfl⟩ := path'.unique path
      exact absent starts
  | @some u v more _ opens touches closes =>
    obtain ⟨read, rfl, fewer, -⟩ := conveys
    obtain ⟨inner, rfl⟩ := closes.suffix
    have starts : StartsElision (sign :: first :: (read ++ u :: (inner ++ rest))) :=
      .arguments kind ident path ⟨u, rfl, opens, touches⟩
    have made : sign :: first :: (read ++ u :: (inner ++ rest)) =
        (sign :: first :: (read ++ u :: inner)) ++ rest := by simp
    rw [made] at starts ⊢
    refine .shortened starts ?_
    simp only [List.length_cons, List.length_append]
    omega

/-- Attributes in front of an operand. -/
theorem attributes_respelled {a : Attribute} {as : List Attribute} {ts mid rest : List Token}
    (h : Attribute.Spelled ts a mid) (h' : Attribute.AllSpelled mid as rest) (spelt : Spelt ts) :
    ∃ us, CanonicalAttributes ((a :: as).map (·.name)) us ∧ Conveys us ts rest := by
  induction h' generalizing a ts with
  | nil =>
    obtain ⟨first, us, spelled, path, conveys⟩ := attribute_respelled h spelt
    exact ⟨_, .one spelled path, conveys⟩
  | cons head _ ih =>
    obtain ⟨first, us, spelled, path, conveys⟩ := attribute_respelled h spelt
    obtain ⟨vs, others, conveys'⟩ := ih head (spelt.of_suffix h.suffix)
    exact ⟨_, .cons spelled path others, conveys.append conveys'.lead⟩

/-! ### Phrase by phrase

For each form of a type the types within it are those within its parts and the type itself. -/

namespace AllBuildable

variable {t : TypeExpr}

theorem self (h : t.AllBuildable) : t.Buildable :=
  h t .self

theorem of_within (own : t.Buildable) (h : ∀ s, Within s t → s = t ∨ s.Buildable) :
    t.AllBuildable := by
  intro s within
  rcases h s within with rfl | within
  · exact own
  · exact within

theorem optional (own : (TypeExpr.optional t).Buildable) (h : t.AllBuildable) :
    (TypeExpr.optional t).AllBuildable := by
  intro s within
  cases within with
  | self => exact own
  | optional within => exact h s within

theorem implicitlyUnwrapped (own : (TypeExpr.implicitlyUnwrapped t).Buildable)
    (h : t.AllBuildable) : (TypeExpr.implicitlyUnwrapped t).AllBuildable := by
  intro s within
  cases within with
  | self => exact own
  | implicitlyUnwrapped within => exact h s within

theorem array (own : (TypeExpr.array t).Buildable) (h : t.AllBuildable) :
    (TypeExpr.array t).AllBuildable := by
  intro s within
  cases within with
  | self => exact own
  | array within => exact h s within

theorem dictionary {value : TypeExpr} (own : (TypeExpr.dictionary t value).Buildable)
    (h : t.AllBuildable) (h' : value.AllBuildable) :
    (TypeExpr.dictionary t value).AllBuildable := by
  intro s within
  cases within with
  | self => exact own
  | key within => exact h s within
  | value within => exact h' s within

theorem prefixed {keyword : String} (own : (TypeExpr.prefixed keyword t).Buildable)
    (h : t.AllBuildable) : (TypeExpr.prefixed keyword t).AllBuildable := by
  intro s within
  cases within with
  | self => exact own
  | prefixed within => exact h s within

theorem attributed {attributes : List String} (own : (TypeExpr.attributed attributes t).Buildable)
    (h : t.AllBuildable) : (TypeExpr.attributed attributes t).AllBuildable := by
  intro s within
  cases within with
  | self => exact own
  | attributed within => exact h s within

theorem composition {parts : List TypeExpr} (own : (TypeExpr.composition parts).Buildable)
    (h : ∀ t ∈ parts, t.AllBuildable) : (TypeExpr.composition parts).AllBuildable := by
  intro s within
  cases within with
  | self => exact own
  | part mem within => exact h _ mem s within

theorem single {segment : PathSegment} (own : (TypeExpr.named [segment]).Buildable)
    (h : ∀ t ∈ segment.arguments, t.AllBuildable) : (TypeExpr.named [segment]).AllBuildable := by
  intro s within
  cases within with
  | self => exact own
  | argument mem mem' within =>
    obtain rfl := List.mem_singleton.mp mem
    exact h _ mem' s within

theorem snoc {path : List PathSegment} {segment : PathSegment}
    (own : (TypeExpr.named (path ++ [segment])).Buildable)
    (all : (TypeExpr.named path).AllBuildable)
    (h : ∀ t ∈ segment.arguments, t.AllBuildable) :
    (TypeExpr.named (path ++ [segment])).AllBuildable := by
  intro s within
  cases within with
  | self => exact own
  | argument mem mem' within =>
    rcases List.mem_append.mp mem with earlier | last
    · exact all s (.argument earlier mem' within)
    · obtain rfl := List.mem_singleton.mp last
      exact h _ mem' s within

end AllBuildable

/-- What is known of a phrase that was read from `ts` up to `rest`: its canonical text spells it,
with the tokens that were read but for those left out, and so for the types within it. -/
def Phrase.Respelled (ts rest : List Token) : Phrase → Prop
  | .type t => t.AllBuildable ∧ ∃ us, Canonical (.type t) t.render us ∧ Conveys us ts rest
  | .operand t => t.AllBuildable ∧ ∃ us, Canonical (.operand t) t.render us ∧ Conveys us ts rest
  | .primary t =>
    (∀ path, t = .named path → path ≠ []) ∧ t.AllBuildable ∧
      ∃ us, Canonical (.primary t) t.render us ∧ Conveys us ts rest
  | .marks before after =>
    ∀ us, Opened before us → before.AllBuildable →
      (before.endsInType = true → ¬ GoesOn before ts) →
      after.AllBuildable ∧ ∃ vs, Opened after (us ++ vs) ∧ Conveys vs ts rest
  | .parts types =>
    types ≠ [] ∧ (∀ t ∈ types, t.AllBuildable) ∧
      ∃ us, Canonical (.parts types) (renderJoined " & " types) us ∧ Conveys us ts rest
  | .segment s =>
    (∀ t ∈ s.arguments, t.AllBuildable) ∧
      ∃ u us, u.kind = .ident ∧ Canonical (.segment s) (renderSegment s) (u :: us) ∧
        Conveys (u :: us) ts rest
  | .arguments types =>
    types ≠ [] ∧ (∀ t ∈ types, t.AllBuildable) ∧
      ∃ us, Canonical (.arguments types) (renderJoined ", " types ++ ">") us ∧ Conveys us ts rest
  | .parenthesized t =>
    (∀ s, Within s t → s = t ∨ s.Buildable) ∧ (∀ path, t ≠ .named path) ∧
      ∃ text us, "(" ++ text = t.render ∧ Canonical (.parenthesized t) text us ∧ Conveys us ts rest
  | .elements es =>
    (∀ label t, .mk label t ∈ es → t.AllBuildable) ∧
      ∃ us, Canonical (.elements es) (renderElements es ++ ")") us ∧
        (es ≠ [] → ∀ u ∈ ts.head?, u.kind ≠ .closing .parenthesis) ∧ Conveys us ts rest
  | .effects es => ∃ us, CanonicalEffects es us ∧ Conveys us ts rest

theorem Spells.not_goesOn {t : TypeExpr} {ts rest : List Token} (h : Spells (.primary t) ts rest)
    (ends : t.endsInType = true) : ¬ GoesOn t rest := by
  rintro (marked | ⟨⟨path, rfl⟩, -⟩)
  · exact h.not_marked ends marked
  · cases ends

/-- Where generic arguments begin, no parenthesis closes. -/
theorem Spells.arguments_not_closing {types : List TypeExpr} {ts rest : List Token}
    (h : Spells (.arguments types) ts rest) : ∀ u ∈ ts.head?, u.kind ≠ .closing .parenthesis := by
  have starts : TypeExpr.startsOperand ts = true := by
    cases h with
    | lastArgument type | argument type => exact type.type_startsOperand
  intro u head closes
  obtain ⟨_, rfl⟩ := List.head?_eq_some_iff.mp head
  rw [TypeExpr.startsOperand, closes] at starts
  cases starts

theorem render_single (s : PathSegment) : (named [s]).render = renderSegment s := by
  rw [render, renderPath]

theorem Conveys.element {ls us ts mid rest : List Token} (label : Conveys ls ts mid)
    (type : Conveys us mid rest) : Conveys (laidElement ls us) ts rest := by
  unfold laidElement
  split
  · next none =>
    obtain rfl := List.isEmpty_iff.mp none
    exact label.append type
  · exact label.append type.lead

/-- Every phrase that tokens spell is spelled by its canonical text, and that text keeps the tokens
but for what is left out. -/
theorem Spells.respelled {p : Phrase} {ts rest : List Token} (h : Spells p ts rest)
    (spelt : Spelt ts) : p.Respelled ts rest := by
  induction h with
  | single _ _ ih =>
    obtain ⟨all, us, canonical, conveys⟩ := ih spelt
    exact ⟨all, us, canonical.single, conveys⟩
  | lastPart _ _ ih =>
    obtain ⟨all, us, canonical, conveys⟩ := ih spelt
    exact ⟨List.cons_ne_nil _ _, List.forall_mem_singleton.mpr all, us, canonical.lastPart, conveys⟩
  | composition operand ampersand _ ih ihParts =>
    obtain ⟨all, us, canonical, conveys⟩ := ih spelt
    have spelt := spelt.of_suffix operand.suffix
    obtain ⟨more, allParts, vs, canonical', conveys'⟩ := ihParts spelt.tail
    have whole := canonical.composition (operand.not_endsInFunction ampersand) more canonical'
    exact ⟨.composition ⟨_, whole⟩ (List.forall_mem_cons.mpr ⟨all, allParts⟩), _, whole,
      conveys.append (.mark spelt ampersand rfl (by simp) (not_startsElision ampersand (by simp))
        conveys'.lead)⟩
  | part operand ampersand _ ih ihParts =>
    obtain ⟨all, us, canonical, conveys⟩ := ih spelt
    have spelt := spelt.of_suffix operand.suffix
    obtain ⟨more, allParts, vs, canonical', conveys'⟩ := ihParts spelt.tail
    exact ⟨List.cons_ne_nil _ _, List.forall_mem_cons.mpr ⟨all, allParts⟩, _,
      canonical.part (operand.not_endsInFunction ampersand) more canonical',
      conveys.append (.mark spelt ampersand rfl (by simp) (not_startsElision ampersand (by simp))
        conveys'.lead)⟩
  | operand primary _ ih ihMarks =>
    obtain ⟨path, all, us, canonical, conveys⟩ := ih spelt
    have closed := fun ends => primary.not_goesOn ends
    obtain ⟨all, vs, opened, conveys'⟩ := ihMarks (spelt.of_suffix primary.suffix) us
      (.of_primary canonical path) all closed
    exact ⟨all, _, opened.operand, conveys.append conveys'⟩
  | unmarked =>
    intro us opened all _
    exact ⟨all, [], by simpa using opened, .refl⟩
  | optional question touches _ ih =>
    intro us opened all closed
    -- An operand that ends in another type would have left the mark to that.
    have plain : _ = false := Bool.eq_false_iff.mpr fun ends =>
      closed ends (.inl ⟨_, rfl, .inl question, touches⟩)
    have opened := opened.optional plain
    obtain ⟨all, vs, opened, conveys⟩ := ih spelt.tail _ opened (all.optional opened.buildable)
      fun ends => absurd ends Bool.false_ne_true
    exact ⟨all, _, by simpa using opened,
      .mark spelt question rfl (by simp) (not_startsElision question (by simp)) conveys⟩
  | implicitlyUnwrapped bang touches _ ih =>
    intro us opened all closed
    have plain : _ = false := Bool.eq_false_iff.mpr fun ends =>
      closed ends (.inl ⟨_, rfl, .inr bang, touches⟩)
    have opened := opened.implicitlyUnwrapped plain
    obtain ⟨all, vs, opened, conveys⟩ :=
      ih spelt.tail _ opened (all.implicitlyUnwrapped opened.buildable)
        fun ends => absurd ends Bool.false_ne_true
    exact ⟨all, _, by simpa using opened,
      .mark spelt bang rfl (by simp) (not_startsElision bang (by simp)) conveys⟩
  | path dot ident segment _ ihSegment ih =>
    intro us opened all _
    obtain ⟨all', v, vs, ident', canonical, conveys⟩ := ihSegment spelt.tail
    have opened := opened.segment ident' canonical
    obtain ⟨all, ws, opened, conveys'⟩ := ih (spelt.tail.of_suffix segment.suffix) _ opened
      (.snoc opened.buildable all all') fun ends => absurd ends Bool.false_ne_true
    exact ⟨all, _, by simpa using opened,
      .mark spelt dot rfl (by simp) (dot_kept dot ident) (conveys.lead.append conveys')⟩
  | attributed first others operand ih =>
    have spelt' := spelt.of_suffix first.suffix
    obtain ⟨all, vs, canonical, conveys'⟩ := ih (spelt'.of_suffix others.suffix)
    obtain ⟨us, attributes, conveys⟩ := attributes_respelled first others spelt
    -- All attributes were read, so that the operand begins with none.
    have noSign : _ = false := Bool.eq_false_iff.mpr fun sign =>
      (operand.startsWithSign_iff.mp sign).elim fun u found => others.not_sign u found.1 found.2
    have whole := Canonical.attributed attributes canonical noSign
    exact ⟨by rintro _ ⟨⟩,
      .attributed (Opened.of_primary whole (by rintro _ ⟨⟩)).buildable all, _, whole,
      conveys.append conveys'.lead⟩
  | prefixed ident known _ _ ih =>
    obtain ⟨all, us, canonical, conveys⟩ := ih spelt.tail
    have whole := canonical.prefixed (spelt.ident ident) known
    exact ⟨by rintro _ ⟨⟩,
      .prefixed (Opened.of_primary whole (by rintro _ ⟨⟩)).buildable all, _, whole,
      .name ident conveys.lead⟩
  | @named s _ _ _ _ _ _ ih =>
    obtain ⟨all, v, vs, ident, canonical, conveys⟩ := ih spelt
    have path : ∀ p, TypeExpr.named [s] = .named p → p ≠ [] := by
      rintro _ ⟨⟩
      exact List.cons_ne_nil _ _
    have whole := canonical.named ident
    rw [← render_single] at whole
    exact ⟨path, .single (Opened.of_primary whole path).buildable all, _, whole, conveys⟩
  | array opens type closes ih =>
    obtain ⟨all, us, canonical, conveys⟩ := ih spelt.tail
    have whole := canonical.array
    refine ⟨by rintro _ ⟨⟩,
      .array (Opened.of_primary whole (by rintro _ ⟨⟩)).buildable all, _, whole, ?_⟩
    exact .mark spelt opens rfl (by simp) (not_startsElision opens (by simp)) <|
      conveys.lead.append (.mark (spelt.tail.of_suffix type.suffix) closes rfl (by simp)
        (not_startsElision closes (by simp)) .refl)
  | dictionary opens key colon value closes ih ih' =>
    obtain ⟨all, us, canonical, conveys⟩ := ih spelt.tail
    have spelt' := spelt.tail.of_suffix key.suffix
    obtain ⟨all', vs, canonical', conveys'⟩ := ih' spelt'.tail
    have whole := canonical.dictionary canonical'
    refine ⟨by rintro _ ⟨⟩,
      .dictionary (Opened.of_primary whole (by rintro _ ⟨⟩)).buildable all all', _, whole, ?_⟩
    exact .mark spelt opens rfl (by simp) (not_startsElision opens (by simp)) <|
      conveys.lead.append <|
      .mark spelt' colon rfl (by simp) (not_startsElision colon (by simp)) <|
      conveys'.lead.append (.mark (spelt'.tail.of_suffix value.suffix) closes rfl (by simp)
        (not_startsElision closes (by simp)) .refl)
  | parenthesized opens _ ih =>
    obtain ⟨within, noPath, text, us, made, canonical, conveys⟩ := ih spelt.tail
    have whole := canonical.parenthesized
    rw [made] at whole
    have path : ∀ p, _ = TypeExpr.named p → p ≠ [] := fun p is => absurd is (noPath p)
    exact ⟨path, .of_within (Opened.of_primary whole path).buildable within, _, whole,
      .mark spelt opens rfl (by simp) (not_startsElision opens (by simp)) conveys.lead⟩
  | plainSegment ident =>
    exact ⟨List.forall_mem_nil _, _, _, rfl, .plainSegment (spelt.ident ident), .name ident .refl⟩
  | genericSegment ident less _ _ ih =>
    obtain ⟨more, all, us, canonical, conveys⟩ := ih spelt.tail.tail
    exact ⟨all, _, _, rfl, .genericSegment more (spelt.ident ident) canonical, .name ident <|
      .mark spelt.tail less rfl (by simp) (not_startsElision less (by simp)) conveys.lead⟩
  | lastArgument type greater ih =>
    obtain ⟨all, us, canonical, conveys⟩ := ih spelt
    exact ⟨List.cons_ne_nil _ _, List.forall_mem_singleton.mpr all, _, canonical.lastArgument,
      conveys.append (.mark (spelt.of_suffix type.suffix) greater rfl (by simp)
        (not_startsElision greater (by simp)) .refl)⟩
  | argument type comma later ih ihLater =>
    obtain ⟨all, us, canonical, conveys⟩ := ih spelt
    have spelt := spelt.of_suffix type.suffix
    obtain ⟨more, allLater, vs, canonical', conveys'⟩ := ihLater spelt.tail
    exact ⟨List.cons_ne_nil _ _, List.forall_mem_cons.mpr ⟨all, allLater⟩, _,
      canonical.argument more canonical', conveys.append (.mark spelt comma rfl (by simp)
        (comma_kept comma later.arguments_not_closing) conveys'.lead)⟩
  | tuple elements effects _ ih =>
    obtain ⟨all, us, canonical, -, conveys⟩ := ih spelt
    cases effects with
    | noEffect =>
      refine ⟨fun s within => ?_, by rintro _ ⟨⟩, _, us, ?_, canonical.tuple, conveys⟩
      · cases within with
        | self => exact .inl rfl
        | element mem within => exact .inr (all _ _ mem s within)
      · rw [render, String.append_assoc]
  | function elements effects arrow _ ih ihEffects ihResult =>
    obtain ⟨all, us, canonical, -, conveys⟩ := ih spelt
    have spelt := spelt.of_suffix elements.suffix
    obtain ⟨vs, canonicalEffects, conveys'⟩ := ihEffects spelt
    have spelt := spelt.of_suffix effects.suffix
    obtain ⟨allResult, ws, canonicalResult, conveys''⟩ := ihResult spelt.tail
    refine ⟨fun s within => ?_, by rintro _ ⟨⟩, _, _, ?_,
      canonical.function canonicalEffects canonicalResult, conveys.append <| conveys'.append <|
        .cons (laid_word_of_arrow spelt arrow) (not_startsElision arrow (by simp)) conveys''.lead⟩
    · cases within with
      | self => exact .inl rfl
      | parameter mem within => exact .inr (all _ _ mem s within)
      | result within => exact .inr (allResult s within)
    · simp only [render, String.append_assoc]
  | noElement closes =>
    refine ⟨?_, _, .noElement, absurd rfl,
      .mark spelt closes rfl (by simp) (not_startsElision closes (by simp)) .refl⟩
    intro label t mem
    cases mem
  | lastElement opens label type dots closes ih =>
    obtain ⟨ls, laid, conveysLabel⟩ := label.respelled spelt
    have spelt := spelt.of_suffix label.suffix
    obtain ⟨all, us, canonical, conveys⟩ := ih spelt
    have spelt := (spelt.of_suffix type.suffix).of_suffix dots.suffix
    have noName := dots.conveys (by rintro _ ⟨⟩; simp [closes])
    refine ⟨?_, _, canonical.lastElement laid, ?_, ?_⟩
    · intro label t mem
      cases List.mem_singleton.mp mem
      exact all
    · rintro - _ ⟨⟩
      exact opens
    · exact (conveysLabel.element conveys).append <| noName.append <|
        .mark spelt closes rfl (by simp) (not_startsElision closes (by simp)) .refl
  | @element label' t others u v ts ts₁ ts₂ more rest opens label type dots comma later ih ihLater =>
    obtain ⟨ls, laid, conveysLabel⟩ := label.respelled spelt
    have spelt := spelt.of_suffix label.suffix
    obtain ⟨all, us, canonical, conveys⟩ := ih spelt
    have spelt := (spelt.of_suffix type.suffix).of_suffix dots.suffix
    have noName := dots.conveys (by rintro _ ⟨⟩; simp [comma])
    have front := (conveysLabel.element conveys).append noName
    rw [List.append_nil] at front
    obtain ⟨allLater, vs, canonical', notClosing, conveys'⟩ := ihLater spelt.tail
    have all : ∀ label₁ t₁, .mk label₁ t₁ ∈ TupleElement.mk label' t :: others →
        t₁.AllBuildable := by
      intro label₁ t₁ mem
      rcases List.mem_cons.mp mem with same | mem
      · cases same
        exact all
      · exact allLater _ _ mem
    -- A comma behind the last element is left out.
    cases later with
    | noElement closes =>
      refine ⟨all, _, canonical.lastElement laid, ?_, front.append ?_⟩
      · rintro - _ ⟨⟩
        exact opens
      · exact @Conveys.shortened _ _ [_, _] (.comma comma closes) (by simp)
    | lastElement | element =>
      refine ⟨all, _, canonical.element laid (List.cons_ne_nil _ _) canonical', ?_, front.append ?_⟩
      · rintro - _ ⟨⟩
        exact opens
      · exact .mark spelt comma rfl (by simp)
          (comma_kept comma (notClosing (List.cons_ne_nil _ _))) conveys'.lead
  | noEffect => exact ⟨[], .nil, .refl⟩
  | effect known _ _ ih =>
    obtain ⟨us, canonical, conveys⟩ := ih spelt.tail
    have ident := Token.kind_of_isWordIn known
    exact ⟨_, canonical.effect known (spelt.ident ident), .name ident conveys⟩
  | typedEffect known opens _ type closes _ ih ihLater =>
    obtain ⟨all, us, canonical, conveys⟩ := ih spelt.tail.tail
    have spelt' := spelt.tail.tail.of_suffix type.suffix
    obtain ⟨vs, canonical', conveys'⟩ := ihLater spelt'.tail
    have ident := Token.kind_of_isWordIn known
    refine ⟨_, canonical'.typedEffect known (spelt.ident ident) canonical, .name ident ?_⟩
    exact .mark spelt.tail opens rfl (by simp) (not_startsElision opens (by simp)) <|
      conveys.lead.append <|
      .mark spelt' closes rfl (by simp) (not_startsElision closes (by simp)) conveys'

end TypeExpr

end CodableSynthesis
