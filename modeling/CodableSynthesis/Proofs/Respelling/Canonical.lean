import CodableSynthesis.Proofs.Printing.Types
import CodableSynthesis.Proofs.Respelling.Behind
import CodableSynthesis.Proofs.Respelling.Conveyed

/-!
The canonical text of a type, as tokens. `Canonical p text us` says that the laid out tokens `us`
have the given text and spell the phrase `p` in front of whatever may stand behind it. There is one
lemma for each form a type may have.

* `Phrase.EndsBefore`: what may stand behind a phrase.
* `Canonical.single` up to `Canonical.function`, `Canonical.attributed`: the forms of types.
* `CanonicalEffects`, `CanonicalPath`, `CanonicalAttributes`: the parts that are no types.

Each lemma is about a single step of the grammar and proves the four fields of `Canonical`: the
tokens are not empty, their text is what `render` gives, the text is cut into them again, and they
are read as the phrase. The texts of sequences include the bracket that closes them, so that they
are not empty and end by themselves.
-/

namespace CodableSynthesis.TypeExpr

open Lexeme (Spelling)

/-- What stands behind a phrase does not belong to it. -/
def Phrase.EndsBefore (rest : List Token) : Phrase → Prop
  | .type t => Before t.behindType rest
  | .parts ts => Before (behindType (.composition ts)) rest
  | .operand t | .marks _ t => Before t.behindOperand rest
  | .primary t | .parenthesized t => Before t.behindPrimary rest
  | .segment _ => Before behindSegment rest
  | .arguments _ | .elements _ => True
  | .effects _ => ∃ u ∈ rest.head?, u.kind = .arrow

/-- The laid out tokens `us` have the given text and are the phrase `p`, wherever they begin and
whatever may stand behind them. -/
structure Canonical (p : Phrase) (text : String) (us : List Token) : Prop where
  /-- There is a first token, which may be led by a blank. -/
  nonempty : us ≠ []
  /-- Their text is the one given. -/
  text : laidText (lead true us) = text.toList
  /-- Their text is cut into them again. -/
  cuts : ∀ b, Cuts (lead b us)
  /-- They are read as the phrase. -/
  spells : ∀ {b rest}, p.EndsBefore rest → Spells p (lead b us ++ rest) rest

/-- The label of a tuple element, as canonical text has it. -/
inductive LaidLabel : Option String → List Token → Prop
  | none : LaidLabel none []
  | one {a : Token} : Spelling .ident a.chars →
      LaidLabel (some a.text) [.laid true .ident a.text, .laid true .colon ":"]
  | two {a b : Token} : Spelling .ident a.chars → Spelling .ident b.chars →
      LaidLabel (some (a.text ++ " " ++ b.text))
        [.laid true .ident a.text, .laid false .ident b.text, .laid true .colon ":"]

/-- An element of a tuple: its type behind its label. -/
def laidElement (label us : List Token) : List Token :=
  if label.isEmpty then us else label ++ lead false us

theorem laidElement_ne_nil {label us : List Token} (nonempty : us ≠ []) :
    laidElement label us ≠ [] := by
  unfold laidElement
  split
  · exact nonempty
  · simpa using fun _ => nonempty

namespace Canonical

variable {t : TypeExpr} {text : String} {us vs : List Token}

theorem text_blank {p : Phrase} (h : Canonical p text us) :
    laidText (lead false us) = ' ' :: text.toList := by
  rw [laidText_lead_false h.nonempty, h.text]

/-- A type that is a single operand. -/
theorem single (h : Canonical (.operand t) text us) : Canonical (.type t) text us where
  nonempty := h.nonempty
  text := h.text
  cuts := h.cuts
  spells ends := .single (h.spells (ends.mono fun _ => behindOperand_of_behindType))
    ends.not_ampersand

/-- A composition. Its parts but the last do not end with a function, whose result would take the
ampersand. -/
theorem composition {others : List TypeExpr} (h : Canonical (.operand t) t.render us)
    (plain : t.endsInFunction = false) (more : others ≠ [])
    (later : Canonical (.parts others) (renderJoined " & " others) vs) :
    Canonical (.type (.composition (t :: others))) (render (.composition (t :: others)))
      (us ++ .laid false .ampersand "&" :: lead false vs) where
  nonempty := by simp
  text := by
    simp [h.nonempty, h.text, later.text_blank, render, renderJoined_cons more]
  cuts b := by
    rw [lead_append h.nonempty]
    refine (h.cuts b).append ?_ (.blank rfl)
    exact .mark ⟨'&', by simp, rfl⟩ (later.cuts false)
  spells {b rest} ends := by
    rw [lead_append h.nonempty, List.append_assoc]
    have behind : Before (behindType (.composition (t :: others))) rest := ends
    rw [behindType_composition more] at behind
    refine .composition (h.spells (.cons ?_)) rfl (later.spells behind)
    simp [behindOperand, plain]

/-- The last part of a composition. -/
theorem lastPart (h : Canonical (.operand t) t.render us) :
    Canonical (.parts [t]) (renderJoined " & " [t]) us where
  nonempty := h.nonempty
  text := by rw [h.text, renderJoined]
  cuts := h.cuts
  spells {b rest} ends := by
    have behind : Before t.behindType rest := ends
    exact .lastPart (h.spells (behind.mono fun _ => behindOperand_of_behindType))
      behind.not_ampersand

/-- A part of a composition in front of others. -/
theorem part {others : List TypeExpr} (h : Canonical (.operand t) t.render us)
    (plain : t.endsInFunction = false) (more : others ≠ [])
    (later : Canonical (.parts others) (renderJoined " & " others) vs) :
    Canonical (.parts (t :: others)) (renderJoined " & " (t :: others))
      (us ++ .laid false .ampersand "&" :: lead false vs) where
  nonempty := by simp
  text := by simp [h.nonempty, h.text, later.text_blank, renderJoined_cons more]
  cuts b := by
    rw [lead_append h.nonempty]
    refine (h.cuts b).append ?_ (.blank rfl)
    exact .mark ⟨'&', by simp, rfl⟩ (later.cuts false)
  spells {b rest} ends := by
    rw [lead_append h.nonempty, List.append_assoc]
    have behind : Before (behindType (.composition (t :: others))) rest := ends
    rw [behindType_composition more] at behind
    refine .part (h.spells (.cons ?_)) rfl (later.spells behind)
    simp [behindOperand, plain]

/-! ### Segments and arguments

An angle bracket touches the name before it, and arguments have a blank behind each comma. -/

theorem plainSegment {n : Token} (spelled : Spelling .ident n.chars) :
    Canonical (.segment (.mk n.text [])) (renderSegment (.mk n.text []))
      [.laid true .ident n.text] where
  nonempty := by simp
  text := by simp [renderSegment]
  cuts b := by
    rw [lead_laid]
    exact .name spelled .nil fun _ => id
  spells {b rest} ends := @Spells.plainSegment (.laid b .ident n.text) rest rfl ends.segment.1

/-- A segment with arguments. -/
theorem genericSegment {as : List TypeExpr} {n : Token} (more : as ≠ [])
    (spelled : Spelling .ident n.chars)
    (h : Canonical (.arguments as) (renderJoined ", " as ++ ">") us) :
    Canonical (.segment (.mk n.text as)) (renderSegment (.mk n.text as))
      (.laid true .ident n.text :: .laid true .less "<" :: lead true us) where
  nonempty := by simp
  text := by
    obtain ⟨a, as, rfl⟩ := List.exists_cons_of_ne_nil more
    simp [h.text, renderSegment]
  cuts b := by
    have less : (Token.laid true .less "<").IsMark := ⟨'<', by simp, rfl⟩
    rw [lead_laid]
    exact .name spelled (.mark less (h.cuts true)) (.mark less)
  spells {b rest} _ :=
    @Spells.genericSegment as (.laid b .ident n.text) _ _ rest rfl rfl rfl (h.spells trivial)

/-- The last generic argument, with the bracket that closes them. -/
theorem lastArgument (h : Canonical (.type t) t.render us) :
    Canonical (.arguments [t]) (renderJoined ", " [t] ++ ">")
      (us ++ [.laid true .greater ">"]) where
  nonempty := by simp
  text := by simp [h.nonempty, h.text, renderJoined]
  cuts b := by
    have greater : (Token.laid true .greater ">").IsMark := ⟨'>', by simp, rfl⟩
    rw [lead_append h.nonempty]
    exact (h.cuts b).append (.mark greater .nil) (.mark greater)
  spells {b rest} _ := by
    rw [lead_append h.nonempty, List.append_assoc]
    exact .lastArgument (h.spells (.cons rfl)) rfl

/-- A generic argument in front of others. -/
theorem argument {others : List TypeExpr} (h : Canonical (.type t) t.render us)
    (more : others ≠ [])
    (later : Canonical (.arguments others) (renderJoined ", " others ++ ">") vs) :
    Canonical (.arguments (t :: others)) (renderJoined ", " (t :: others) ++ ">")
      (us ++ .laid true .comma "," :: lead false vs) where
  nonempty := by simp
  text := by simp [h.nonempty, h.text, later.text_blank, renderJoined_cons more]
  cuts b := by
    have comma : (Token.laid true .comma ",").IsMark := ⟨',', by simp, rfl⟩
    rw [lead_append h.nonempty]
    exact (h.cuts b).append (.mark comma (later.cuts false)) (.mark comma)
  spells {b rest} ends := by
    rw [lead_append h.nonempty, List.append_assoc]
    exact .argument (h.spells (.cons rfl)) rfl (later.spells trivial)

/-! ### Primary types -/

/-- A path of one segment. That its name is no keyword in front of a type follows from what stands
behind. -/
theorem named {s : PathSegment} {text : String} {u : Token}
    (h : Canonical (.segment s) text (u :: us)) (ident : u.kind = .ident) :
    Canonical (.primary (.named [s])) text (u :: us) where
  nonempty := by simp
  text := h.text
  cuts := h.cuts
  spells {b rest} ends := by
    have behind : Before behindSegment rest := ends.mono fun _ => behindSegment_of_behindPrimary
    have segment := @h.spells b rest behind
    rw [lead_cons, List.cons_append] at segment ⊢
    refine .named ident (fun keyword => ?_) segment
    generalize us ++ rest = ts at segment ⊢
    cases segment with
    | plainSegment => exact ends.not_startsOperand keyword
    | genericSegment _ less => rw [startsOperand, less]

/-- A keyword in front of an operand, with a blank between. -/
theorem prefixed {keyword : Token} (h : Canonical (.operand t) t.render us)
    (spelled : Spelling .ident keyword.chars)
    (known : operandKeywords.contains keyword.text = true) :
    Canonical (.primary (.prefixed keyword.text t)) (render (.prefixed keyword.text t))
      (.laid true .ident keyword.text :: lead false us) where
  nonempty := by simp
  text := by simp [h.text_blank, render]
  cuts b := by
    rw [lead_laid]
    exact .name spelled (h.cuts false) (.lead h.nonempty)
  spells {b rest} ends := by
    have operand := @h.spells false rest
      (ends.mono fun _ => behindOperand_of_behindPrimary rfl)
    exact @Spells.prefixed t (.laid b .ident keyword.text) _ rest rfl known operand.startsOperand
      operand

/-- An element type in square brackets. -/
theorem array (h : Canonical (.type t) t.render us) :
    Canonical (.primary (.array t)) (render (.array t))
      (.laid true (.opening .square) "[" ::
        (lead true us ++ [.laid true (.closing .square) "]"])) where
  nonempty := by simp
  text := by simp [h.text, render]
  cuts b := by
    have closer : (Token.laid true (.closing .square) "]").IsMark := ⟨']', by simp, rfl⟩
    rw [lead_laid]
    refine .mark ⟨'[', by simp, rfl⟩ ?_
    exact (h.cuts true).append (.mark closer .nil) (.mark closer)
  spells {b rest} _ := by
    rw [lead_laid, List.cons_append, List.append_assoc]
    exact .array rfl (h.spells (.cons rfl)) rfl

/-- A key and a value type in square brackets. -/
theorem dictionary {value : TypeExpr} (h : Canonical (.type t) t.render us)
    (h' : Canonical (.type value) value.render vs) :
    Canonical (.primary (.dictionary t value)) (render (.dictionary t value))
      (.laid true (.opening .square) "[" :: (lead true us ++ .laid true .colon ":" ::
        (lead false vs ++ [.laid true (.closing .square) "]"]))) where
  nonempty := by simp
  text := by simp [h.text, h'.text_blank, render]
  cuts b := by
    have closer : (Token.laid true (.closing .square) "]").IsMark := ⟨']', by simp, rfl⟩
    have colon : (Token.laid true .colon ":").IsMark := ⟨':', by simp, rfl⟩
    rw [lead_laid]
    refine .mark ⟨'[', by simp, rfl⟩ ?_
    refine (h.cuts true).append (.mark colon ?_) (.mark colon)
    exact (h'.cuts false).append (.mark closer .nil) (.mark closer)
  spells {b rest} _ := by
    rw [lead_laid, List.cons_append, List.append_assoc, List.cons_append, List.append_assoc]
    exact .dictionary rfl (h.spells (.cons rfl)) rfl (h'.spells (.cons rfl)) rfl

theorem parenthesized {text : String} (h : Canonical (.parenthesized t) text us) :
    Canonical (.primary t) ("(" ++ text)
      (.laid true (.opening .parenthesis) "(" :: lead true us) where
  nonempty := by simp
  text := by simp [h.text]
  cuts b := by
    rw [lead_laid]
    exact .mark ⟨'(', by simp, rfl⟩ (h.cuts true)
  spells ends := .parenthesized rfl (h.spells ends)

/-! ### Tuples and functions -/

theorem noElement : Canonical (.elements []) (renderElements [] ++ ")")
    [.laid true (.closing .parenthesis) ")"] where
  nonempty := by simp
  text := by simp [renderElements]
  cuts b := by
    rw [lead_laid]
    exact .mark ⟨')', by simp, rfl⟩ .nil
  spells _ := .noElement rfl

theorem element_text {label : Option String} {ls : List Token} (laid : LaidLabel label ls)
    (h : Canonical (.type t) t.render us) :
    laidText (lead true (laidElement ls us)) = (renderElement (.mk label t)).toList := by
  cases laid with
  | none => simp [laidElement, h.text, renderElement]
  | one | two => simp [laidElement, h.text_blank, renderElement]

theorem element_cuts {label : Option String} {ls : List Token} (laid : LaidLabel label ls)
    (h : Canonical (.type t) t.render us) (b : Bool) : Cuts (lead b (laidElement ls us)) := by
  have colon : (Token.laid true .colon ":").IsMark := ⟨':', by simp, rfl⟩
  cases laid with
  | none => exact h.cuts b
  | one spelled => exact .name spelled (.mark colon (h.cuts false)) (.mark colon)
  | two spelled spelled' =>
    exact .name spelled (.name spelled' (.mark colon (h.cuts false)) (.mark colon))
      (.blank rfl)

/-- An element in front of a comma or of the closing parenthesis. -/
theorem element_spells {label : Option String} {ls : List Token} (laid : LaidLabel label ls)
    (h : Canonical (.type t) t.render us) {b : Bool} {rest : List Token}
    (ends : ∀ u ∈ rest.head?, u.kind = .comma ∨ u.kind = .closing .parenthesis) :
    ∃ u ts ts₁, lead b (laidElement ls us) ++ rest = u :: ts ∧ u.kind ≠ .closing .parenthesis ∧
      Label (u :: ts) label ts₁ ∧ Spells (.type t) ts₁ rest := by
  have stops : Before t.behindType rest := by
    intro u head
    refine behindType_of_stopsType ?_
    rcases ends u head with kind | kind <;> rw [kind] <;> rfl
  cases laid with
  | none =>
    have type := @h.spells b rest stops
    obtain ⟨u, ts, made⟩ : ∃ u ts, lead b us ++ rest = u :: ts :=
      List.exists_cons_of_ne_nil (by simpa using fun none => absurd none h.nonempty)
    have starts := type.type_startsOperand
    rw [made] at type starts
    have label : ¬ StartsLabel (u :: ts) := by
      refine type.not_startsLabel ?_ ?_ <;> intro v head kind <;>
        rcases ends v head with kind' | kind' <;> rw [kind'] at kind <;> cases kind
    refine ⟨u, ts, _, made, ?_, .none label, type⟩
    intro kind
    rw [startsOperand, kind] at starts
    cases starts
  | one =>
    exact ⟨_, _, _, rfl, by rintro ⟨⟩,
      @Label.one (.laid b .ident _) (.laid true .colon ":") _ rfl rfl, h.spells stops⟩
  | two =>
    exact ⟨_, _, _, rfl, by rintro ⟨⟩, @Label.two (.laid b .ident _) (.laid false .ident _)
      (.laid true .colon ":") _ rfl rfl rfl, h.spells stops⟩

theorem dots_stop {rest : List Token} {u : Token} (kind : u.kind ≠ .dot) :
    Dots (u :: rest) (u :: rest) :=
  .stop (by rintro _ ⟨⟩ ⟨dot, -⟩; exact kind dot)

/-- The last element, with the parenthesis that closes them. -/
theorem lastElement {label : Option String} {ls : List Token} (laid : LaidLabel label ls)
    (h : Canonical (.type t) t.render us) :
    Canonical (.elements [.mk label t]) (renderElements [.mk label t] ++ ")")
      (laidElement ls us ++ [.laid true (.closing .parenthesis) ")"]) where
  nonempty := by simp
  text := by simp [laidElement_ne_nil h.nonempty, element_text laid h, renderElements]
  cuts b := by
    have closer : (Token.laid true (.closing .parenthesis) ")").IsMark := ⟨')', by simp, rfl⟩
    rw [lead_append (laidElement_ne_nil h.nonempty)]
    exact (element_cuts laid h b).append (.mark closer .nil) (.mark closer)
  spells {b rest} _ := by
    rw [lead_append (laidElement_ne_nil h.nonempty), List.append_assoc]
    obtain ⟨u, ts, ts₁, made, opens, label, type⟩ := @element_spells _ _ _ _ laid h b
      ([.laid true (.closing .parenthesis) ")"] ++ rest) (by rintro _ ⟨⟩; exact .inr rfl)
    rw [made]
    exact .lastElement opens label type (dots_stop (by rintro ⟨⟩)) rfl

/-- An element in front of others. -/
theorem element {label : Option String} {ls : List Token} {others : List TupleElement}
    (laid : LaidLabel label ls) (h : Canonical (.type t) t.render us) (more : others ≠ [])
    (later : Canonical (.elements others) (renderElements others ++ ")") vs) :
    Canonical (.elements (.mk label t :: others)) (renderElements (.mk label t :: others) ++ ")")
      (laidElement ls us ++ .laid true .comma "," :: lead false vs) where
  nonempty := by simp
  text := by
    simp [laidElement_ne_nil h.nonempty, element_text laid h, later.text_blank,
      renderElements_cons more]
  cuts b := by
    have comma : (Token.laid true .comma ",").IsMark := ⟨',', by simp, rfl⟩
    rw [lead_append (laidElement_ne_nil h.nonempty)]
    exact (element_cuts laid h b).append (.mark comma (later.cuts false)) (.mark comma)
  spells {b rest} _ := by
    rw [lead_append (laidElement_ne_nil h.nonempty), List.append_assoc]
    obtain ⟨u, ts, ts₁, made, opens, label, type⟩ := @element_spells _ _ _ _ laid h b
      (.laid true .comma "," :: lead false vs ++ rest) (by rintro _ ⟨⟩; exact .inl rfl)
    rw [made]
    exact .element opens label type (dots_stop (by rintro ⟨⟩)) rfl (later.spells trivial)

theorem tuple {es : List TupleElement}
    (h : Canonical (.elements es) (renderElements es ++ ")") us) :
    Canonical (.parenthesized (.tuple es)) (renderElements es ++ ")") us where
  nonempty := h.nonempty
  text := h.text
  cuts := h.cuts
  spells {b rest} ends := by
    have behind : Before behindSegment rest := ends.mono fun _ => behindSegment_of_behindPrimary
    exact .tuple (h.spells trivial) (.noEffect behind.segment.2.1) behind.segment.2.2

end Canonical

/-- The laid out tokens `us` are the effects of a function type in front of its arrow. -/
structure CanonicalEffects (es : List String) (us : List Token) : Prop where
  text : laidText us = (String.join (es.map (" " ++ ·))).toList
  cuts : Cuts us
  apart : StartsApart us
  words : ∀ u ∈ us.head?, u.kind = .ident
  spells : ∀ {rest}, (∃ u ∈ rest.head?, u.kind = .arrow) → Spells (.effects es) (us ++ rest) rest

namespace CanonicalEffects

variable {es : List String} {us vs : List Token} {w : Token}

/-- No effects. -/
theorem nil : CanonicalEffects [] [] where
  text := rfl
  cuts := .nil
  apart _ := id
  words := nofun
  spells {rest} ends := by
    refine .noEffect fun u head => ?_
    obtain ⟨_, head', arrow⟩ := ends
    obtain rfl := Option.some_inj.mp (head.symm.trans head')
    cases isWord : u.isWordIn effectWords with
    | false => rfl
    | true =>
      rw [Token.kind_of_isWordIn isWord] at arrow
      cases arrow

/-- No parenthesis stands behind the effects. -/
theorem not_startsArguments (h : CanonicalEffects es us) {rest : List Token}
    (ends : ∃ u ∈ rest.head?, u.kind = .arrow) : ¬ Group.StartsArguments (us ++ rest) := by
  rintro ⟨u, head, opens, -⟩
  cases us with
  | nil =>
    obtain ⟨_, head', arrow⟩ := ends
    obtain rfl := Option.some_inj.mp (head.symm.trans head')
    rw [opens] at arrow
    cases arrow
  | cons v us =>
    have ident := h.words u head
    rw [opens] at ident
    cases ident

/-- An effect without a type. -/
theorem effect (h : CanonicalEffects es us) (known : w.isWordIn effectWords = true)
    (spelled : Spelling .ident w.chars) :
    CanonicalEffects (w.text :: es) (.laid false .ident w.text :: us) where
  text := by simp [h.text]
  cuts := .name spelled h.cuts h.apart
  apart := .blank rfl
  words := by
    rintro _ ⟨⟩
    rfl
  spells ends := by
    have known : (Token.laid false .ident w.text).isWordIn effectWords = true := by
      simpa [Token.isWordIn, Token.kind_of_isWordIn known] using known
    exact .effect known (h.not_startsArguments ends) (h.spells ends)

/-- An effect with a type in parentheses, which touch it. -/
theorem typedEffect {error : TypeExpr} (h : CanonicalEffects es us)
    (known : w.isWordIn effectWords = true) (spelled : Spelling .ident w.chars)
    (type : Canonical (.type error) error.render vs) :
    CanonicalEffects ((w.text ++ "(" ++ error.render ++ ")") :: es)
      (.laid false .ident w.text :: .laid true (.opening .parenthesis) "(" ::
        (lead true vs ++ .laid true (.closing .parenthesis) ")" :: us)) where
  text := by simp [h.text, type.text]
  cuts := by
    have opener : (Token.laid true (.opening .parenthesis) "(").IsMark := ⟨'(', by simp, rfl⟩
    have closer : (Token.laid true (.closing .parenthesis) ")").IsMark := ⟨')', by simp, rfl⟩
    refine .name spelled (.mark opener ?_) (.mark opener)
    exact (type.cuts true).append (.mark closer h.cuts) (.mark closer)
  apart := .blank rfl
  words := by
    rintro _ ⟨⟩
    rfl
  spells ends := by
    have known : (Token.laid false .ident w.text).isWordIn effectWords = true := by
      simpa [Token.isWordIn, Token.kind_of_isWordIn known] using known
    rw [List.cons_append, List.cons_append, List.append_assoc]
    exact .typedEffect known rfl rfl (type.spells (.cons rfl)) rfl (h.spells ends)

end CanonicalEffects

/-- A function type behind its opening parenthesis. -/
theorem Canonical.function {es : List TupleElement} {fx : List String} {result : TypeExpr}
    {us vs ws : List Token} (h : Canonical (.elements es) (renderElements es ++ ")") us)
    (effects : CanonicalEffects fx vs) (type : Canonical (.type result) result.render ws) :
    Canonical (.parenthesized (.function es fx result))
      (renderElements es ++ ")" ++ String.join (fx.map (" " ++ ·)) ++ " -> " ++ result.render)
      (us ++ (vs ++ .laid false .arrow "->" :: lead false ws)) where
  nonempty := by simp
  text := by simp [h.nonempty, h.text, effects.text, type.text_blank]
  cuts b := by
    rw [lead_append h.nonempty]
    have behind : Cuts (vs ++ .laid false .arrow "->" :: lead false ws) :=
      effects.cuts.append (.arrow (type.cuts false)) (.blank rfl)
    refine (h.cuts b).append behind ?_
    cases vs with
    | nil => exact .blank rfl
    | cons v vs =>
      intro cs ends
      rw [laidText_append, List.append_assoc]
      exact effects.apart _ (StartsApart.blank rfl _ ends)
  spells {b rest} ends := by
    rw [lead_append h.nonempty, List.append_assoc, List.append_assoc]
    refine .function (h.spells trivial) (effects.spells ⟨_, rfl, rfl⟩) rfl (type.spells ?_)
    have behind : Before (behindType (.function es fx result)) rest := ends.mono fun _ allowed =>
      behindType_of_behindOperand rfl (behindOperand_of_behindPrimary rfl allowed)
    exact behind

/-! ### Attributes

The names of attributes are all that is written of them. -/

/-- The laid out tokens `us` make the dotted name `name` go on to `name'`. -/
structure CanonicalPath (name name' : String) (us : List Token) : Prop where
  text : name'.toList = name.toList ++ laidText us
  cuts : Cuts us
  apart : StartsApart us
  spells : ∀ {last rest}, ¬ StartsSegment rest →
    ∃ last', Attribute.Path name last (us ++ rest) name' last' rest

theorem CanonicalPath.stop {name : String} : CanonicalPath name name [] where
  text := by simp
  cuts := .nil
  apart _ := id
  spells ends := ⟨_, .stop ends⟩

theorem CanonicalPath.segment {name name' : String} {n : Token} {us : List Token}
    (spelled : Spelling .ident n.chars) (h : CanonicalPath (name ++ "." ++ n.text) name' us) :
    CanonicalPath name name' (.laid true .dot "." :: .laid true .ident n.text :: us) where
  text := by simp [h.text]
  cuts := .mark ⟨'.', by simp, rfl⟩ (.name spelled h.cuts h.apart)
  apart := .mark ⟨'.', by simp, rfl⟩
  spells {last rest} ends := by
    obtain ⟨last', path⟩ := @h.spells ⟨0, 0, 0, 0⟩ rest ends
    exact ⟨last', .segment rfl rfl path⟩

/-- The laid out tokens `us` are attributes with the given names. -/
structure CanonicalAttributes (names : List String) (us : List Token) : Prop where
  nonempty : us ≠ []
  text : laidText (lead true us) ++ [' '] =
    (String.join (names.map fun a => "@" ++ a ++ " ")).toList
  cuts : ∀ b, Cuts (lead b us)
  spells : ∀ {b rest}, startsOperand rest = true →
    (∀ u ∈ rest.head?, u.touches = false ∧ u.kind ≠ .atSign) →
    ∃ a as mid, Attribute.Spelled (lead b us ++ rest) a mid ∧ Attribute.AllSpelled mid as rest ∧
      (a :: as).map (·.name) = names

namespace CanonicalAttributes

variable {names : List String} {us vs : List Token} {name : String} {first : Token}

/-- Behind an attribute stands no segment of its name and no arguments. -/
theorem attribute_spells (path : CanonicalPath first.text name us) {b : Bool} {rest : List Token}
    (plain : ∀ u ∈ rest.head?, u.kind ≠ .dot ∧ u.touches = false) :
    ∃ a : Attribute, a.name = name ∧
      Attribute.Spelled (.laid b .atSign "@" :: .laid true .ident first.text :: (us ++ rest)) a
        rest := by
  obtain ⟨last, spelled⟩ := @path.spells ⟨0, 0, 0, 0⟩ rest (by
    rintro ⟨u, _, _, rfl, dot, -⟩
    exact (plain u rfl).1 dot)
  have noArguments : ¬ Group.StartsArguments rest := by
    rintro ⟨u, head, -, touches⟩
    rw [(plain u head).2] at touches
    cases touches
  exact ⟨_, rfl, @Attribute.Spelled.mk (.laid b .atSign "@") (.laid true .ident first.text)
    _ _ _ _ _ _ rfl rfl spelled (.none noArguments)⟩

theorem one (spelled : Spelling .ident first.chars) (path : CanonicalPath first.text name us) :
    CanonicalAttributes [name] (.laid true .atSign "@" :: .laid true .ident first.text :: us) where
  nonempty := by simp
  text := by simp [path.text]
  cuts b := by
    rw [lead_laid]
    exact .mark ⟨'@', by simp, rfl⟩ (.name spelled path.cuts path.apart)
  spells {b rest} starts apart := by
    obtain ⟨a, rfl, here⟩ := @attribute_spells _ _ _ path b rest (by
      intro u head
      refine ⟨fun dot => ?_, (apart u head).1⟩
      obtain ⟨_, rfl⟩ := List.head?_eq_some_iff.mp head
      rw [startsOperand, dot] at starts
      cases starts)
    exact ⟨a, [], rest, here, .nil fun u head => (apart u head).2, rfl⟩

theorem cons (spelled : Spelling .ident first.chars) (path : CanonicalPath first.text name us)
    (later : CanonicalAttributes names vs) :
    CanonicalAttributes (name :: names)
      (.laid true .atSign "@" :: .laid true .ident first.text :: (us ++ lead false vs)) where
  nonempty := by simp
  text := by simp [path.text, laidText_lead_false later.nonempty, ← later.text]
  cuts b := by
    rw [lead_laid]
    refine .mark ⟨'@', by simp, rfl⟩ (.name spelled
      (path.cuts.append (later.cuts false) (.lead later.nonempty)) fun cs ends => ?_)
    rw [laidText_append, List.append_assoc]
    exact path.apart _ (StartsApart.lead later.nonempty _ ends)
  spells {b rest} starts apart := by
    obtain ⟨a', as, mid, later', others, rfl⟩ := @later.spells false rest starts apart
    obtain ⟨a, rfl, here⟩ := @attribute_spells _ _ _ path b (lead false vs ++ rest) (by
      obtain ⟨v, vs, rfl⟩ := List.exists_cons_of_ne_nil later.nonempty
      obtain ⟨_, _, made, sign, -⟩ := later'.head
      rw [lead_cons, List.cons_append, List.cons.injEq] at made
      rintro _ ⟨⟩
      rw [← made.1] at sign
      exact ⟨by rw [sign]; nofun, rfl⟩)
    exact ⟨a, a' :: as, _, by simpa using here, .cons later' others, rfl⟩

end CanonicalAttributes

/-- Attributes in front of an operand, with a blank behind each. -/
theorem Canonical.attributed {names : List String} {t : TypeExpr} {us vs : List Token}
    (attributes : CanonicalAttributes names us) (h : Canonical (.operand t) t.render vs)
    (noSign : t.startsWithSign = false) :
    Canonical (.primary (.attributed names t)) (render (.attributed names t))
      (us ++ lead false vs) where
  nonempty := by simp [attributes.nonempty]
  text := by
    rw [lead_append attributes.nonempty, laidText_append, h.text_blank, render,
      String.toList_append, ← attributes.text]
    simp
  cuts b := by
    rw [lead_append attributes.nonempty]
    exact (attributes.cuts b).append (h.cuts false) (.lead h.nonempty)
  spells {b rest} ends := by
    have operand := @h.spells false rest (ends.mono fun _ => behindOperand_of_behindPrimary rfl)
    obtain ⟨a, as, mid, first, others, rfl⟩ :=
      @attributes.spells b (lead false vs ++ rest) operand.startsOperand (by
        intro u head
        constructor
        · obtain ⟨v, vs, rfl⟩ := List.exists_cons_of_ne_nil h.nonempty
          cases head
          rfl
        · intro sign
          rw [operand.startsWithSign_iff.mpr ⟨u, head, sign⟩] at noSign
          cases noSign)
    rw [lead_append attributes.nonempty, List.append_assoc]
    exact .attributed first others operand

end CodableSynthesis.TypeExpr
