import CodableSynthesis.Proofs.Grammar.Ends
import CodableSynthesis.Proofs.Layout.Placed
import CodableSynthesis.Proofs.Lexing.Words

/-!
The canonical text of a type that was read is made of blanks, names and marks.

* `Separator`: a text that keeps apart what stands on either side.
* `Printed.join`, `Printed.between`: texts are put together with separators.
* `TypeExpr.Spells.printed`: the text of every type that tokens spell is printed in this way.

Names come from tokens, so that each of them is one. What has to be shown is that no two of them run
together in the text: between any two names the program puts a mark or a blank. The separators are
all there are in the text of a type, one lemma each, so that a change to one of them is found here.

The text of an optional type is looked at in two ways, as a whole and without its question mark,
since the second is what a decoding statement names.
-/

namespace CodableSynthesis

open Lexeme (Spelling)

/-- A text that keeps apart what stands on either side. -/
structure Separator (s : String) : Prop where
  /-- It is made of blanks and marks itself. -/
  printed : Printed s
  /-- No name in front of it goes on with it. -/
  first : EndsName s.toList
  /-- It does not end with a name that one behind it goes on with. -/
  last : Closed s.toList
  /-- It is not empty. -/
  some : s.toList ≠ []

/-- Whether no name begins in front of a text or goes on behind it. -/
def separates (s : String) : Bool :=
  isPrinted false s.toList && s.toList.head?.any (!Lexeme.continuesName ·)
    && s.toList.getLast?.all (!Lexeme.continuesName ·)

/-- A fixed text is tested. -/
theorem Separator.fixed {s : String} (h : separates s = true) : Separator s := by
  rw [separates, Bool.and_eq_true, Bool.and_eq_true] at h
  obtain ⟨⟨printed, first⟩, last⟩ := h
  refine ⟨.fixed printed, ?_, ?_, ?_⟩
  · intro c head
    rw [Option.mem_def.mp head] at first
    simpa using first
  · intro c end_
    rw [Option.mem_def.mp end_] at last
    simpa using last
  · intro none
    rw [none] at first
    cases first

namespace Separator

theorem dot : Separator "." := .fixed (by decide)

theorem comma : Separator ", " := .fixed (by decide)

theorem colon : Separator ": " := .fixed (by decide)

theorem ampersand : Separator " & " := .fixed (by decide)

theorem blank : Separator " " := .fixed (by decide)

theorem question : Separator "?" := .fixed (by decide)

theorem bang : Separator "!" := .fixed (by decide)

theorem openSquare : Separator "[" := .fixed (by decide)

theorem closeSquare : Separator "]" := .fixed (by decide)

theorem openParenthesis : Separator "(" := .fixed (by decide)

theorem closeParenthesis : Separator ")" := .fixed (by decide)

theorem openAngle : Separator "<" := .fixed (by decide)

theorem closeAngle : Separator ">" := .fixed (by decide)

theorem atSign : Separator "@" := .fixed (by decide)

end Separator

theorem Separator.arrow : Separator " -> " := by
  refine ⟨⟨_, .blank (.arrow (.blank .nil))⟩, ?_, ?_, nofun⟩
  · rintro _ ⟨⟩
    decide
  · rintro _ ⟨⟩
    decide

namespace Printed

variable {s t m : String}

theorem before (h : Printed s) (sep : Separator m) : Printed (s ++ m) :=
  h.append sep.printed (.inl sep.first)

theorem behind (h : Printed s) (sep : Separator m) : Printed (m ++ s) :=
  sep.printed.append h (.inr sep.last)

/-- Two texts with a separator between them. -/
theorem join (h : Printed s) (sep : Separator m) (h' : Printed t) : Printed (s ++ m ++ t) := by
  refine (h.before sep).append h' (.inr ?_)
  rw [String.toList_append]
  exact sep.last.append _ sep.some

/-- A text between two separators. -/
theorem between {m' : String} (sep : Separator m) (h : Printed s) (sep' : Separator m') :
    Printed (m ++ s ++ m') :=
  (h.behind sep).before sep'

end Printed

/-- Tokens with texts that their kinds may have. -/
def Spelt (ts : List Token) : Prop :=
  ∀ t ∈ ts, Spelling t.kind t.chars

theorem Spelt.of_suffix {ts rest : List Token} (h : Spelt ts) (suffix : rest <:+ ts) : Spelt rest :=
  fun t mem => h t (suffix.subset mem)

theorem Spelt.name {t : Token} {ts : List Token} (h : Spelt (t :: ts)) (ident : t.kind = .ident) :
    Printed t.text :=
  .name (ident ▸ h t (.head _))

theorem join_cons (s : String) (l : List String) : String.join (s :: l) = s ++ String.join l := by
  have go (l : List String) (a : String) : l.foldl (· ++ ·) a = a ++ String.join l := by
    rw [String.join]
    induction l generalizing a with
    | nil => simp
    | cons b l ih =>
      rw [List.foldl_cons, List.foldl_cons, ih, ih ("" ++ b), String.append_assoc]
      simp
  rw [String.join, List.foldl_cons, go]
  simp

theorem printed_empty : Printed "" :=
  ⟨_, .nil⟩

/-- Texts behind one another, each behind a separator. -/
theorem printed_join {m : String} (sep : Separator m) {texts : List String}
    (h : ∀ s ∈ texts, Printed s) : Printed (String.join (texts.map (m ++ ·))) := by
  induction texts with
  | nil => exact printed_empty
  | cons s texts ih =>
    rw [List.map_cons, join_cons]
    refine ((h s (.head _)).behind sep).append (ih fun t mem => h t (.tail _ mem)) (.inl ?_)
    cases texts with
    | nil => nofun
    | cons t texts =>
      rw [List.map_cons, join_cons, String.toList_append, String.toList_append]
      exact (sep.first.append _ sep.some).append _ (by simp [sep.some])

/-- Attributes, by name, in front of a text. -/
theorem printed_attributes {as : List Attribute} {s : String} (h : ∀ a ∈ as, Printed a.name)
    (later : Printed s) :
    Printed (String.join (as.map ((fun a => "@" ++ a ++ " ") ∘ (·.name))) ++ s) := by
  induction as with
  | nil => exact printed_empty.append later (.inr nofun)
  | cons a as ih =>
    rw [List.map_cons, join_cons, String.append_assoc]
    refine Printed.append (.between .atSign (h a (.head _)) .blank)
      (ih fun b mem => h b (.tail _ mem)) (.inr ?_)
    rw [Function.comp_apply, String.toList_append]
    exact Separator.blank.last.append _ nofun

namespace Attribute

/-- The dotted name of an attribute. -/
theorem Path.printed {name name' : String} {last last' : Text.Span} {ts rest : List Token}
    (h : Path name last ts name' last' rest) (spelt : Spelt ts) (printed : Printed name) :
    Printed name' := by
  induction h with
  | stop => exact printed
  | segment _ ident _ ih =>
    have spelt := spelt.of_suffix (List.suffix_cons _ _)
    exact ih (spelt.of_suffix (List.suffix_cons _ _)) (printed.join .dot (spelt.name ident))

theorem Spelled.printed {a : Attribute} {ts rest : List Token} (h : Spelled ts a rest)
    (spelt : Spelt ts) : Printed a.name := by
  obtain ⟨-, ident, path, -⟩ := h
  have spelt := spelt.of_suffix (List.suffix_cons _ _)
  exact path.printed (spelt.of_suffix (List.suffix_cons _ _)) (spelt.name ident)

theorem AllSpelled.printed {as : List Attribute} {ts rest : List Token} (h : AllSpelled ts as rest)
    (spelt : Spelt ts) : ∀ a ∈ as, Printed a.name := by
  induction h with
  | nil => nofun
  | cons spelled _ ih =>
    exact List.forall_mem_cons.mpr
      ⟨spelled.printed spelt, ih (spelt.of_suffix spelled.suffix)⟩

end Attribute

namespace TypeExpr

/-- The text of a type is made of blanks, names and marks, and so is that of the type it wraps. -/
structure Printed (t : TypeExpr) : Prop where
  whole : CodableSynthesis.Printed t.render
  wrapped : ∀ u ∈ t.wrapped?, CodableSynthesis.Printed u.render

theorem Printed.plain {t : TypeExpr} (h : CodableSynthesis.Printed t.render)
    (none : t.wrapped? = none) : t.Printed :=
  ⟨h, by rw [none]; nofun⟩

theorem Printed.optional {t : TypeExpr} (h : CodableSynthesis.Printed t.render) :
    (TypeExpr.optional t).Printed := by
  refine ⟨?_, ?_⟩
  · rw [render]
    exact h.before .question
  · rintro _ ⟨⟩
    exact h

/-- The text of a phrase is made of blanks, names and marks. A phrase that adds to what was read
before, as the marks behind a type do, keeps a printed text printed. -/
def Phrase.Printed : Phrase → Prop
  | .type t | .operand t | .primary t | .parenthesized t => t.Printed
  | .marks before after => before.Printed → after.Printed
  | .parts ts => ts ≠ [] ∧ CodableSynthesis.Printed (renderJoined " & " ts)
  | .segment s => CodableSynthesis.Printed (renderSegment s)
  | .arguments ts => ts ≠ [] ∧ CodableSynthesis.Printed (renderJoined ", " ts)
  | .elements es => CodableSynthesis.Printed (renderElements es)
  | .effects es => ∀ e ∈ es, CodableSynthesis.Printed e

theorem renderJoined_cons {separator : String} {t : TypeExpr} {ts : List TypeExpr} (h : ts ≠ []) :
    renderJoined separator (t :: ts) = t.render ++ separator ++ renderJoined separator ts := by
  cases ts with
  | nil => exact absurd rfl h
  | cons u ts => rw [renderJoined]

/-- One more segment of a path. -/
theorem renderPath_snoc {path : List PathSegment} {s : PathSegment} (h : path ≠ []) :
    renderPath (path ++ [s]) = renderPath path ++ "." ++ renderSegment s := by
  induction path with
  | nil => exact absurd rfl h
  | cons a path ih =>
    cases path with
    | nil => simp [renderPath]
    | cons b path =>
      rw [List.cons_append, List.cons_append, renderPath, ← List.cons_append, ih nofun]
      simp [renderPath, String.append_assoc]

theorem renderElements_cons {e : TupleElement} {es : List TupleElement} (h : es ≠ []) :
    renderElements (e :: es) = renderElement e ++ ", " ++ renderElements es := by
  cases es with
  | nil => exact absurd rfl h
  | cons f es => rw [renderElements]

theorem printed_elements {label : Option String} {t : TypeExpr} {es : List TupleElement}
    (hl : ∀ l ∈ label, CodableSynthesis.Printed l) (ht : CodableSynthesis.Printed t.render)
    (hes : CodableSynthesis.Printed (renderElements es)) :
    CodableSynthesis.Printed (renderElements (.mk label t :: es)) := by
  have here : CodableSynthesis.Printed (renderElement (.mk label t)) := by
    cases label with
    | none => rwa [renderElement]
    | some l =>
      rw [renderElement]
      exact (hl l rfl).join .colon ht
  cases es with
  | nil => rwa [renderElements]
  | cons e es =>
    rw [renderElements_cons (List.cons_ne_nil _ _)]
    exact here.join .comma hes

theorem Label.printed {label : Option String} {ts rest : List Token} (h : Label ts label rest)
    (spelt : Spelt ts) : ∀ l ∈ label, CodableSynthesis.Printed l := by
  cases h with
  | none => nofun
  | one ident =>
    rintro _ ⟨⟩
    exact spelt.name ident
  | two first second =>
    rintro _ ⟨⟩
    exact (spelt.name first).join .blank
      ((spelt.of_suffix (List.suffix_cons _ _)).name second)

/-- What tokens spell is printed as blanks, names and marks. The induction is on the reading, with a
case for each production of the grammar of types. -/
theorem Spells.printed {p : Phrase} {ts rest : List Token} (h : Spells p ts rest)
    (spelt : Spelt ts) : p.Printed := by
  have later {t : Token} {us : List Token} (h : Spelt (t :: us)) : Spelt us :=
    h.of_suffix (List.suffix_cons _ _)
  induction h with
  | single _ _ ih => exact ih spelt
  | lastPart _ _ ih => exact ⟨nofun, by rw [renderJoined]; exact (ih spelt).whole⟩
  | composition operand _ _ ih ihParts =>
    obtain ⟨some_, parts⟩ := ihParts (later (spelt.of_suffix operand.suffix))
    refine .plain ?_ rfl
    rw [render, renderJoined_cons some_]
    exact (ih spelt).whole.join .ampersand parts
  | part operand _ _ ih ihParts =>
    obtain ⟨some_, parts⟩ := ihParts (later (spelt.of_suffix operand.suffix))
    refine ⟨nofun, ?_⟩
    rw [renderJoined_cons some_]
    exact (ih spelt).whole.join .ampersand parts
  | operand primary _ ih ihMarks =>
    exact ihMarks (spelt.of_suffix primary.suffix) (ih spelt)
  | unmarked => exact id
  | optional _ _ _ ih => exact fun before => ih (later spelt) (.optional before.whole)
  | implicitlyUnwrapped _ _ _ ih =>
    refine fun before => ih (later spelt) (.plain ?_ rfl)
    rw [render]
    exact before.whole.before .bang
  | @path path s t u n ts mid rest _ _ segment _ ihSegment ih =>
    intro before
    have spelt := later spelt
    have segmentPrinted := ihSegment spelt
    refine ih (spelt.of_suffix segment.suffix) (.plain ?_ rfl)
    have front := before.whole
    rw [render] at front ⊢
    cases path with
    | nil => rwa [List.nil_append, renderPath]
    | cons a path =>
      rw [renderPath_snoc (List.cons_ne_nil _ _)]
      exact front.join .dot segmentPrinted
  | @attributed a as _ _ _ _ _ first others operand ih =>
    have spelt₁ := spelt.of_suffix first.suffix
    have names : ∀ b ∈ a :: as, CodableSynthesis.Printed b.name :=
      List.forall_mem_cons.mpr ⟨first.printed spelt, others.printed spelt₁⟩
    refine .plain ?_ rfl
    rw [render, List.map_map]
    exact printed_attributes names (ih (spelt₁.of_suffix others.suffix)).whole
  | prefixed ident _ _ _ ih =>
    refine .plain ?_ rfl
    rw [render]
    exact (spelt.name ident).join .blank (ih (later spelt)).whole
  | named _ _ _ ih =>
    refine .plain ?_ rfl
    rw [render, renderPath]
    exact ih spelt
  | array _ _ _ ih =>
    refine .plain ?_ rfl
    rw [render]
    exact .between .openSquare (ih (later spelt)).whole .closeSquare
  | dictionary _ key _ _ _ ihKey ihValue =>
    have keyPrinted := (ihKey (later spelt)).whole
    have valuePrinted := (ihValue (later ((later spelt).of_suffix key.suffix))).whole
    refine .plain ?_ rfl
    rw [render]
    exact ((keyPrinted.behind .openSquare).join .colon valuePrinted).before .closeSquare
  | parenthesized _ _ ih => exact ih (later spelt)
  | plainSegment ident =>
    rw [Phrase.Printed, renderSegment]
    exact spelt.name ident
  | @genericSegment as n u ts rest ident _ _ _ ih =>
    obtain ⟨some_, arguments⟩ := ih (later (later spelt))
    obtain ⟨a, as, rfl⟩ := List.exists_cons_of_ne_nil some_
    rw [Phrase.Printed, renderSegment]
    exact ((spelt.name ident).join .openAngle arguments).before .closeAngle
  | lastArgument _ _ ih => exact ⟨nofun, by rw [renderJoined]; exact (ih spelt).whole⟩
  | argument type _ _ ih ihMore =>
    obtain ⟨some_, others⟩ := ihMore (later (spelt.of_suffix type.suffix))
    refine ⟨nofun, ?_⟩
    rw [renderJoined_cons some_]
    exact (ih spelt).whole.join .comma others
  | tuple _ _ _ ih =>
    refine .plain ?_ rfl
    rw [render]
    exact .between .openParenthesis (ih spelt) .closeParenthesis
  | function elements effects _ _ ih ihEffects ihResult =>
    have spelt₁ := spelt.of_suffix elements.suffix
    have spelt₂ := later (spelt₁.of_suffix effects.suffix)
    refine .plain ?_ rfl
    rw [render]
    have front := CodableSynthesis.Printed.between .openParenthesis (ih spelt) .closeParenthesis
    refine (front.append (printed_join .blank (ihEffects spelt₁)) (.inr ?_)).join .arrow
      (ihResult spelt₂).whole
    rw [String.toList_append]
    exact Separator.closeParenthesis.last.append _ nofun
  | noElement =>
    rw [Phrase.Printed, renderElements]
    exact printed_empty
  | lastElement _ label _ _ _ ih =>
    refine printed_elements (label.printed spelt) (ih (spelt.of_suffix label.suffix)).whole ?_
    rw [renderElements]
    exact printed_empty
  | element _ label type dots _ _ ih ihMore =>
    have spelt₁ := spelt.of_suffix label.suffix
    have spelt₂ := (spelt₁.of_suffix type.suffix).of_suffix dots.suffix
    exact printed_elements (label.printed spelt) (ih spelt₁).whole (ihMore (later spelt₂))
  | noEffect => nofun
  | effect isEffect _ _ ih =>
    exact List.forall_mem_cons.mpr
      ⟨spelt.name (Token.kind_of_isWordIn isEffect), ih (later spelt)⟩
  | typedEffect isEffect _ _ error _ _ ihError ih =>
    have spelt₂ := later (later spelt)
    refine List.forall_mem_cons.mpr ⟨?_, ih (later (spelt₂.of_suffix error.suffix))⟩
    exact ((spelt.name (Token.kind_of_isWordIn isEffect)).join .openParenthesis
      (ihError spelt₂).whole).before .closeParenthesis

end TypeExpr

end CodableSynthesis
