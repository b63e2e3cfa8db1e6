import CodableSynthesis.Proofs.Respelling.Classes
import CodableSynthesis.Proofs.Respelling.Lines
import CodableSynthesis.Proofs.Respelling.Occurrences

/-!
Types round-trip through their canonical text. A type that was read once, written by its canonical
text as the type of a property, is read as the same type; so no two types that can be read have the
same text.

* `TypeExpr.specimen`: a class with one property, whose annotation is a given text.
* `Buildable.readSource_specimen`: the property is read with the type.
* `Buildable.eq_of_render`: types with the same text are the same.
* `readSource_render`: the law for all types that occur in a source.

The condition that a type occurs in a source is needed for the text to determine it. A type that was
never read, such as a path with a dot in one of its names, may have the text of another one.
-/

namespace CodableSynthesis

open Lexeme (Spelling)

/-- A class with one property of the given type. -/
def TypeExpr.specimen (text : String) : String :=
  "class T \x7b\nlet x: " ++ text ++ "\n\x7d"

/-- The only property of the only declaration has the given type. -/
def IsSpecimen (ds : List Declaration) (t : TypeExpr) : Prop :=
  ∃ d v, ds = [d] ∧ d.members = [.variable v] ∧ v.bindings.map (·.type?) = [some t]

/-- A specimen has one type. -/
theorem IsSpecimen.unique {ds : List Declaration} {t t' : TypeExpr} (h : IsSpecimen ds t)
    (h' : IsSpecimen ds t') : t = t' := by
  obtain ⟨d, v, rfl, members, types⟩ := h
  obtain ⟨d', v', same, members', types'⟩ := h'
  cases same
  rw [members] at members'
  cases members'
  rw [types] at types'
  cases types'
  rfl

theorem Variable.Same.annotations {σ : Comparison} {v v' : Variable} (same : v.Same σ v') :
    v.bindings.map (·.type?) = v'.bindings.map (·.type?) := by
  obtain ⟨-, -, first, others⟩ := same.parts
  have bindings : List.Forall₂ (Binding.Same σ) v.bindings v'.bindings := .cons first others
  rw [← List.forall₂_eq_eq_eq, List.forall₂_map_left_iff, List.forall₂_map_right_iff]
  exact bindings.imp fun _ _ binding => (Binding.Same.iff.mp binding).2.1

namespace TypeExpr

/-- The line of the class's heading. -/
def specimenHeading : List Token :=
  [.laid true .ident "class", .laid false .ident "T", .laid false (.opening .brace) "\x7b"]

/-- The lines behind the heading. -/
def specimenLines (us : List Token) : List Line :=
  [⟨0, .laid true .ident "let" :: .laid false .ident "x" :: .laid true .colon ":" :: lead false us⟩,
    ⟨0, [.laid true (.closing .brace) "\x7d"]⟩]

theorem cuts_specimenHeading : Cuts specimenHeading :=
  .name (.word (by decide)) (.name (.word (by decide))
    (.mark ⟨'\x7b', by simp, rfl⟩ .nil) (.blank rfl)) (.blank rfl)

variable {t : TypeExpr} {us : List Token}

theorem sound_specimenLines (h : Canonical (.type t) t.render us) :
    ∀ l ∈ specimenLines us, l.Sound := by
  have colon : (Token.laid true .colon ":").IsMark := ⟨':', by simp, rfl⟩
  refine List.forall_mem_cons.mpr ⟨Line.sound_of_cuts (by simp) ?_,
    List.forall_mem_singleton.mpr (Line.sound_of_cuts (by simp) ?_)⟩
  · exact .name (.word (by decide)) (.name (.word (by decide))
      (.mark colon (h.cuts false)) (.mark colon)) (.blank rfl)
  · exact .mark ⟨'\x7d', by simp, rfl⟩ .nil

/-- The text of the class is that of its lines. -/
theorem toList_specimen (h : Canonical (.type t) t.render us) :
    (specimen t.render).toList =
      laidText specimenHeading ++ Line.join (specimenLines us) ++ [] := by
  have front : "class T \x7b\nlet x: ".toList =
      laidText specimenHeading ++ ("\nlet x:".toList ++ [' ']) := by
    decide
  have lines : Line.join (specimenLines us) =
      "\nlet x:".toList ++ (laidText (lead false us) ++ "\n\x7d".toList) := by
    simp [specimenLines, Line.join, Line.text]
  have split (a b c r : List Char) : a ++ (b ++ [' ']) ++ r ++ c = a ++ (b ++ (' ' :: r ++ c)) := by
    simp
  calc (specimen t.render).toList
      = "class T \x7b\nlet x: ".toList ++ t.render.toList ++ "\n\x7d".toList := by
        unfold specimen
        rw [String.toList_append, String.toList_append]
    _ = laidText specimenHeading ++ ("\nlet x:".toList ++ [' ']) ++ t.render.toList ++
          "\n\x7d".toList := congrArg (· ++ _ ++ _) front
    _ = laidText specimenHeading ++ ("\nlet x:".toList ++ (' ' :: t.render.toList ++
          "\n\x7d".toList)) := split ..
    _ = _ := by rw [lines, h.text_blank, List.append_nil]

/-- The tokens of the class. -/
theorem file_specimen (h : Canonical (.type t) t.render us) :
    ∃ heading v opener closer, FileSpelled (specimenHeading ++ (specimenLines us).flatMap Line.words)
      [.type ⟨heading, [.variable v], opener, closer⟩] ∧ v.bindings.map (·.type?) = [some t] := by
  have lines : (specimenLines us).flatMap Line.words = .begun .ident "let" ::
      .laid false .ident "x" :: .laid true .colon ":" ::
        (lead false us ++ [.begun (.closing .brace) "\x7d"]) := by
    simp [specimenLines, Line.words]
  have type := @h.spells false [.begun (.closing .brace) "\x7d"] (.cons rfl)
  have leaf : LeafSpelled _ _ _ := @LeafSpelled.stored (.laid false .ident "x") _ _ .let
    (.begun .ident "let") (.laid true .colon ":") t rfl rfl rfl type
    (by rintro _ ⟨⟩; exact ⟨nofun, nofun, nofun⟩)
  rw [lines]
  generalize made : Token.begun .ident "let" :: _ = body at leaf ⊢
  have front : PrefixSpelled (specimenHeading ++ body) [] [] (specimenHeading ++ body) :=
    .none rfl (by rintro ⟨_, _, _, ⟨⟩, modifier⟩; revert modifier; decide)
  have opening : OpeningSpelled (specimenHeading ++ body) _ _ body :=
    .mk nofun front rfl (.mk (.name nofun rfl) (.none (by rintro _ ⟨⟩; nofun))
      (.none (by rintro _ ⟨⟩; nofun)) (.none (by rintro _ ⟨⟩; rfl))) rfl
  subst made
  exact ⟨_, _, _, _, .type nofun opening (.leaf ⟨nofun, nofun⟩ leaf (.close rfl)) .nil, rfl⟩

/-- The canonical text of a type that tokens spell is read as that type. -/
theorem Buildable.readSource_specimen (h : t.Buildable) :
    ∃ ds, readSource (specimen t.render) = .ok ds ∧ IsSpecimen ds t := by
  obtain ⟨us, canonical⟩ := h
  obtain ⟨heading, v, opener, closer, file, types⟩ := file_specimen canonical
  obtain ⟨ds, read, same⟩ := readSource_of_lines cuts_specimenHeading
    (sound_specimenLines canonical) .nil trailing_nil (toList_specimen canonical) file
  obtain - | @⟨_, d, _, _, declaration, ⟨⟩⟩ := same
  obtain ⟨-, members, -⟩ := declaration.parts
  generalize found : d.members = ms at members
  obtain - | @⟨_, m, _, _, member, ⟨⟩⟩ := members
  cases m with
  | type | other => cases member
  | «variable» v' =>
    have same : v.Same .blind v' := Member.variable.inj member
    exact ⟨[d], read, d, v', rfl, found, same.annotations.symm.trans types⟩

/-- Types that tokens spell are the same if their canonical texts are. -/
theorem Buildable.eq_of_render {t' : TypeExpr} (h : t.Buildable) (h' : t'.Buildable)
    (same : t.render = t'.render) : t = t' := by
  obtain ⟨ds, read, is⟩ := h.readSource_specimen
  obtain ⟨ds', read', is'⟩ := h'.readSource_specimen
  rw [← same, read] at read'
  cases read'
  exact is.unique is'

/-- Every type that occurs in a source round-trips through its canonical text: written by it as the
type of a property, it is read again as the same type. So it shares its text with no other type that
occurs in a source. -/
theorem readSource_render {source : String} {ds : List Declaration} {t : TypeExpr}
    (read : readSource source = .ok ds) (occurs : t.OccursIn ds) :
    (∃ ds', readSource (specimen t.render) = .ok ds' ∧ IsSpecimen ds' t) ∧
      ∀ source' ds' t', readSource source' = .ok ds' → t'.OccursIn ds' → t'.render = t.render →
        t' = t :=
  have own := occurs.buildable read
  ⟨own.readSource_specimen, fun _ _ _ read' occurs' same =>
    (occurs'.buildable read').eq_of_render own same⟩

/-- The annotation of a property that holds a function. -/
theorem readSource_render_function :
    ∃ ds t, readSource "class A \x7b let f: (_ x: inout [Int?]) throws -> P & Q<S.T> \x7d" = .ok ds ∧
      t.OccursIn ds ∧
      (∃ ds', readSource (specimen t.render) = .ok ds' ∧ IsSpecimen ds' t) ∧
      ∀ source' ds' t', readSource source' = .ok ds' → t'.OccursIn ds' → t'.render = t.render →
        t' = t := by
  obtain ⟨ds, d, v, b, t, read, top, member, binding, isTyped, -⟩ := @annotated_of_any
    "class A \x7b let f: (_ x: inout [Int?]) throws -> P & Q<S.T> \x7d" (fun _ _ => true)
    (by with_unfolding_all decide)
  have occurs : t.OccursIn ds := occursIn_of_annotated top member binding isTyped
  exact ⟨ds, t, read, occurs, readSource_render read occurs⟩

end TypeExpr

end CodableSynthesis
