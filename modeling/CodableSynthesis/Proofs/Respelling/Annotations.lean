import CodableSynthesis.Proofs.Printing.Members
import CodableSynthesis.Proofs.Respelling.RoundTrip

/-!
What the canonical text of an annotation keeps of the tokens it was read from: all of them, unless
the arguments of an attribute, the dots of a variadic parameter, or a comma behind the last element
of a tuple are among them.

* `Annotated`: where the annotation of a binding stands among the tokens of a source.
* `readSource_annotated`: the law, as an equivalence: the tokens of the canonical text are those
  that were read if and only if nothing was left out.
* `readSource_annotated_variadic`: a source in which something is.

The second half of the law concerns decoding: the type that a generated statement names is the
canonical text of the annotation, less the question mark if it ends with one.
-/

namespace CodableSynthesis

/-- The annotation of a binding: behind the tokens of its pattern, the first of which stands where
the binding does, and a colon, the type `t` is read from the tokens `us`, and `left` is left. -/
inductive Annotated (ts : List Token) (b : Binding) (t : TypeExpr) (us left : List Token) : Prop
  | mk {front more : List Token} {first colon : Token} :
      ts = front ++ first :: more → first.span = b.span →
      Reads (Pattern.read (first :: more)) b.pattern (colon :: us) → colon.kind = .colon →
      Reads (TypeExpr.read us) t left → Annotated ts b t us left

/-- A binding with an annotation that stands in some tokens is annotated there. -/
theorem Binding.WrittenIn.annotated {ts : List Token} {b : Binding} {t : TypeExpr}
    (h : b.WrittenIn ts) (isTyped : b.type? = some t) :
    ∃ us left, us <:+ ts ∧ TypeExpr.Spells (.type t) us left ∧ Annotated ts b t us left := by
  obtain ⟨_, _, suffix, ⟨pattern, type, -, -⟩⟩ := h
  cases type with
  | none => cases isTyped
  | some colon type =>
    cases isTyped
    have within := (List.suffix_cons _ _).trans (pattern.consumes.leaves.suffix.trans suffix)
    obtain ⟨front, rfl⟩ := suffix
    exact ⟨_, _, within, type, .mk rfl rfl (Pattern.reads_read_iff.mpr pattern) colon
      (TypeExpr.reads_read_iff.mpr type)⟩

namespace TypeExpr

/-- Laid out tokens that are a type are the tokens of its canonical text. -/
theorem Canonical.tokenize {t : TypeExpr} {us : List Token} (h : Canonical (.type t) t.render us) :
    ∃ ts, CodableSynthesis.tokenize t.render = .ok ts ∧ ts.map Token.word = us.map Token.word := by
  have tokens := @tokenize_lines _ [] [] (h.cuts true) (List.forall_mem_nil _) .nil trailing_nil
    t.render (by simp [Line.join, h.text])
  refine ⟨_, tokens, ?_⟩
  have same := @sameTokens_lines _ [] (h.cuts true) (List.forall_mem_nil _) .start
  rw [List.flatMap_nil, List.append_nil] at same
  rw [← @map_word_lead true us, eq_comm, ← List.forall₂_eq_eq_eq, List.forall₂_map_left_iff,
    List.forall₂_map_right_iff]
  exact same.imp fun t t' word => Prod.ext word.kind (congrArg String.toList word.text)

end TypeExpr

/-- The type that is decoded is the declared one, without the question mark if it ends with one. -/
theorem Field.decodedType_render (f : Field) :
    f.decodedType.render ++ (if f.isOptional then "?" else "") = f.declaredType.render := by
  obtain ⟨name, type⟩ := f
  cases type with
  | optional wrapped => simp [decodedType, isOptional, TypeExpr.wrapped?, TypeExpr.render]
  | _ => simp [decodedType, isOptional, TypeExpr.wrapped?]

/-- For every annotation in a source, the tokens of its canonical text are exactly those that were
read for it, if and only if nothing was left out of them. The type that is decoded for a field is
the annotation, without the question mark if it ends with one. -/
theorem readSource_annotated {source : String} {ds : List Declaration} {d : Declaration}
    {v : Variable} {b : Binding} {t : TypeExpr} (read : readSource source = .ok ds)
    (nested : d ∈ ds.flatMap Declaration.withNested) (member : .variable v ∈ d.members)
    (binding : b ∈ v.bindings) (isTyped : b.type? = some t) :
    ∃ ts consumed left words, tokenize source = .ok ts ∧
      Annotated ts b t (consumed ++ left) left ∧ tokenize t.render = .ok words ∧
      (words.map Token.word = consumed.map Token.word ↔
        ¬ TypeExpr.Elides (consumed ++ left) left) ∧
      ∀ f, MemberClass.ofBinding b = .field f →
        f.decodedType.render ++ (if f.isOptional then "?" else "") = t.render := by
  obtain ⟨ts, tokens, written⟩ := writtenIn_of_readSource read
  obtain ⟨us, left, suffix, spells, placed⟩ :=
    ((written d nested).members _ member b binding).annotated isTyped
  have spelt : Spelt us := fun u mem => (placed_of_tokenize tokens).spelled u (suffix.subset mem)
  obtain ⟨-, laid, canonical, consumed, rfl, -, whole⟩ := spells.respelled spelt
  obtain ⟨words, made, same⟩ := canonical.tokenize
  refine ⟨ts, consumed, left, words, tokens, placed, made, by rw [same, whole], fun f field => ?_⟩
  obtain ⟨-, type⟩ := MemberClass.ofBinding_field field
  rw [isTyped] at type
  cases type
  exact f.decodedType_render

/-- An optional dictionary. -/
theorem readSource_annotated_dictionary :
    ∃ ds d v b t, readSource "class A \x7b var x: [String: Int]? \x7d" = .ok ds ∧
      d ∈ ds.flatMap Declaration.withNested ∧ .variable v ∈ d.members ∧ b ∈ v.bindings ∧
      b.type? = some t ∧
      ∃ ts consumed left words, tokenize "class A \x7b var x: [String: Int]? \x7d" = .ok ts ∧
        Annotated ts b t (consumed ++ left) left ∧ tokenize t.render = .ok words ∧
        (words.map Token.word = consumed.map Token.word ↔
          ¬ TypeExpr.Elides (consumed ++ left) left) ∧
        ∀ f, MemberClass.ofBinding b = .field f →
          f.decodedType.render ++ (if f.isOptional then "?" else "") = t.render := by
  obtain ⟨ds, d, v, b, t, read, top, member, binding, isTyped, -⟩ := @annotated_of_any
    "class A \x7b var x: [String: Int]? \x7d" (fun _ _ => true) (by with_unfolding_all decide)
  have nested : d ∈ ds.flatMap Declaration.withNested :=
    List.mem_flatMap.mpr ⟨d, top, d.mem_withNested_self⟩
  exact ⟨ds, d, v, b, t, read, nested, member, binding, isTyped,
    readSource_annotated read nested member binding isTyped⟩

/-- The dots of a variadic parameter are lost. -/
theorem readSource_annotated_variadic :
    ∃ ds d v b t, readSource "class A \x7b let f: (Int...) -> Void \x7d" = .ok ds ∧
      d ∈ ds ∧ .variable v ∈ d.members ∧ b ∈ v.bindings ∧ b.type? = some t ∧
      ∃ ts consumed left words, tokenize "class A \x7b let f: (Int...) -> Void \x7d" = .ok ts ∧
        Annotated ts b t (consumed ++ left) left ∧ tokenize t.render = .ok words ∧
        words.map Token.word ≠ consumed.map Token.word := by
  have computed : (readSource "class A \x7b let f: (Int...) -> Void \x7d").toOption.any
      (·.any (·.members.any (Member.annotates fun b t =>
        (tokenize "class A \x7b let f: (Int...) -> Void \x7d").toOption.any fun ts =>
        ts[4]?.any fun first => ts[5]?.any fun colon =>
        (TypeExpr.read (ts.drop 6)).toOption.any fun s =>
        (tokenize t.render).toOption.any fun words =>
          decide (first.span = b.span) && decide (first.kind = .ident) &&
            decide (b.pattern.render = "f") && decide (first.text = "f") &&
            decide (colon.kind = .colon) && decide (t.render = s.value.render) &&
            decide (words.map Token.word ≠
              ((ts.drop 6).take ((ts.drop 6).length - s.rest.length)).map Token.word)))) =
      true := by
    decide +kernel
  obtain ⟨ds, d, v, b, t, read, top, member, binding, isTyped, computed⟩ := annotated_of_any computed
  obtain ⟨ts, tokens, computed⟩ := ok_of_any computed
  obtain ⟨first, fourth, computed⟩ := (Option.any_eq_true _ _).mp computed
  obtain ⟨colon, fifth, computed⟩ := (Option.any_eq_true _ _).mp computed
  obtain ⟨⟨type, left, shorter⟩, here, computed⟩ := ok_of_any computed
  obtain ⟨words, again, computed⟩ := ok_of_any computed
  simp only [Bool.and_eq_true, decide_eq_true_eq] at computed
  obtain ⟨⟨⟨⟨⟨⟨stands, ident⟩, named⟩, text⟩, isColon⟩, same⟩, differs⟩ := computed
  have named : b.pattern = .identifier first.text := by
    rw [text]
    cases pattern : b.pattern with
    | identifier name =>
      rw [pattern] at named
      exact congrArg _ named
    | wildcard =>
      rw [pattern, Pattern.render] at named
      exact absurd named (by decide)
    | tuple items =>
      rw [pattern, Pattern.render] at named
      simpa using congrArg (List.head? ∘ String.toList) named
  have spells : TypeExpr.Spells (.type type) (ts.drop 6) left :=
    TypeExpr.reads_read_iff.mp ⟨shorter, here⟩
  have spelt : Spelt (ts.drop 6) := fun u mem =>
    (placed_of_tokenize tokens).spelled u (List.mem_of_mem_drop mem)
  have own : t.Buildable := TypeExpr.OccursIn.buildable read
    (TypeExpr.occursIn_of_annotated top member binding isTyped)
  obtain rfl : t = type := own.eq_of_render (spells.respelled spelt).1.self same
  have pattern := @Pattern.Spells.name first (colon :: ts.drop 6) ident
  rw [Pattern.ofName, if_neg (by rw [text]; decide), ← named, ← Pattern.reads_read_iff] at pattern
  have parts : ts = ts.take 4 ++ first :: colon :: ts.drop 6 := by
    obtain ⟨_, rfl⟩ := List.getElem?_eq_some_iff.mp fourth
    obtain ⟨_, rfl⟩ := List.getElem?_eq_some_iff.mp fifth
    simp
  obtain ⟨consumed, cut⟩ := spells.suffix
  rw [← cut] at parts pattern spells differs
  have front : (consumed ++ left).take ((consumed ++ left).length - left.length) = consumed := by
    simp
  rw [front] at differs
  exact ⟨ds, d, v, b, t, read, top, member, binding, isTyped, ts, consumed, left, words, tokens,
    @Annotated.mk _ _ _ _ _ (ts.take 4) _ _ _ parts stands pattern isColon
      (TypeExpr.reads_read_iff.mpr spells), again, differs⟩

end CodableSynthesis
