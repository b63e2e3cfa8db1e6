import CodableSynthesis.Proofs.Layout.Order
import CodableSynthesis.Proofs.Repeated.FixedPoints
import CodableSynthesis.Proofs.Repeated.Models
import CodableSynthesis.Proofs.Repeated.Names
import Mathlib.Data.List.Infix

/-!
Expanding twice. What an expansion puts into a source is read as members and extensions that are not
annotated, and what it leaves is read as before but for the attributes that it takes out. So there
is nothing to expand any more.

* `Declaration.SetApart`: what is around an annotated declaration does not go on with it.
* `Declaration.SetApart.prepared`: so it is prepared for its expansion.
* `expandSource_again`: the second expansion leaves the text as it is.
* `expandSource_again_unreadable`: an expansion that cannot be read again.

The promise fails where taking attributes out, or putting declarations in, changes what the tokens
around are read as. Each field of `Declaration.SetApart` is one way in which that can happen, and is
stated on the tokens of the source next to an annotated declaration; nothing is asked of sources
without such tokens there. Two more conditions are about the source as a whole: no two names may be
joined, and every sign of an attribute has to have a name behind it.

The conditions are sufficient. Whether a source that violates one of them expands to something
readable depends on what else stands there. The second expansion may be made with another width of
indentation.
-/

namespace CodableSynthesis

variable {source : String} {ts : List Token} {ds : List Declaration}

namespace Declaration

/-- What stands around an annotated declaration, among the tokens of its source, goes on neither
with what an expansion leaves of the declaration nor with what it puts in. -/
structure SetApart (tokens : List Token) (name : String) (d : Declaration) : Prop where
  /-- No dot stands directly in front of an attribute that is expanded. -/
  attributes : ∀ a ∈ d.heading.attributes, a.isExpanded = true →
    ∀ p ∈ tokens.zip tokens.tail, p.2.span = a.first → p.1.kind ≠ .dot
  /-- No angle bracket behind the keyword closes generic arguments that might be open in front of
  it. -/
  heading : ∀ ts ∈ tokens.tails, ∀ keyword ∈ ts.head?, keyword.span = d.heading.keyword →
    Group.afterArguments? 0 ts.tail = none
  /-- No type, value or modifier goes on behind the last token of the body. -/
  body : d.heading.kind = .classType → ∀ p ∈ tokens.zip tokens.tail, p.2.span = d.closer →
    p.1.reachesOn = false
  /-- The body does not end with attributes. -/
  last : d.heading.kind = .classType → ∀ text, .other text d.closer ∉ d.members
  /-- The dotted name is a type, which can be extended. -/
  name : d.heading.kind = .classType → ∃ t : TypeExpr, t.IsWritten ∧ t.render = name

/-- Tokens that follow one another are among the pairs of neighbours. -/
theorem mem_zip_tail {b c : Token} {more : List Token} (suffix : b :: c :: more <:+ ts) :
    (b, c) ∈ ts.zip ts.tail := by
  obtain ⟨front, rfl⟩ := suffix
  induction front with
  | nil => exact .head _
  | cons t front ih =>
    obtain ⟨u, us, made⟩ : ∃ u us, front ++ b :: c :: more = u :: us :=
      List.exists_cons_of_ne_nil (by simp)
    rw [List.cons_append, List.tail_cons, made, List.zip_cons_cons]
    rw [made] at ih
    exact .tail _ ih

/-- A declaration that is set apart is prepared for its expansion: what is asked of the tokens
around it holds by assumption, and what is put in was generated from a model that was read. -/
theorem SetApart.prepared {name : String} {d : Declaration} (h : d.SetApart ts name)
    (read : readSource source = .ok ds) (mem : (name, d) ∈ ds.flatMap (·.annotated)) (w : Writer) :
    d.Prepared ts w name := by
  obtain ⟨top, here, listed⟩ := List.mem_flatMap.mp mem
  have nested : d ∈ ds.flatMap withNested :=
    List.mem_flatMap.mpr ⟨top, here, mem_withNested_of_annotated listed⟩
  obtain ⟨named, printed⟩ : CodableSynthesis.Printed name ∧ d.Printed := by
    obtain ⟨_, ms, tokens, file, rfl⟩ := spelled_of_readSource read
    exact annotated_printed (file.printed (placed_of_tokenize tokens).spelled top here) _ listed
  refine ⟨fun a mem known b sign more found same => ?_,
    fun keyword after found same mid closes => ?_,
    fun isClass b closer more found same => ?_, h.last, fun text mem => ?_, fun text mem => ?_⟩
  · exact h.attributes a mem known _ (mem_zip_tail found) same
  · obtain ⟨_, goesOn⟩ := closes.after
    have stops := h.heading _ ((List.mem_tails _ _).mpr found) keyword rfl same
    rw [List.tail_cons, goesOn] at stops
    cases stops
  · exact h.body isClass _ (mem_zip_tail found) same
  · rw [generatedMembers] at mem
    cases extracted : FieldModel.extract name d with
    | error => rw [extracted] at mem; cases mem
    | ok model =>
      rw [extracted] at mem
      obtain ⟨_, -, mem⟩ := List.mem_flatMap.mp mem
      obtain ⟨a, member, rfl⟩ := List.mem_map.mp mem
      exact (FieldModel.respelled read nested extracted).typeset (printed.sound named extracted) w a
        member
  · rw [generatedExtensions] at mem
    cases extracted : FieldModel.extract name d with
    | error => rw [extracted] at mem; cases mem
    | ok model =>
      rw [extracted] at mem
      obtain ⟨_, -, rfl⟩ := List.mem_map.mp mem
      have sound := (printed.sound named extracted).printed _ (List.mem_append_right _ (.head _))
      rw [FieldModel.extract] at extracted
      split at extracted
      · next isClass =>
        cases extracted
        obtain ⟨t, written, text⟩ := h.name isClass
        exact Conformance.typeset sound rfl ⟨t, TypeExpr.isWritten_iff.mp written, text⟩
      · cases extracted

/-! ### What is annotated does not depend on places -/

theorem Same.isAnnotated {σ : Comparison} {d d' : Declaration} (same : d.Same σ d') :
    d.isAnnotated = d'.isAnnotated := by
  have names := Attribute.names_eq same.heading.1
  have named (d : Declaration) : d.isAnnotated = (d.heading.attributes.map (·.name)).any fun name =>
      (Capability.named? (Attribute.simpleName name)).isSome := by
    rw [Declaration.isAnnotated, List.any_map]
    rfl
  rw [named, named, names]

theorem NoneAnnotated.of_same {σ : Comparison} {ds ds' : List Declaration} (h : NoneAnnotated ds)
    (same : List.Forall₂ (Declaration.Same σ) ds ds') : NoneAnnotated ds' := by
  have annotated : (ds.flatMap withNested).map Declaration.isAnnotated =
      (ds'.flatMap withNested).map Declaration.isAnnotated := by
    rw [← List.forall₂_eq_eq_eq]
    exact List.rel_map (fun _ _ same => same.isAnnotated)
      (List.rel_flatMap same fun _ _ same => same.withNested)
  intro d' mem n nested
  have found : n.isAnnotated ∈ (ds'.flatMap withNested).map Declaration.isAnnotated :=
    List.mem_map_of_mem (List.mem_flatMap.mpr ⟨d', mem, nested⟩)
  rw [← annotated] at found
  obtain ⟨n', found, same⟩ := List.mem_map.mp found
  obtain ⟨d, mem, nested⟩ := List.mem_flatMap.mp found
  rw [← same]
  exact h d mem n' nested

end Declaration

/-- An expansion can be read again and is then left alone, whatever the width of the indentation is
the second time: if no two names are joined where attributes are taken out, every sign of an
attribute has a name behind it, and the annotated declarations are set apart from what is around
them.

It comes back as the same text, with nothing expanded and nothing to warn about. -/
theorem expandSource_again {indentWidth : Nat} {out : ExpandedSource}
    (expanded : expandSource source indentWidth = .ok out) (read : readSource source = .ok ds)
    (tokens : tokenize source = .ok ts)
    (apart : ¬ Change.Fuses source.toList (ds.flatMap (·.allChanges (.new indentWidth))) ts)
    (signed : Signed ts) (settled : ∀ e ∈ ds.flatMap (·.annotated), e.2.SetApart ts e.1)
    (width : Nat) : expandSource out.source width = .ok ⟨out.source, 0, []⟩ := by
  rw [expandSource_of_readSource read, Except.ok.injEq] at expanded
  obtain ⟨ts', ms, tokens', file, rfl⟩ := spelled_of_readSource read
  obtain rfl : ts = ts' := Except.ok.inj (tokens.symm.trans tokens')
  have prepared : ∀ d ∈ ms.filterMap Member.type?, ∀ e ∈ d.annotated,
      e.2.Prepared ts (.new indentWidth) e.1 := fun d here e listed =>
    have listed := List.mem_flatMap.mpr ⟨d, here, listed⟩
    (settled e listed).prepared read listed _
  obtain ⟨ls, us, cut, becomes, -, ms', again, none⟩ :=
    file.rewritten tokens (file.delivers (List.suffix_refl _) signed prepared) apart
  have outcome := Declaration.readFile_same (sameTokens_place becomes .start).behind
  rw [again.readFile] at outcome
  subst expanded
  dsimp only
  generalize Edit.applyAll _ _ = output at cut ⊢
  have rereads : readSource (String.ofList output) = readCharacters output :=
    readSource_ofList output
  rw [readCharacters, Cut.lexemes_iff.mpr cut] at rereads
  dsimp only at rereads
  generalize Declaration.readFile (Token.place _ _) = result at outcome rereads
  cases outcome with
  | ok same =>
    refine expandSource_eq_self_iff.mpr
      ⟨_, rereads, Declaration.NoneAnnotated.of_same ?_ same⟩
    intro d mem n nested
    refine none n ?_
    rw [Declaration.nestedIn_types]
    exact List.mem_flatMap.mpr ⟨d, mem, nested⟩

/-- A class in a structure. -/
theorem expandSource_again_nested :
    ∃ out, expandSource "struct S \x7b @Codable class A \x7b let x: Int \x7d \x7d" 2 = .ok out ∧
      out.expanded = 1 ∧ expandSource out.source 4 = .ok ⟨out.source, 0, []⟩ := by
  have computed :
      ((tokenize "struct S \x7b @Codable class A \x7b let x: Int \x7d \x7d").toOption.any fun ts =>
        (readSource "struct S \x7b @Codable class A \x7b let x: Int \x7d \x7d").toOption.any fun ds =>
          decide (¬ Change.Fuses "struct S \x7b @Codable class A \x7b let x: Int \x7d \x7d".toList
            (ds.flatMap (·.allChanges (.new 2))) ts) && decide (Signed ts) &&
          (ts.zip ts.tail).all (fun p => p.1.kind ≠ .dot && !p.1.reachesOn) &&
          ts.tails.all (fun us => Group.afterArguments? 0 us.tail = none) &&
          (ds.flatMap (·.annotated)).all (fun e => e.2.members.all (· matches .variable _)) &&
          (ds.flatMap Declaration.withNested).all (·.heading.kind ≠ .extension) &&
          (ds.flatMap (·.expansions (.new 2))).countP (fun e => !e.members.isEmpty) = 1) = true := by
    decide +kernel
  obtain ⟨ts, tokens, computed⟩ := ok_of_any computed
  obtain ⟨ds, read, computed⟩ := ok_of_any computed
  simp only [Bool.and_eq_true, decide_eq_true_eq, List.all_eq_true, Bool.not_eq_true'] at computed
  obtain ⟨⟨⟨⟨⟨⟨apart, signed⟩, pairs⟩, angles⟩, members⟩, kinds⟩, expanded⟩ := computed
  have settled : ∀ e ∈ ds.flatMap (·.annotated), e.2.SetApart ts e.1 := fun e mem => by
    refine ⟨fun _ _ _ p adjacent _ => (pairs p adjacent).1, fun us mem _ _ _ => angles us mem,
      fun _ p adjacent _ => (pairs p adjacent).2, fun _ text other => ?_, fun _ => ?_⟩
    · cases members e mem _ other
    · obtain ⟨path, written, text⟩ := Declaration.isPathText_annotated read
        (fun d nested extended => absurd extended (kinds d nested)) e mem
      exact ⟨_, written, text⟩
  exact ⟨_, expandSource_of_readSource read 2, expanded, expandSource_again
    (expandSource_of_readSource read 2) read tokens apart signed settled 4⟩

/-- A class in an extension of a type that is no path: the heading of the extension that is
generated for it cannot be read. The first expansion succeeds without a warning. -/
theorem expandSource_again_unreadable :
    ∃ out, expandSource "extension [A] \x7b @Codable class B \x7b\x7d \x7d" 0 = .ok out ∧
      ∃ e, expandSource out.source 0 = .error e := by
  have computed :
      ((readSource "extension [A] \x7b @Codable class B \x7b\x7d \x7d").toOption.any fun ds =>
        !(readCharacters (Edit.applyAll
          (ds.flatMap (·.allEdits "extension [A] \x7b @Codable class B \x7b\x7d \x7d".toList
            (.new 0)))
          "extension [A] \x7b @Codable class B \x7b\x7d \x7d".toList)).isOk) = true := by
    decide +kernel
  obtain ⟨ds, parsed, again⟩ := ok_of_any computed
  refine ⟨_, expandSource_of_readSource parsed 0, ?_⟩
  rw [expandSource, readSource_ofList]
  cases second : readCharacters _ with
  | error e => exact ⟨e, rfl⟩
  | ok ds' =>
    rw [second] at again
    cases again

end CodableSynthesis
