import CodableSynthesis.Proofs.Rewriting.Tokens

/-!
When an expansion preserves the tokens of a source text. What is taken out leaves nothing in its
place: two names are one name afterwards if nothing stands between them but attributes that are
taken out, with the white space behind those. Nothing else happens to any token.

* `FileSpelled.edited`: the changes for a file are made by the edits of the expansion, one after
  another.
* `FileSpelled.walked`: the tokens of an expanded text.
* `expandSource_words`: the tokens of the output are those of the source with the announced changes
  exactly if no two names are left so.
* `expandSource_fuses_names`: a source in which two names are.

`attribute_removal` takes an attribute with all white space behind it, up to the next token, and
puts nothing in its place. The name in front and the keyword behind are kept apart only if there is
a gap in front of the attribute as well. In `@objc@Codable struct A` there is none.

The statement is about every source that is expanded, whatever becomes of its names: the output can
always be cut into tokens, and so can each text that is put in.
-/

namespace CodableSynthesis

open Text (Position)

namespace Declaration

variable {source : List Char} {w : Writer}

theorem map_edit_flatMap (ds : List Declaration) :
    (ds.flatMap (·.allChanges w)).map (Change.edit source w.indentWidth) =
      ds.flatMap (·.allEdits source w) := by
  rw [List.map_flatMap]
  exact List.flatMap_congr fun d _ => d.map_edit_allChanges

theorem sits_ownFill {name : String} {d : Declaration} (h : d.Sits source) :
    ∀ c ∈ d.ownFill w name, c.Sits source w.indentWidth := by
  rw [ownFill]
  split
  · exact List.forall_mem_singleton.mpr (Edit.fillsBody_insertion h _ _)
  · exact List.forall_mem_nil _

mutual

/-- The changes within a declaration are made where its attributes and bodies stand. -/
theorem sits_changes {name : String} : ∀ d : Declaration, (∀ n ∈ d.withNested, n.Sits source) →
    ∀ c ∈ d.changes w name, c.Sits source w.indentWidth
  | ⟨heading, members, opener, closer⟩, sits => by
    rw [withNested] at sits
    obtain ⟨here, nested⟩ := List.forall_mem_cons.mp sits
    rw [changes]
    refine List.forall_mem_append.mpr ⟨?_, List.forall_mem_append.mpr
      ⟨sits_changesIn members nested, sits_ownFill here⟩⟩
    intro c mem
    obtain ⟨a, registered, rfl⟩ := List.mem_map.mp mem
    exact Edit.takesOut_removal (here.attributes a (List.mem_filter.mp registered).1)

theorem sits_changesIn {name : String} : ∀ ms : List Member, (∀ n ∈ nestedIn ms, n.Sits source) →
    ∀ c ∈ changesIn w name ms, c.Sits source w.indentWidth
  | [], _ => nofun
  | .type d :: ms, sits => by
    rw [nestedIn] at sits
    obtain ⟨here, later⟩ := List.forall_mem_append.mp sits
    rw [changesIn]
    exact List.forall_mem_append.mpr ⟨sits_changes d here, sits_changesIn ms later⟩
  | .variable _ :: ms, sits | .other .. :: ms, sits => by
    rw [changesIn]
    exact sits_changesIn ms sits

end

/-- All changes for a declaration sit where they are made. -/
theorem sits_allChanges {d : Declaration} (h : ∀ n ∈ d.withNested, n.Sits source) :
    ∀ c ∈ d.allChanges w, c.Sits source w.indentWidth := by
  rw [allChanges]
  refine List.forall_mem_append.mpr ⟨sits_changes d h, ?_⟩
  rw [ownFollow]
  split
  · exact List.forall_mem_singleton.mpr
      (Edit.standsBehind_extension (h d d.mem_withNested_self) _)
  · exact List.forall_mem_nil _

end Declaration

/-- A change is the replacement of a stretch of the source. -/
theorem Change.Sits.replaces {source : List Char} {indentWidth : Nat} {c : Change}
    (h : c.Sits source indentWidth) :
    ∃ front cut back, (c.edit source indentWidth).Replaces source front cut back := by
  cases c with
  | drop a =>
    obtain ⟨-, front, body, space, back, replaces, -⟩ := h
    exact ⟨_, _, _, replaces⟩
  | fill d members =>
    obtain ⟨front, space, back, replaces, -⟩ := h
    exact ⟨_, _, _, replaces⟩
  | follow d extensions =>
    obtain ⟨front, back, replaces, -⟩ := h
    exact ⟨_, _, _, replaces⟩

/-- The changes of a file sit where they are made, and the edits for them are made one after
another. This is where the order of the text and the order of sorting meet. -/
theorem FileSpelled.edited {source : String} {ts : List Token} {ms : List Member}
    (spelled : FileSpelled ts ms) (tokens : tokenize source = .ok ts) (w : Writer) :
    (∀ c ∈ (ms.filterMap Member.type?).flatMap (·.allChanges w),
        c.Sits source.toList w.indentWidth) ∧
      (((ms.filterMap Member.type?).flatMap (·.allChanges w)).map
        (Change.edit source.toList w.indentWidth)).Pairwise Edit.Before ∧
      Edit.Made 0 (((ms.filterMap Member.type?).flatMap (·.allChanges w)).map
          (Change.edit source.toList w.indentWidth)) source.toList
        (Edit.applyAll ((ms.filterMap Member.type?).flatMap (·.allEdits source.toList w))
          source.toList) := by
  obtain ⟨sits, within⟩ := spelled.layout (placed_of_tokenize tokens) Rest.start
  have sits : ∀ c ∈ (ms.filterMap Member.type?).flatMap (·.allChanges w),
      c.Sits source.toList w.indentWidth := by
    intro c mem
    obtain ⟨d, here, mem⟩ := List.mem_flatMap.mp mem
    exact Declaration.sits_allChanges (sits d here) c mem
  have ordered := (within w).ordered
  rw [← Declaration.map_edit_flatMap] at ordered ⊢
  refine ⟨sits, ordered, Edit.made_applyAll ordered fun e mem => ?_⟩
  obtain ⟨c, inside, rfl⟩ := List.mem_map.mp mem
  exact (sits c inside).replaces

/-- The edits for the declarations of a source text are made one after another. -/
theorem FileSpelled.made {source : String} {ts : List Token} {ms : List Member}
    (spelled : FileSpelled ts ms) (tokens : tokenize source = .ok ts) (w : Writer) :
    Edit.Made 0 ((ms.filterMap Member.type?).flatMap (·.allEdits source.toList w)) source.toList
      (Edit.applyAll ((ms.filterMap Member.type?).flatMap (·.allEdits source.toList w))
        source.toList) := by
  have made := (spelled.edited tokens w).2.2
  rwa [Declaration.map_edit_flatMap] at made

/-- The tokens of a source text with the edits for its declarations made in it. -/
theorem FileSpelled.walked {source : String} {ts : List Token} {ms : List Member}
    (spelled : FileSpelled ts ms) (tokens : tokenize source = .ok ts) (w : Writer) :
    Walked source.toList .start true ts ((ms.filterMap Member.type?).flatMap (·.allChanges w))
      source.toList (Edit.applyAll ((ms.filterMap Member.type?).flatMap
        (·.allEdits source.toList w)) source.toList) := by
  have placed := placed_of_tokenize tokens
  obtain ⟨sits, ordered, made⟩ := spelled.edited tokens w
  exact @Walk.walked _ _ _ w _ _ [] _ _ (spelled.walk w) rfl rfl placed.stands sits
    (spelled.generated placed.spelled w) ordered (fun _ _ => Nat.zero_le _) made

/-- Whatever an expansion gives can be cut into tokens, and each text that it puts in by itself. The
tokens are those of the source with the announced changes exactly if no two names of the source are
left without anything between them.

So no token is altered, split or swallowed by a comment or a literal, except for names that are
joined. -/
theorem expandSource_words {source : String} {indentWidth : Nat} {out : ExpandedSource}
    (expanded : expandSource source indentWidth = .ok out) :
    ∃ declarations ts ts', readSource source = .ok declarations ∧ tokenize source = .ok ts ∧
      tokenize out.source = .ok ts' ∧
      (∀ c ∈ declarations.flatMap (·.allChanges (.new indentWidth)), ∀ text ∈ c.texts,
        ∃ us, tokenize text = .ok us) ∧
      (ts'.map Token.word =
          Change.applyAll (declarations.flatMap (·.allChanges (.new indentWidth))) ts ↔
        ¬ Change.Fuses source.toList (declarations.flatMap (·.allChanges (.new indentWidth)))
          ts) := by
  cases parsed : readSource source with
  | error fault => rw [expandSource, parsed] at expanded; cases expanded
  | ok declarations =>
    obtain ⟨ts, ms, tokens, spelled, rfl⟩ := spelled_of_readSource parsed
    rw [expandSource, parsed] at expanded
    cases expanded
    have walked := spelled.walked tokens (.new indentWidth)
    obtain ⟨ws, lexes, -⟩ := walked.lexes
    obtain ⟨ts', tokens', rfl⟩ := Lexes.tokenize_iff.mpr
      (show Lexes (String.ofList _).toList ws by rw [String.toList_ofList]; exact lexes)
    refine ⟨_, ts, ts', rfl, tokens, tokens', fun c mem text put => ?_, fun same fuses => ?_,
      fun apart => lexes.unique (walked.apart apart)⟩
    · have generated := spelled.generated (placed_of_tokenize tokens).spelled (.new indentWidth)
      obtain ⟨us, tokens, -⟩ := (generated c mem text put).tokenize
      exact ⟨us, tokens⟩
    · obtain ⟨ws, lexes', fewer⟩ := walked.fused fuses
      rw [← same, lexes'.unique lexes] at fewer
      exact absurd fewer (Nat.lt_irrefl _)

/-- The theorem at a source in which nothing is fused. -/
theorem expandSource_words_nested :
    ∃ out, expandSource "struct S \x7b @Codable class A \x7b let x: Int \x7d \x7d" 2 = .ok out ∧
      ∃ declarations ts ts',
        readSource "struct S \x7b @Codable class A \x7b let x: Int \x7d \x7d" = .ok declarations ∧
        tokenize "struct S \x7b @Codable class A \x7b let x: Int \x7d \x7d" = .ok ts ∧
        tokenize out.source = .ok ts' ∧
        (∀ c ∈ declarations.flatMap (·.allChanges (.new 2)), ∀ text ∈ c.texts,
          ∃ us, tokenize text = .ok us) ∧
        (ts'.map Token.word = Change.applyAll (declarations.flatMap (·.allChanges (.new 2))) ts ↔
          ¬ Change.Fuses "struct S \x7b @Codable class A \x7b let x: Int \x7d \x7d".toList
            (declarations.flatMap (·.allChanges (.new 2))) ts) := by
  have isOk :
      (readSource "struct S \x7b @Codable class A \x7b let x: Int \x7d \x7d").isOk = true := by
    decide +kernel
  cases parsed : readSource "struct S \x7b @Codable class A \x7b let x: Int \x7d \x7d" with
  | error fault => rw [parsed] at isOk; cases isOk
  | ok declarations =>
    obtain ⟨out, expanded⟩ : ∃ out,
        expandSource "struct S \x7b @Codable class A \x7b let x: Int \x7d \x7d" 2 = .ok out :=
      ⟨_, by rw [expandSource, parsed]; rfl⟩
    have words := expandSource_words expanded
    rw [parsed] at words
    exact ⟨out, expanded, words⟩

/-- The attribute between `objc` and `struct` leaves nothing, and one name is left of the two. What
is expanded is no longer a declaration. -/
theorem expandSource_fuses_names :
    ∃ out declarations ts ts', expandSource "@objc@Codable struct A \x7b\x7d" 2 = .ok out ∧
      readSource "@objc@Codable struct A \x7b\x7d" = .ok declarations ∧
      tokenize "@objc@Codable struct A \x7b\x7d" = .ok ts ∧ tokenize out.source = .ok ts' ∧
      ts'.map Token.word ≠ Change.applyAll (declarations.flatMap (·.allChanges (.new 2))) ts := by
  have computed :
      ((expandSource "@objc@Codable struct A \x7b\x7d" 2).toOption.any fun out =>
        (readSource "@objc@Codable struct A \x7b\x7d").toOption.any fun declarations =>
        (tokenize "@objc@Codable struct A \x7b\x7d").toOption.any fun ts =>
        (tokenize out.source).toOption.any fun ts' =>
          ts'.map Token.word !=
            Change.applyAll (declarations.flatMap (·.allChanges (.new 2))) ts) = true := by
    decide +kernel
  obtain ⟨out, expanded, computed⟩ := ok_of_any computed
  obtain ⟨declarations, parsed, computed⟩ := ok_of_any computed
  obtain ⟨ts, tokens, computed⟩ := ok_of_any computed
  obtain ⟨ts', again, differs⟩ := ok_of_any computed
  exact ⟨out, declarations, ts, ts', expanded, parsed, tokens, again, bne_iff_ne.mp differs⟩

end CodableSynthesis
