import CodableSynthesis.Proofs.Joining.Grafts
import CodableSynthesis.Proofs.Rewriting.Places

/-!
Reading one file behind another. If the tokens of the first end with the brace that closes its last
type declaration, the declarations of both are read one after another, whatever the second one is.

* `EndsWithLast`: the tokens end with the last declaration.
* `Members.followed`: members are read alike with more tokens behind the end.
* `FileSpelled.readFile_append`: the law.

That the last token is the brace of the last declaration is needed. A file may end with a member
that is skipped, such as a function without a body, and go on over what follows; and a brace at the
end may belong to that. The condition is decidable from what the reader gives.
-/

namespace CodableSynthesis

variable {t closer : Token} {ts mid rest : List Token} {ms : List Member} (more : List Token)

/-- The last of the tokens is the brace that closes the last of the declarations. -/
def EndsWithLast (ts : List Token) (ds : List Declaration) : Prop :=
  ∃ d ∈ ds.getLast?, ∃ t ∈ ts.getLast?, t.kind = .closing .brace ∧ t.span = d.closer

instance (ts : List Token) (ds : List Declaration) : Decidable (EndsWithLast ts ds) :=
  inferInstanceAs (Decidable (∃ d ∈ ds.getLast?, ∃ t ∈ ts.getLast?, _))

theorem EndsWithLast.endsInBrace {ds : List Declaration} (h : EndsWithLast ts ds) :
    EndsInBrace ts := by
  obtain ⟨_, -, t, last, closes, -⟩ := h
  exact ⟨t, last, closes⟩

theorem getLast?_of_suffix {α : Type} {xs ys : List α} (suffix : xs <:+ ys) (nonempty : xs ≠ []) :
    ys.getLast? = xs.getLast? := by
  obtain ⟨front, rfl⟩ := suffix
  rw [List.getLast?_append, List.getLast?_eq_some_getLast nonempty]
  rfl

/-- What is left of such tokens ends in the brace as well, unless nothing is left. -/
theorem EndsInBrace.left (h : EndsInBrace ts) (suffix : rest <:+ ts) (nonempty : rest ≠ []) :
    EndsInBrace rest := by
  rwa [EndsInBrace, getLast?_of_suffix suffix nonempty] at h

/-! ### Members -/

theorem Members.suffix (h : Members ts ms closer rest) : closer :: rest <:+ ts := by
  induction h with
  | close => exact List.suffix_refl _
  | semicolon _ _ ih => exact ih.trans (List.suffix_cons _ _)
  | leaf _ leaf _ ih => exact ih.trans leaf.consumes.leaves.suffix
  | type _ opening _ _ ih ihLater =>
    exact (ihLater.trans (List.suffix_cons _ _)).trans (ih.trans opening.consumes.leaves.suffix)

theorem Members.endsInBrace (h : Members ts ms closer rest) (ends : rest = [] ∨ EndsInBrace rest) :
    EndsInBrace ts := by
  refine EndsInBrace.of_suffix ?_ h.suffix
  rcases ends with rfl | ends
  · exact ⟨closer, rfl, h.closes⟩
  · exact ends.cons

/-- Members are read alike whatever follows the brace that closes them, if that is the last token,
or whatever follows a later brace. -/
theorem Members.followed (h : Members ts ms closer rest) (signed : Signed ts)
    (ends : rest = [] ∨ EndsInBrace rest) : Members (ts ++ more) ms closer (rest ++ more) := by
  induction h with
  | close closes => exact .close closes
  | semicolon kind _ ih => exact .semicolon kind (ih signed.tail ends)
  | leaf begins leaf later ih =>
    exact .leaf begins (leaf.followed more signed (later.endsInBrace ends))
      (ih (signed.of_suffix leaf.consumes.leaves.suffix) ends)
  | type begins opening inner later ih ihLater =>
    have behind := later.endsInBrace ends
    have body := signed.of_suffix opening.consumes.leaves.suffix
    exact .type begins (opening.followed more (inner.endsInBrace (.inr behind)))
      (ih body (.inr behind))
      (ihLater (body.of_suffix ((List.suffix_cons _ _).trans inner.suffix)) ends)

/-! ### Files -/

theorem readFile_of_reads {m : Member} (noSemicolon : t.kind ≠ .semicolon)
    (reads : Reads (Member.read (t :: ts)) m rest) :
    Declaration.readFile (t :: ts) = (Declaration.readFile rest).map (m.type?.toList ++ ·) := by
  obtain ⟨shorter, reads⟩ := reads
  rw [readFile_cons noSemicolon, reads]
  simp only [bind, Except.bind, pure, Except.pure]
  cases Declaration.readFile rest <;> rfl

theorem map_append_map {α ε : Type} (r : Except ε (List α)) (xs ys : List α) :
    (r.map (ys ++ ·)).map (xs ++ ·) = r.map (xs ++ ys ++ ·) := by
  cases r with
  | error => rfl
  | ok zs => simp [Except.map]

theorem filterMap_type {d : Declaration} :
    (.type d :: ms).filterMap Member.type? = d :: ms.filterMap Member.type? :=
  rfl

theorem FileSpelled.nonempty (h : FileSpelled ts ms) (types : ms.filterMap Member.type? ≠ []) :
    ts ≠ [] := by
  rintro rfl
  cases h
  exact types rfl

theorem EndsWithLast.types_nonempty (h : EndsWithLast ts (ms.filterMap Member.type?)) :
    ms.filterMap Member.type? ≠ [] := by
  obtain ⟨d, last, -⟩ := h
  intro nothing
  rw [nothing] at last
  cases last

/-- A file that ends with its last type declaration is read, and then what follows it. The tokens
have to stand apart, so that a brace is known by its place. -/
theorem FileSpelled.readFile_append (h : FileSpelled ts ms) (signed : Signed ts)
    (apart : ts.Pairwise fun t u => t.span ≠ u.span)
    (ends : EndsWithLast ts (ms.filterMap Member.type?)) :
    Declaration.readFile (ts ++ more) =
      (Declaration.readFile more).map (ms.filterMap Member.type? ++ ·) := by
  induction h with
  | nil => exact absurd rfl ends.types_nonempty
  | semicolon kind later ih =>
    have nonempty := later.nonempty ends.types_nonempty
    rw [EndsWithLast, getLast?_of_suffix (List.suffix_cons _ _) nonempty] at ends
    rw [List.cons_append, Declaration.readFile, if_pos kind, ih signed.tail apart.of_cons ends]
  | @leaf m ms t ts mid noSemicolon leaf later ih =>
    have suffix := leaf.consumes.leaves.suffix
    have brace := ends.endsInBrace
    rw [List.filterMap_cons_none leaf.type?_eq_none] at ends ⊢
    have nonempty := later.nonempty ends.types_nonempty
    rw [EndsWithLast, getLast?_of_suffix suffix nonempty] at ends
    have reads := (leaf.followed more signed (brace.left suffix nonempty)).reads
    rw [List.cons_append] at reads ⊢
    rw [readFile_of_reads noSemicolon reads, leaf.type?_eq_none,
      ih (signed.of_suffix suffix) (apart.sublist suffix.sublist) ends, map_append_map]
    rfl
  | @type heading inner ms t opener closer ts body mid noSemicolon opening members later ih =>
    have inBody := opening.consumes.leaves.suffix
    have suffix := members.suffix.trans inBody
    have brace := ends.endsInBrace
    have behind : mid = [] ∨ EndsInBrace mid :=
      (Classical.em (mid = [])).imp_right
        (brace.left ((List.suffix_cons _ _).trans suffix))
    have reads := (opening.followed more (members.endsInBrace behind)).reads
      (members.followed more (signed.of_suffix inBody) behind).reads
    rw [List.cons_append] at reads ⊢
    rw [readFile_of_reads noSemicolon reads, filterMap_type]
    rcases behind with rfl | behind
    · cases later
      rfl
    · obtain ⟨u, us, rfl⟩ := behind.exists_cons
      obtain ⟨d, lastDeclaration, last, lastToken, closes, here⟩ := ends
      rw [getLast?_of_suffix ((List.suffix_cons _ _).trans suffix) (List.cons_ne_nil _ _)]
        at lastToken
      have types : ms.filterMap Member.type? ≠ [] := by
        intro nothing
        rw [filterMap_type, nothing] at lastDeclaration
        cases lastDeclaration
        -- The brace that closes the declaration is not the last token.
        exact (List.pairwise_cons.mp (apart.sublist suffix.sublist)).1 last
          (List.mem_of_getLast? lastToken) here.symm
      rw [filterMap_type,
        getLast?_of_suffix (List.suffix_cons _ _) types] at lastDeclaration
      rw [ih (signed.of_suffix ((List.suffix_cons _ _).trans suffix))
        (apart.sublist ((List.suffix_cons _ _).trans suffix).sublist)
        ⟨d, lastDeclaration, last, lastToken, closes, here⟩, map_append_map]
      rfl

end CodableSynthesis
