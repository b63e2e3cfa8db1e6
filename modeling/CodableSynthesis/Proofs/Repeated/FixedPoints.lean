import CodableSynthesis.Proofs.Joining.Expansions

/-!
The texts that an expansion leaves alone. They are those that can be read and in which no type
declaration is annotated: whatever is annotated is either given members or warned about.

* `Declaration.NoneAnnotated`: nothing is annotated, at any depth.
* `expandSource_of_noneAnnotated`: a text without annotated declarations is left as it is.
* `Declaration.expand_shows`: an annotated declaration leaves a trace.
* `expandSource_eq_self_iff`: these are the fixed points of an expansion.

An expansion gives three things: a text, a number and diagnostics. A text is left alone if it comes
back with the number zero and without diagnostics. The last two are what the proof goes by: an
annotated class is counted, and any other annotated declaration is warned about.
-/

namespace CodableSynthesis

namespace Declaration

/-- No type declaration is annotated, at any depth. -/
def NoneAnnotated (declarations : List Declaration) : Prop :=
  ∀ d ∈ declarations, ∀ n ∈ d.withNested, n.isAnnotated = false

variable {w : Writer} {source : List Char} {declarations : List Declaration}

theorem annotated_eq_nil {d : Declaration} (none : ∀ n ∈ d.withNested, n.isAnnotated = false) :
    d.annotated = [] := by
  have nothing : d.withNested.filter isAnnotated = [] :=
    List.filter_eq_nil_iff.mpr fun n mem => by simp [none n mem]
  exact List.map_eq_nil_iff.mp (d.annotated_snd.trans nothing)

theorem allEdits_eq_nil {d : Declaration} (none : ∀ n ∈ d.withNested, n.isAnnotated = false) :
    d.allEdits source w = [] := by
  have same := @perm_allEdits source w d
  rw [announced, annotated_eq_nil none] at same
  exact same.nil_eq.symm

theorem expansions_eq_nil {d : Declaration} (none : ∀ n ∈ d.withNested, n.isAnnotated = false) :
    d.expansions w = [] := by
  rw [expansions, annotated_eq_nil none]
  rfl

/-- An annotated declaration is given members, or there is something to warn about. -/
theorem expand_shows {d : Declaration} {name : String} (annotated : d.isAnnotated = true)
    (noMember : (d.expand w name).members.isEmpty = true) :
    (d.expand w name).diagnostics ≠ [] := by
  rw [expand_members, generatedMembers_isEmpty, annotated, Bool.true_and] at noMember
  have noClass : d.heading.kind ≠ .classType := by simpa using noMember
  obtain ⟨a, as, registered⟩ := List.exists_cons_of_ne_nil (isAnnotated_iff.mp annotated)
  have extracted : FieldModel.extract name d = .error (.unsupportedKind name d.heading.kind) :=
    if_neg noClass
  rw [expand_parts (·.diagnostics) rfl fun _ _ => rfl, registered, List.flatMap_cons,
    expandAttribute, extracted]
  exact List.cons_ne_nil _ _

end Declaration

open Declaration (NoneAnnotated)

variable {source : String} {indentWidth : Nat} {declarations : List Declaration}

/-- A text without annotated declarations is left as it is. -/
theorem expandSource_of_noneAnnotated (parsed : readSource source = .ok declarations)
    (none : NoneAnnotated declarations) :
    expandSource source indentWidth = .ok ⟨source, 0, []⟩ := by
  have noEdit : declarations.flatMap (·.allEdits source.toList (.new indentWidth)) = [] :=
    List.flatMap_eq_nil_iff.mpr fun d mem => Declaration.allEdits_eq_nil (none d mem)
  have nothing : declarations.flatMap (·.expansions (.new indentWidth)) = [] :=
    List.flatMap_eq_nil_iff.mpr fun d mem => Declaration.expansions_eq_nil (none d mem)
  rw [expandSource_of_readSource parsed, noEdit, nothing]
  simp [Edit.applyAll, Edit.applyFrom]

/-- Where nothing is given members and nothing is warned about, nothing is annotated. -/
theorem noneAnnotated_of_expansions
    (noMembers : (declarations.flatMap (·.expansions (.new indentWidth))).countP
      (fun e => !e.members.isEmpty) = 0)
    (noWarning : (declarations.flatMap (·.expansions (.new indentWidth))).flatMap
      (·.diagnostics) = []) : NoneAnnotated declarations := by
  intro d here n nested
  by_contra annotated
  have annotated : n.isAnnotated = true := by simpa using annotated
  have listed : n ∈ d.annotated.map (·.2) := by
    rw [d.annotated_snd]
    exact List.mem_filter.mpr ⟨nested, annotated⟩
  obtain ⟨entry, mem, rfl⟩ := List.mem_map.mp listed
  have expansion : entry.2.expand (.new indentWidth) entry.1 ∈
      declarations.flatMap (·.expansions (.new indentWidth)) :=
    List.mem_flatMap.mpr ⟨d, here, List.mem_map_of_mem mem⟩
  have noMember := List.countP_eq_zero.mp noMembers _ expansion
  have silent := List.flatMap_eq_nil_iff.mp noWarning _ expansion
  exact Declaration.expand_shows annotated (by simpa using noMember) silent

/-- An expansion leaves exactly those texts alone that can be read and in which nothing is
annotated. -/
theorem expandSource_eq_self_iff :
    expandSource source indentWidth = .ok ⟨source, 0, []⟩ ↔
      ∃ declarations, readSource source = .ok declarations ∧ NoneAnnotated declarations := by
  constructor
  · intro fixed
    cases parsed : readSource source with
    | error fault =>
      rw [expandSource, parsed] at fixed
      cases fixed
    | ok declarations =>
      rw [expandSource_of_readSource parsed, Except.ok.injEq, ExpandedSource.mk.injEq] at fixed
      obtain ⟨-, noMembers, noWarning⟩ := fixed
      exact ⟨declarations, rfl, noneAnnotated_of_expansions noMembers noWarning⟩
  · rintro ⟨declarations, parsed, none⟩
    exact expandSource_of_noneAnnotated parsed none

/-- What a source text of these characters is read as. The characters of a string take long to
compute. -/
def readCharacters (cs : List Char) : Except SourceError (List Declaration) :=
  match lexemes cs with
  | .error fault => .error (fault.toSourceError cs)
  | .ok ls =>
    match Declaration.readFile (Token.place .start ls) with
    | .ok declarations => .ok declarations
    | .error fault => .error (fault.toSourceError cs)

theorem readSource_ofList (cs : List Char) :
    readSource (String.ofList cs) = readCharacters cs := by
  rw [readSource, tokenize, String.toList_ofList, readCharacters]
  cases lexemes cs <;> rfl

end CodableSynthesis
