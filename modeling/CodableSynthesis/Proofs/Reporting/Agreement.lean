import CodableSynthesis.Proofs.Layout.Order
import CodableSynthesis.Proofs.Joining.Expansions
import CodableSynthesis.Proofs.Reporting.Paths
import CodableSynthesis.Run.Model

/-!
The expansion of a source and the report on its field models agree. Both go through the same
annotated declarations, but each takes the models for itself: the report lists them, the expansion
asks for one twice for every attribute, once for the members and once for the extensions.

* `ModelledClass`: a class with its model, and the texts that are due to it.
* `Declaration.reportedEdits`: the edits that the models give.
* `Declaration.perm_reportedEdits`: they are those that are made.
* `ReportAgrees`: the models of the report give everything that is put into the source.
* `readSource_reportAgrees`: so it is for every source and every indentation width.

There are two commands, and a user reads the report of one to learn what the other will do.
`expand_source` never looks at a report, so that the agreement is a fact about two ways through the
code: `annotated_declarations` and `extract_as` on one side, the macros with their members and
extensions on the other.

The texts are fixed from the models alone: `bodyTexts` and `extensionTexts` do not mention the
expansion. A class that carries an attribute twice is given everything twice, which is what the
program does.
-/

namespace CodableSynthesis

/-- Exactly the classes have field models. Extraction never fails on a class. -/
theorem FieldModel.extract_cases (name : String) (d : Declaration) :
    (d.heading.kind = .classType ∧ ∃ m, extract name d = .ok m) ∨
      (d.heading.kind ≠ .classType ∧ ∃ e, extract name d = .error e) := by
  by_cases isClass : d.heading.kind = .classType
  · exact .inl ⟨isClass, _, by rw [extract, if_pos isClass]⟩
  · exact .inr ⟨isClass, _, by rw [extract, if_neg isClass]⟩

/-- A class with its field model. -/
structure ModelledClass where
  declaration : Declaration
  model : FieldModel

namespace ModelledClass

/-- The class that is listed under a name, with its model, unless it has none. -/
def ofListed? (entry : String × Declaration) : Option ModelledClass :=
  (FieldModel.extract entry.1 entry.2).toOption.map (⟨entry.2, ·⟩)

/-- The texts for the body of the class: the members of its model, once for each attribute on it
that is expanded. -/
def bodyTexts (w : Writer) (c : ModelledClass) : List String :=
  (List.replicate c.declaration.registered.length (c.model.members.toList.map w.render)).flatten

/-- The texts for the top of the file: the conformance of the model, once for each attribute on the
class that is expanded. -/
def extensionTexts (w : Writer) (c : ModelledClass) : List String :=
  List.replicate c.declaration.registered.length (w.render (.conformance c.model.conformance))

/-- The edit that gives the class its members. -/
def insertion (source : List Char) (w : Writer) (c : ModelledClass) : Edit :=
  .insertion source w.indentWidth c.declaration (c.bodyTexts w)

variable {w : Writer} {name : String} {d : Declaration} {m : FieldModel}

theorem ofListed?_ok (extracted : FieldModel.extract name d = .ok m) :
    ofListed? (name, d) = some ⟨d, m⟩ := by
  rw [ofListed?, extracted]
  rfl

theorem ofListed?_error {e : ExtractionError} (extracted : FieldModel.extract name d = .error e) :
    ofListed? (name, d) = none := by
  rw [ofListed?, extracted]
  rfl

theorem generatedMembers_ok (extracted : FieldModel.extract name d = .ok m) :
    d.generatedMembers w name = bodyTexts w ⟨d, m⟩ := by
  simp only [Declaration.generatedMembers, extracted, bodyTexts, List.flatMap_def, List.map_const']

theorem generatedExtensions_ok (extracted : FieldModel.extract name d = .ok m) :
    d.generatedExtensions w name = extensionTexts w ⟨d, m⟩ := by
  simp only [Declaration.generatedExtensions, extracted, extensionTexts, List.map_const']

theorem generatedExtensions_error {e : ExtractionError}
    (extracted : FieldModel.extract name d = .error e) : d.generatedExtensions w name = [] := by
  simp only [Declaration.generatedExtensions, extracted]

end ModelledClass

namespace Declaration

open FieldModel (extract_cases)
open ModelledClass (ofListed? ofListed?_ok ofListed?_error)

variable {source : List Char} {w : Writer}

/-- The annotated classes of a declaration at the top of a file, each with its model. What is
annotated and no class is not among them. -/
def modelled (d : Declaration) : List ModelledClass :=
  d.annotated.filterMap ofListed?

/-- The edits of a declaration at the top of a file, made from the models: each attribute that is
expanded is taken out, each class is given the members of its model, and behind the declaration
stand the conformances. -/
def reportedEdits (source : List Char) (w : Writer) (d : Declaration) : List Edit :=
  d.annotated.flatMap (fun (_, n) => n.registered.map fun a => Edit.removal source a.span) ++
    d.modelled.map (·.insertion source w) ++
      if d.modelled.isEmpty then [] else [.extension d (d.modelled.flatMap (·.extensionTexts w))]

/-! ### The models of some annotated declarations

Each part of an expansion, over a list of annotated declarations. All of them are inductions on the
list with the two cases of `extract_cases`. -/

section Entries

variable {entries : List (String × Declaration)}

/-- The models come in the order of the classes. -/
theorem models_of_entries (entries : List (String × Declaration)) :
    List.Forall₂ (fun entry m => FieldModel.extract entry.1 entry.2 = .ok m)
      (entries.filter fun entry => entry.2.heading.kind = .classType)
      ((entries.filterMap ofListed?).map (·.model)) := by
  induction entries with
  | nil => exact .nil
  | cons entry entries ih =>
    obtain ⟨name, n⟩ := entry
    rcases extract_cases name n with ⟨isClass, m, extracted⟩ | ⟨isClass, e, extracted⟩
    · rw [List.filter_cons_of_pos (by simpa using isClass),
        List.filterMap_cons_some (ofListed?_ok extracted)]
      exact .cons extracted ih
    · rw [List.filter_cons_of_neg (by simpa using isClass),
        List.filterMap_cons_none (ofListed?_error extracted)]
      exact ih

theorem reported_of_entries (entries : List (String × Declaration)) :
    entries.filterMap (fun entry => (FieldModel.extract entry.1 entry.2).toOption) =
      (entries.filterMap ofListed?).map (·.model) := by
  rw [List.map_filterMap]
  refine List.filterMap_congr fun entry _ => ?_
  rw [ofListed?, Option.map_map]
  exact Option.map_id'.symm

/-- The members that are generated for annotated declarations are those of the models. Declarations
that are given none are left out on the left side, as they are counted by what they are given. -/
theorem members_of_entries (annotated : ∀ entry ∈ entries, entry.2.isAnnotated = true) :
    (entries.map fun entry => (entry.2.expand w entry.1).members).filter (!·.isEmpty) =
      (entries.filterMap ofListed?).map (·.bodyTexts w) := by
  induction entries with
  | nil => rfl
  | cons entry entries ih =>
    obtain ⟨name, n⟩ := entry
    obtain ⟨own, others⟩ := List.forall_mem_cons.mp annotated
    have some? := @generatedMembers_isEmpty w name n
    rw [own, Bool.true_and] at some?
    rw [List.map_cons, expand_members]
    rcases extract_cases name n with ⟨isClass, m, extracted⟩ | ⟨isClass, e, extracted⟩
    · rw [List.filter_cons_of_pos (by simpa [isClass] using some?),
        List.filterMap_cons_some (ofListed?_ok extracted), List.map_cons, ih others,
        ModelledClass.generatedMembers_ok extracted]
    · rw [List.filter_cons_of_neg (by simpa [isClass] using some?),
        List.filterMap_cons_none (ofListed?_error extracted), ih others]

/-- The extensions that are generated for some declarations are those of the models. -/
theorem extensions_of_entries (entries : List (String × Declaration)) :
    entries.flatMap (fun entry => entry.2.generatedExtensions w entry.1) =
      (entries.filterMap ofListed?).flatMap (·.extensionTexts w) := by
  induction entries with
  | nil => rfl
  | cons entry entries ih =>
    obtain ⟨name, n⟩ := entry
    rw [List.flatMap_cons, ih]
    rcases extract_cases name n with ⟨-, m, extracted⟩ | ⟨-, e, extracted⟩
    · rw [List.filterMap_cons_some (ofListed?_ok extracted), List.flatMap_cons,
        ModelledClass.generatedExtensions_ok extracted]
    · rw [List.filterMap_cons_none (ofListed?_error extracted),
        ModelledClass.generatedExtensions_error extracted, List.nil_append]

/-- The insertions that are announced for some declarations are those of the models. -/
theorem insertions_of_entries (entries : List (String × Declaration)) :
    entries.flatMap (fun entry => if entry.2.heading.kind = .classType then
        [Edit.insertion source w.indentWidth entry.2 (entry.2.generatedMembers w entry.1)]
        else []) =
      (entries.filterMap ofListed?).map (·.insertion source w) := by
  induction entries with
  | nil => rfl
  | cons entry entries ih =>
    obtain ⟨name, n⟩ := entry
    rw [List.flatMap_cons, ih]
    rcases extract_cases name n with ⟨isClass, m, extracted⟩ | ⟨isClass, e, extracted⟩
    · rw [if_pos isClass, List.filterMap_cons_some (ofListed?_ok extracted),
        ModelledClass.generatedMembers_ok extracted]
      rfl
    · rw [if_neg isClass, List.filterMap_cons_none (ofListed?_error extracted), List.nil_append]

/-- There is a model if there is a class. -/
theorem models_isEmpty (entries : List (String × Declaration)) :
    (entries.filterMap ofListed?).isEmpty =
      !entries.any fun entry => entry.2.heading.kind = .classType := by
  induction entries with
  | nil => rfl
  | cons entry entries ih =>
    obtain ⟨name, n⟩ := entry
    rw [List.any_cons]
    rcases extract_cases name n with ⟨isClass, m, extracted⟩ | ⟨isClass, e, extracted⟩
    · rw [List.filterMap_cons_some (ofListed?_ok extracted), decide_eq_true isClass]
      rfl
    · rw [List.filterMap_cons_none (ofListed?_error extracted), ih, decide_eq_false isClass,
        Bool.false_or]

end Entries

/-- The edits that are made are those that the models give, up to the order in which they are
listed. -/
theorem perm_reportedEdits (d : Declaration) :
    (d.reportedEdits source w).Perm (d.allEdits source w) := by
  refine List.Perm.trans ?_ perm_allEdits
  rw [reportedEdits, announced, modelled, models_isEmpty, ← extensions_of_entries,
    ← insertions_of_entries]
  refine List.Perm.append (List.flatMap_append_perm _ _ _) ?_
  cases d.annotated.any _ <;> exact .refl _

end Declaration

/-- What an expansion and the report on the same source have in common. The fields go from the tree
to the models, and from the models to the output. -/
structure ReportAgrees (source : String) (w : Writer) (declarations : List Declaration)
    (models : List FieldModel) (out : ExpandedSource) : Prop where
  /-- Names lead to every type declaration, at any depth. -/
  reached : (declarations.flatMap (·.withPaths)).map (·.2) = declarations.flatMap (·.withNested)
  /-- The annotated declarations are those that are annotated at any depth, each listed once, under
  the names that lead to it. -/
  listed : declarations.flatMap (·.annotated) =
    ((declarations.flatMap (·.withPaths)).filter (·.2.isAnnotated)).map fun (path, n) =>
      (Declaration.dotted path, n)
  /-- They are listed in the order of their keywords. -/
  order : (declarations.flatMap (·.annotated)).Pairwise fun a b =>
    a.2.heading.keyword.start < b.2.heading.keyword.start
  /-- There is one model for each class among them, in the same order. -/
  extracted : List.Forall₂ (fun entry m => FieldModel.extract entry.1 entry.2 = .ok m)
    ((declarations.flatMap (·.annotated)).filter fun entry => entry.2.heading.kind = .classType)
    models
  /-- These are the models of the report. -/
  reported : ∀ path, Run.fieldModels ⟨path, source⟩ = .ok models
  /-- They are found in one declaration at the top of the file after another. -/
  inside : models = declarations.flatMap fun d => d.modelled.map (·.model)
  /-- The number that is reported is that of the models. -/
  expanded : out.expanded = models.length
  /-- The extensions of a declaration at the top of the file are the conformances of the models in
  it. -/
  extensions : ∀ d ∈ declarations, (d.expansions w).flatMap (·.extensions) =
    d.modelled.flatMap (·.extensionTexts w)
  /-- The members that are generated are those of the models, class by class. -/
  members : ∀ d ∈ declarations, ((d.expansions w).map (·.members)).filter (!·.isEmpty) =
    d.modelled.map (·.bodyTexts w)
  /-- The output is the source with the edits made that the models give. -/
  made : Edit.Made 0 ((declarations.flatMap (·.reportedEdits source.toList w)).mergeSort Edit.le)
    source.toList out.source.toList

variable {source : String} {declarations : List Declaration}

/-- The annotated declarations of a source are listed in the order of their keywords. -/
theorem annotated_order (parsed : readSource source = .ok declarations) :
    (declarations.flatMap (·.annotated)).Pairwise fun a b =>
      a.2.heading.keyword.start < b.2.heading.keyword.start := by
  obtain ⟨ts, tokens, keywords⟩ := readSource_keywords parsed
  have placed := placed_of_tokenize tokens
  have ordered : (ts.map (·.span)).Pairwise fun s s' => s.start < s'.start := by
    refine List.pairwise_map.mpr (placed.ordered.imp_of_mem fun mem _ behind => ?_)
    exact Nat.lt_of_lt_of_le (placed.bounds _ mem).2 behind
  have among : ((declarations.flatMap (·.annotated)).map (·.2)).Sublist
      (declarations.flatMap (·.withNested)) := by
    rw [Declaration.flatMap_annotated_snd]
    exact List.filter_sublist
  have listed := ordered.sublist ((among.map (·.heading.keyword)).trans keywords)
  rwa [List.pairwise_map, List.pairwise_map] at listed

/-- Whatever can be read is expanded as it is reported. The expansion is shown to succeed, and the
report is the one that a run of the other command gives for a file with this text, under whatever
path. -/
theorem readSource_reportAgrees (parsed : readSource source = .ok declarations)
    (indentWidth : Nat) :
    ∃ out models, expandSource source indentWidth = .ok out ∧
      ReportAgrees source (.new indentWidth) declarations models out := by
  have inside : (declarations.flatMap (·.annotated)).filterMap ModelledClass.ofListed? =
      declarations.flatMap (·.modelled) :=
    List.filterMap_flatMap
  have isAnnotated (d : Declaration) : ∀ entry ∈ d.annotated, entry.2.isAnnotated = true :=
    fun _ mem => d.isAnnotated_of_mem mem
  have expansions : declarations.flatMap (·.expansions (.new indentWidth)) =
      (declarations.flatMap (·.annotated)).map fun entry =>
        entry.2.expand (.new indentWidth) entry.1 :=
    List.map_flatMap.symm
  refine ⟨_, (declarations.flatMap (·.modelled)).map (·.model),
    expandSource_of_readSource parsed indentWidth, ?_, ?_, annotated_order parsed, ?_, ?_, ?_, ?_,
    ?_, ?_, ?_⟩
  · rw [List.map_flatMap]
    exact List.flatMap_congr fun d _ => d.withPaths_snd
  · rw [List.filter_flatMap, List.map_flatMap]
    exact List.flatMap_congr fun d _ => d.annotated_paths
  · rw [← inside]
    exact Declaration.models_of_entries _
  · intro path
    rw [← inside, ← Declaration.reported_of_entries, Run.fieldModels, parsed]
  · exact List.map_flatMap
  · have members := @Declaration.members_of_entries (.new indentWidth)
      (declarations.flatMap (·.annotated)) fun entry mem => by
        obtain ⟨d, -, mem⟩ := List.mem_flatMap.mp mem
        exact isAnnotated d entry mem
    have counted := congrArg List.length members
    rw [← List.countP_eq_length_filter, List.countP_map, List.length_map, inside] at counted
    rw [expansions, List.countP_map, List.length_map]
    exact counted
  · intro d _
    rw [Declaration.allExtensions]
    exact Declaration.extensions_of_entries _
  · intro d _
    rw [Declaration.expansions, List.map_map]
    exact Declaration.members_of_entries (isAnnotated d)
  · obtain ⟨ts, ms, tokens, spelled, rfl⟩ := spelled_of_readSource parsed
    obtain ⟨-, within⟩ := readSource_layout parsed
    have within := within (.new indentWidth)
    have same := List.Perm.flatMap_left (ms.filterMap Member.type?) fun d _ =>
      @Declaration.perm_reportedEdits source.toList (.new indentWidth) d
    rw [Edit.sorted_eq same within.ordered within.forward, String.toList_ofList]
    exact spelled.made tokens _

/-- A class with two attributes in a structure, and in it an annotated class in an enumeration and
an annotated structure. -/
def nestedClasses : String :=
  "struct S \x7b @Codable @Codable class A \x7b let x: Int; " ++
    "enum E \x7b @Codable class B \x7b\x7d \x7d @Codable struct T \x7b\x7d \x7d \x7d"

/-- A source with classes at two depths, one of them annotated twice, and with declarations that are
annotated and no classes. -/
theorem readSource_reportAgrees_nested :
    ∃ declarations, readSource nestedClasses = .ok declarations ∧
      ∃ out models, expandSource nestedClasses 2 = .ok out ∧
        models.map (·.typeName) = ["S.A", "S.A.E.B"] ∧ out.expanded = 2 ∧
          ReportAgrees nestedClasses (.new 2) declarations models out := by
  have computed : ((readSource nestedClasses).toOption.any fun _ =>
      (Run.fieldModels ⟨"", nestedClasses⟩).toOption.any fun models =>
        models.map (·.typeName) == ["S.A", "S.A.E.B"]) = true := by
    decide +kernel
  obtain ⟨declarations, parsed, computed⟩ := ok_of_any computed
  obtain ⟨models, reported, names⟩ := ok_of_any computed
  obtain ⟨out, _, expanded, agrees⟩ := readSource_reportAgrees parsed 2
  obtain rfl := Except.ok.inj ((agrees.reported "").symm.trans reported)
  have names := eq_of_beq names
  refine ⟨declarations, parsed, out, _, expanded, names, ?_, agrees⟩
  rw [agrees.expanded, ← List.length_map, names]
  rfl

end CodableSynthesis
