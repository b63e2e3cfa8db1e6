import CodableSynthesis.FieldModel.Extraction
import CodableSynthesis.Proofs.Layout.Order
import CodableSynthesis.Proofs.Reads
import Mathlib.Algebra.Ring.Nat
import Mathlib.Data.List.Forall2

/-!
What becomes of every binding of a class. A variable declaration on the level of the type gives one
entry among what is left out. Of any other the first binding becomes a field or is left out for a
reason, and the others are left out for coming later.

* `Binding.IsField`, `Binding.LeftOut`: what becomes of a first binding, in terms of how it is
  written.
* `Variable.AccountedBy`: what a variable declaration gives, and `Variable.accountedBy_iff`: that it
  is one thing only.
* `FieldModel.AccountsFor`: the field model is what the variable declarations give, one behind
  another.
* `readSource_accounted`: so it is for every class of a source, under any name.

The relations are stated without any of the functions that classify members. `Binding.LeftOut` gives
the reasons one by one, each with the way of writing that leads to it; together they cover
everything that is no field and exclude one another.

`extract_as` keeps three lists, and none of them loses anything: there are as many entries as
bindings, the entries that are left out come in the order of the source, and the constants are among
the fields. A block of observers counts as a reason of its own here, as in the program; the
specification of the project knows no such reason and takes any block for a getter.
-/

namespace CodableSynthesis

/-! ### Bindings

What becomes of a first binding, told by its pattern, its type and the block behind it. -/

namespace Binding

/-- The binding is stored and plain: a name with a type and no braces behind it. Whether it has a
value does not matter. -/
structure IsField (b : Binding) (f : Field) : Prop where
  /-- Nothing is behind it in braces. -/
  noBlock : b.accessors? = none
  /-- It is one name. -/
  named : b.pattern = .identifier f.identifier
  /-- Its type is written down. -/
  typed : b.type? = some f.declaredType

/-- Why the first binding of a declaration is no field, `others` being those behind it. The reasons
are tried in the order of the constructors: the block counts before the pattern, and the pattern
before the type. -/
inductive LeftOut (b : Binding) (others : List Binding) : SkipReason → Prop
  /-- There is a block of observers and nothing else. -/
  | observed {words : List String} :
      b.accessors? = some (.accessors words) → words ≠ [] →
      (∀ w ∈ words, w ∈ Skipping.observerWords) → LeftOut b others .observed
  /-- There is a block that is no accessors: the body of a getter. -/
  | getter : b.accessors? = some .getter → LeftOut b others .computed
  /-- There are accessors, and not all of them are observers. -/
  | computed {words : List String} :
      b.accessors? = some (.accessors words) →
      words = [] ∨ (∃ w ∈ words, w ∉ Skipping.observerWords) → LeftOut b others .computed
  /-- It is stored, but binds several names, or none. -/
  | pattern :
      b.accessors? = none → (∀ name, b.pattern ≠ .identifier name) →
      LeftOut b others .unsupportedPattern
  /-- It is stored and has no type, and neither has any behind it. -/
  | missingType {name : String} :
      b.accessors? = none → b.pattern = .identifier name → b.type? = none →
      (∀ o ∈ others, o.type? = none) → LeftOut b others .missingType
  /-- It is stored and has no type, but one behind it has. -/
  | sharedType {name : String} {o : Binding} :
      b.accessors? = none → b.pattern = .identifier name → b.type? = none →
      o ∈ others → o.type? ≠ none → LeftOut b others .sharedType

/-- The entry of a binding that is left out: the text of its pattern, the reason, and the place
where the binding begins. -/
def omission (reason : SkipReason) (b : Binding) : SkippedMember :=
  ⟨b.pattern.render, reason, b.span.line, b.span.column⟩

/-- The entry of a binding that has a value already. -/
def initialized (name : String) (b : Binding) : InitializedConstant :=
  ⟨name, b.span.line, b.span.column⟩

/-- A first binding is a field or left out for a reason. The cases are those of its block, its
pattern and its type, in this order. -/
theorem isField_or_leftOut (b : Binding) (others : List Binding) :
    (∃ f, b.IsField f) ∨ ∃ reason, b.LeftOut others reason := by
  cases block : b.accessors? with
  | some a =>
    cases a with
    | getter => exact .inr ⟨_, .getter block⟩
    | accessors words =>
      by_cases observers : words ≠ [] ∧ ∀ w ∈ words, w ∈ Skipping.observerWords
      · exact .inr ⟨_, .observed block observers.1 observers.2⟩
      · refine .inr ⟨_, .computed block ?_⟩
        simpa only [not_and_or, not_not, not_forall, exists_prop] using observers
  | none =>
    cases pattern : b.pattern with
    | wildcard | tuple => exact .inr ⟨_, .pattern block (by simp [pattern])⟩
    | identifier name =>
      cases type : b.type? with
      | some type' => exact .inl ⟨⟨name, type'⟩, block, pattern, type⟩
      | none =>
        by_cases shared : ∃ o ∈ others, o.type? ≠ none
        · obtain ⟨o, mem, typed⟩ := shared
          exact .inr ⟨_, .sharedType block pattern type mem typed⟩
        · refine .inr ⟨_, .missingType block pattern type fun o mem => ?_⟩
          exact not_not.mp fun typed => shared ⟨o, mem, typed⟩

end Binding

/-! ### Variable declarations -/

/-- What a variable declaration gives the field model: parts of its three lists. -/
structure Account where
  fields : List Field
  skipped : List SkippedMember
  /-- The fields that are constants with a value, which decoding cannot assign. -/
  constants : List InitializedConstant

/-- What some contributions come to. -/
def Account.ofContributions (cs : List Contribution) : Account :=
  ⟨cs.filterMap Contribution.field?, cs.filterMap Contribution.skipped?,
    cs.filterMap Contribution.constant?⟩

namespace Variable

/-- The declaration is on the level of the type. -/
def IsOnType (v : Variable) : Prop :=
  "static" ∈ v.modifiers ∨ "class" ∈ v.modifiers

instance (v : Variable) : Decidable v.IsOnType :=
  inferInstanceAs (Decidable (_ ∨ _))

/-- How many entries a declaration gives: one on the level of the type, else one for each binding. A
field is an entry, too. -/
def entries (v : Variable) : Nat :=
  if v.IsOnType then 1 else v.bindings.length

/-- What a variable declaration gives. -/
inductive AccountedBy (v : Variable) : Account → Prop
  /-- On the level of the type, one entry for all bindings. -/
  | typeLevel : v.IsOnType → v.AccountedBy ⟨[], [v.first.omission .typeLevel], []⟩
  /-- A field by the first binding, and an entry for each other; a constant with a value is noted as
  well. -/
  | field {f : Field} :
      ¬ v.IsOnType → v.first.IsField f →
      v.AccountedBy ⟨[f], v.others.map (·.omission .extraBinding),
        if v.specifier = .let ∧ v.first.hasInitializer = true then
          [v.first.initialized f.identifier]
        else []⟩
  /-- An entry for each binding, the first with its reason. -/
  | leftOut {reason : SkipReason} :
      ¬ v.IsOnType → v.first.LeftOut v.others reason →
      v.AccountedBy
        ⟨[], v.first.omission reason :: v.others.map (·.omission .extraBinding), []⟩

variable {v : Variable} {a : Account}

theorem isTypeLevel_iff : v.isTypeLevel = true ↔ v.IsOnType := by
  simp [isTypeLevel, IsOnType]

theorem exists_accountedBy (v : Variable) : ∃ a, v.AccountedBy a := by
  by_cases onType : v.IsOnType
  · exact ⟨_, .typeLevel onType⟩
  · rcases v.first.isField_or_leftOut v.others with ⟨f, field⟩ | ⟨reason, leftOut⟩
    · exact ⟨_, .field onType field⟩
    · exact ⟨_, .leftOut onType leftOut⟩

theorem class_of_field {f : Field} (onInstance : v.isTypeLevel = false)
    (field : v.first.IsField f) : MemberClass.ofVariable v = .field f := by
  have own : MemberClass.ofBinding v.first = .field f := by
    simp [MemberClass.ofBinding, field.noBlock, field.named, field.typed]
  simp [MemberClass.ofVariable, onInstance, own]

/-- The entry of a first binding that is left out names the reason. -/
theorem ofFirst_of_leftOut {reason : SkipReason} (onInstance : v.isTypeLevel = false)
    (leftOut : v.first.LeftOut v.others reason) :
    Contribution.ofFirst v (MemberClass.ofVariable v) = [.skip reason v.first] := by
  have own (c : MemberClass) (other : c ≠ .unmodelable .missingType)
      (same : MemberClass.ofBinding v.first = c) : MemberClass.ofVariable v = c := by
    subst same
    simp only [MemberClass.ofVariable, onInstance, Bool.false_eq_true, ↓reduceIte]
  cases leftOut with
  | observed block some_ observers =>
    rw [own .observed (by simp)]
    · rfl
    · simpa [MemberClass.ofBinding, block, some_] using observers
  | getter block =>
    rw [own .computed (by simp) (by simp [MemberClass.ofBinding, block])]
    rfl
  | @computed words block others =>
    have others : ¬ (words ≠ [] ∧ ∀ w ∈ words, w ∈ Skipping.observerWords) := by
      rintro ⟨some_, observers⟩
      rcases others with none_ | ⟨w, mem, other⟩
      · exact some_ none_
      · exact other (observers w mem)
    rw [own .computed (by simp)]
    · rfl
    · simpa [MemberClass.ofBinding, block] using others
  | pattern block other =>
    rw [own (.unmodelable .unsupportedPattern) (by simp)]
    · rfl
    · cases shape : v.first.pattern with
      | identifier name => exact absurd shape (other name)
      | wildcard | tuple => simp [MemberClass.ofBinding, block, shape]
  | missingType block named untyped none_ =>
    have missing : MemberClass.ofBinding v.first = .unmodelable .missingType := by
      simp [MemberClass.ofBinding, block, named, untyped]
    have noType : v.others.any (·.type?.isSome) = false := by
      simpa using none_
    simp [MemberClass.ofVariable, onInstance, missing, noType, Contribution.ofFirst]
  | sharedType block named untyped mem typed =>
    have missing : MemberClass.ofBinding v.first = .unmodelable .missingType := by
      simp [MemberClass.ofBinding, block, named, untyped]
    have someType : v.others.any (·.type?.isSome) = true :=
      List.any_eq_true.mpr ⟨_, mem, Option.isSome_iff_ne_none.mpr typed⟩
    simp [MemberClass.ofVariable, onInstance, missing, someType, Contribution.ofFirst]

/-- What the bindings behind the first one come to. -/
theorem ofContributions_append_others (cs : List Contribution) (others : List Binding) :
    Account.ofContributions (cs ++ others.map (.skip .extraBinding)) =
      ⟨cs.filterMap Contribution.field?,
        cs.filterMap Contribution.skipped? ++ others.map (·.omission .extraBinding),
        cs.filterMap Contribution.constant?⟩ := by
  have entries : (others.map (Contribution.skip .extraBinding)).filterMap Contribution.skipped? =
      others.map (·.omission .extraBinding) := by
    rw [List.filterMap_map]
    exact congrFun List.filterMap_eq_map others
  have nothing {α : Type} (g : Contribution → Option α) (none_ : ∀ s, g (.skipped s) = none) :
      (others.map (Contribution.skip .extraBinding)).filterMap g = [] := by
    rw [List.filterMap_map]
    exact List.filterMap_eq_nil_iff.mpr fun _ _ => none_ _
  rw [Account.ofContributions, List.filterMap_append, List.filterMap_append, List.filterMap_append,
    entries, nothing _ fun _ => rfl, nothing _ fun _ => rfl, List.append_nil, List.append_nil]

/-- An account is what the program's contributions come to. -/
theorem AccountedBy.eq (h : v.AccountedBy a) :
    a = .ofContributions (Contribution.ofVariable v) := by
  cases h with
  | typeLevel onType =>
    have level : v.isTypeLevel = true := isTypeLevel_iff.mpr onType
    simp only [Contribution.ofVariable, MemberClass.ofVariable, level, ↓reduceIte, List.append_nil]
    rfl
  | field onInstance field =>
    have level : v.isTypeLevel = false := by rwa [← isTypeLevel_iff, Bool.not_eq_true] at onInstance
    rw [Contribution.ofVariable, level, if_neg Bool.false_ne_true, class_of_field level field,
      ofContributions_append_others, Contribution.ofFirst]
    simp only [Bool.and_eq_true, decide_eq_true_eq]
    split <;> rfl
  | leftOut onInstance leftOut =>
    have level : v.isTypeLevel = false := by rwa [← isTypeLevel_iff, Bool.not_eq_true] at onInstance
    rw [Contribution.ofVariable, level, if_neg Bool.false_ne_true, ofFirst_of_leftOut level leftOut,
      ofContributions_append_others]
    rfl

/-- Exactly one account is that of a declaration. -/
theorem accountedBy_iff : v.AccountedBy a ↔ a = .ofContributions (Contribution.ofVariable v) := by
  refine ⟨AccountedBy.eq, ?_⟩
  rintro rfl
  obtain ⟨a, accounted⟩ := v.exists_accountedBy
  exact accounted.eq ▸ accounted

/-- An account has an entry for every binding that it is to have one for. -/
theorem AccountedBy.length_eq (h : v.AccountedBy a) :
    a.fields.length + a.skipped.length = v.entries := by
  cases h with
  | typeLevel onType => simp [entries, onType]
  | field onInstance | leftOut onInstance =>
    simp [entries, onInstance, bindings, Nat.add_comm]

/-- The entries of an account point at the bindings of the declaration, in order. -/
theorem AccountedBy.places (h : v.AccountedBy a) :
    (a.skipped.map fun s => toLex (s.line, s.column)).Sublist
      (v.bindings.map (·.span.place)) := by
  have others : ((v.others.map (·.omission .extraBinding)).map
      fun s => toLex (s.line, s.column)) = v.others.map (·.span.place) := by
    rw [List.map_map]
    rfl
  cases h with
  | typeLevel => exact (List.nil_sublist _).cons_cons _
  | field => exact others ▸ List.sublist_cons_self _ _
  | leftOut =>
    rw [List.map_cons, others]
    exact List.Sublist.refl _

theorem AccountedBy.constants (h : v.AccountedBy a) :
    (a.constants.map (·.name)).Sublist (a.fields.map (·.identifier)) := by
  cases h with
  | typeLevel | leftOut => exact List.Sublist.refl _
  | field =>
    split
    · exact List.Sublist.refl _
    · exact List.nil_sublist _

end Variable

/-! ### Classes

From variable declarations to classes. The members of a class that are no variable declarations
contribute nothing. -/

/-- The variable declaration that a member is. -/
def Member.variable? : Member → Option Variable
  | .variable v => some v
  | .type _ | .other .. => none

/-- The variable declarations among the members of a type, in order. -/
def Declaration.properties (d : Declaration) : List Variable :=
  d.members.filterMap Member.variable?

/-- A field model is what the variable declarations of a class give, and nothing else. Each of them
has exactly one account, and there is nothing in the model besides these. -/
structure FieldModel.AccountsFor (m : FieldModel) (d : Declaration) : Prop where
  /-- Each declaration has one account, and the lists of the model are those of the accounts, one
  behind another. -/
  accounts : ∃ as, (∀ as', List.Forall₂ Variable.AccountedBy d.properties as' ↔ as' = as) ∧
    m.fields = as.flatMap (·.fields) ∧ m.skipped = as.flatMap (·.skipped) ∧
      m.initializedConstants = as.flatMap (·.constants)
  /-- There is an entry for every binding. -/
  counted : m.fields.length + m.skipped.length = (d.properties.map (·.entries)).sum
  /-- What is left out is listed in the order of the source. -/
  ordered : m.skipped.Pairwise fun s s' => toLex (s.line, s.column) < toLex (s'.line, s'.column)
  /-- The constants with a value are among the fields, in their order. -/
  constants : (m.initializedConstants.map (·.name)).Sublist (m.fields.map (·.identifier))

/-- What only variable declarations give is given by the properties. -/
theorem Declaration.flatMap_properties {α : Type} (g : Member → List α)
    (nothing : ∀ m : Member, m.variable? = none → g m = []) (d : Declaration) :
    d.members.flatMap g = d.properties.flatMap fun v => g (.variable v) := by
  rw [properties]
  induction d.members with
  | nil => rfl
  | cons m ms ih =>
    rw [List.flatMap_cons, ih]
    cases m with
    | «variable» v => rfl
    | type | other => rw [nothing _ rfl, List.filterMap_cons_none rfl, List.nil_append]

/-- What a type declaration contributes to a list of the field model, its variable declarations
do. -/
theorem Declaration.filterMap_contributions {α : Type} (g : Contribution → Option α)
    (d : Declaration) :
    (d.members.flatMap Contribution.ofMember).filterMap g =
      d.properties.flatMap fun v => (Contribution.ofVariable v).filterMap g := by
  have contributions := d.flatMap_properties Contribution.ofMember <| by
    rintro (v | d | ⟨keyword, span⟩) novariable
    · exact nomatch novariable
    · rfl
    · rfl
  rw [contributions, List.filterMap_flatMap]
  rfl

theorem Declaration.bindings_properties (d : Declaration) :
    d.bindings = d.properties.flatMap (·.bindings) :=
  d.flatMap_properties Member.bindings <| by
    rintro (v | d | ⟨keyword, span⟩) novariable
    · exact nomatch novariable
    · rfl
    · rfl

/-- The accounts of some variable declarations. -/
theorem Variable.forall₂_accountedBy_iff {vs : List Variable} {as : List Account} :
    List.Forall₂ AccountedBy vs as ↔
      as = vs.map fun v => .ofContributions (Contribution.ofVariable v) := by
  induction vs generalizing as with
  | nil => rw [List.forall₂_nil_left_iff, List.map_nil]
  | cons v vs ih =>
    rw [List.forall₂_cons_left_iff, List.map_cons]
    constructor
    · rintro ⟨a, as', accounted, later, rfl⟩
      rw [accounted.eq, ih.mp later]
    · rintro rfl
      exact ⟨_, _, accountedBy_iff.mpr rfl, ih.mpr rfl, rfl⟩

/-- The entries of the accounts of some variable declarations point at their bindings, in order. -/
theorem Variable.accounts_places {vs : List Variable} {as : List Account}
    (accounted : List.Forall₂ AccountedBy vs as) :
    ((as.flatMap (·.skipped)).map fun s => toLex (s.line, s.column)).Sublist
      ((vs.flatMap (·.bindings)).map (·.span.place)) := by
  induction accounted with
  | nil => exact List.Sublist.refl _
  | cons head _ ih =>
    rw [List.flatMap_cons, List.flatMap_cons, List.map_append, List.map_append]
    exact head.places.append ih

/-- The entries of the accounts of some variable declarations, counted. -/
theorem Variable.accounts_length {vs : List Variable} {as : List Account}
    (accounted : List.Forall₂ AccountedBy vs as) :
    (as.flatMap (·.fields)).length + (as.flatMap (·.skipped)).length =
      (vs.map (·.entries)).sum := by
  induction accounted with
  | nil => rfl
  | cons head _ ih =>
    have own := head.length_eq
    simp only [List.flatMap_cons, List.length_append, List.map_cons, List.sum_cons] at ih ⊢
    omega

theorem Variable.accounts_constants {vs : List Variable} {as : List Account}
    (accounted : List.Forall₂ AccountedBy vs as) :
    ((as.flatMap (·.constants)).map (·.name)).Sublist
      ((as.flatMap (·.fields)).map (·.identifier)) := by
  induction accounted with
  | nil => exact List.Sublist.refl _
  | cons head _ ih =>
    rw [List.flatMap_cons, List.flatMap_cons, List.map_append, List.map_append]
    exact head.constants.append ih

/-- Every class of a source, however deep, has a field model under any name, and the model accounts
for every binding of the class. The name is the one given, and the modifier is the first of the
class, if it has one. -/
theorem readSource_accounted {source : String} {declarations : List Declaration}
    (parsed : readSource source = .ok declarations) {d : Declaration}
    (inTree : d ∈ declarations.flatMap Declaration.withNested)
    (isClass : d.heading.kind = .classType) (name : String) :
    ∃ m, FieldModel.extract name d = .ok m ∧ m.typeName = name ∧
      m.modifier = d.heading.modifiers.head?.getD "" ∧ m.AccountsFor d := by
  obtain ⟨as, accounted⟩ : ∃ as, List.Forall₂ Variable.AccountedBy d.properties as :=
    ⟨_, Variable.forall₂_accountedBy_iff.mpr rfl⟩
  have given : as = d.properties.map fun v => .ofContributions (Contribution.ofVariable v) :=
    Variable.forall₂_accountedBy_iff.mp accounted
  refine ⟨_, by rw [FieldModel.extract, if_pos isClass], rfl, rfl, ?_⟩
  have fields : (d.members.flatMap Contribution.ofMember).filterMap Contribution.field? =
      as.flatMap (·.fields) := by
    rw [d.filterMap_contributions, given, List.flatMap_map]
    rfl
  have skipped : (d.members.flatMap Contribution.ofMember).filterMap Contribution.skipped? =
      as.flatMap (·.skipped) := by
    rw [d.filterMap_contributions, given, List.flatMap_map]
    rfl
  have constants : (d.members.flatMap Contribution.ofMember).filterMap Contribution.constant? =
      as.flatMap (·.constants) := by
    rw [d.filterMap_contributions, given, List.flatMap_map]
    rfl
  refine ⟨⟨as, fun as' => ?_, fields, skipped, constants⟩, ?_, ?_, ?_⟩
  · rw [Variable.forall₂_accountedBy_iff, given]
  · rw [fields, skipped]
    exact Variable.accounts_length accounted
  · have ordered : (d.bindings.map (·.span.place)).Pairwise (· < ·) :=
      List.pairwise_map.mpr (readSource_bindings_ordered parsed inTree)
    rw [d.bindings_properties] at ordered
    rw [skipped]
    exact List.pairwise_map.mp (ordered.sublist (Variable.accounts_places accounted))
  · rw [constants, fields]
    exact Variable.accounts_constants accounted

/-- A class with a declaration for every reason. -/
def manyReasons : String :=
  "class A \x7b\n" ++
    "    static let s = 0, t = 1\n" ++
    "    let a: Int = 1, b: Int\n" ++
    "    var c, d: Double\n" ++
    "    var e: Int \x7b 1 \x7d\n" ++
    "    func f() \x7b\x7d\n" ++
    "    var g: Int = 0 \x7b didSet \x7b\x7d \x7d\n" ++
    "    let (h, i) = (1, 2), j = 3\n" ++
    "    var k = 4\n" ++
    "    var l: String?\n" ++
    "\x7d\n"

/-- Every reason once, with the place that it is reported at. -/
theorem readSource_accounted_manyReasons :
    ∃ d, readSource manyReasons = .ok [d] ∧
      ∃ m, FieldModel.extract "A" d = .ok m ∧ m.AccountsFor d ∧
        m.fields.map (·.identifier) = ["a", "l"] ∧
        m.skipped =
          [⟨"s", .typeLevel, 2, 16⟩, ⟨"b", .extraBinding, 3, 21⟩, ⟨"c", .sharedType, 4, 9⟩,
            ⟨"d", .extraBinding, 4, 12⟩, ⟨"e", .computed, 5, 9⟩, ⟨"g", .observed, 7, 9⟩,
            ⟨"(h, i)", .unsupportedPattern, 8, 9⟩, ⟨"j", .extraBinding, 8, 26⟩,
            ⟨"k", .missingType, 9, 9⟩] ∧
        m.initializedConstants = [⟨"a", 3, 9⟩] := by
  have computed : ((readSource manyReasons).toOption.any fun ds =>
      ds.length = 1 && ds.all fun d =>
        d.heading.kind = .classType && (FieldModel.extract "A" d).toOption.any fun m =>
          m.fields.map (·.identifier) = ["a", "l"] ∧
          m.skipped =
            [⟨"s", .typeLevel, 2, 16⟩, ⟨"b", .extraBinding, 3, 21⟩, ⟨"c", .sharedType, 4, 9⟩,
              ⟨"d", .extraBinding, 4, 12⟩, ⟨"e", .computed, 5, 9⟩, ⟨"g", .observed, 7, 9⟩,
              ⟨"(h, i)", .unsupportedPattern, 8, 9⟩, ⟨"j", .extraBinding, 8, 26⟩,
              ⟨"k", .missingType, 9, 9⟩] ∧
          m.initializedConstants = [⟨"a", 3, 9⟩]) = true := by
    decide +kernel
  obtain ⟨ds, parsed, computed⟩ := ok_of_any computed
  simp only [Bool.and_eq_true, decide_eq_true_eq] at computed
  obtain ⟨alone, computed⟩ := computed
  obtain ⟨d, rfl⟩ := List.length_eq_one_iff.mp alone
  simp only [List.all_cons, List.all_nil, Bool.and_true, Bool.and_eq_true,
    decide_eq_true_eq] at computed
  obtain ⟨isClass, computed⟩ := computed
  obtain ⟨m, extracted, listed⟩ := ok_of_any computed
  have inTree : d ∈ [d].flatMap Declaration.withNested :=
    List.mem_flatMap.mpr ⟨d, .head _, d.mem_withNested_self⟩
  obtain ⟨m', extracted', -, -, accounts⟩ := readSource_accounted parsed inTree isClass "A"
  obtain rfl := Except.ok.inj (extracted.symm.trans extracted')
  exact ⟨d, parsed, m, extracted, accounts, of_decide_eq_true listed⟩

end CodableSynthesis
