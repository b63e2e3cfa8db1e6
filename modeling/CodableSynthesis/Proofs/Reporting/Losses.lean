import CodableSynthesis.Proofs.Joining.Expansions
import CodableSynthesis.Proofs.Reporting.Accounts

/-!
Which of the bindings that are not serialized an expansion warns about. Of a variable declaration
every binding behind the first one is lost, and the first one unless it becomes a field. A warning
names the lost binding and the reason, once for each attribute on the class that is expanded; the
reason decides whether there is one.

* `Variable.losses`: what there is to warn about in a variable declaration.
* `ExpandedSource.lossesAt`: what is warned about at the place of a binding.
* `ExpandedSource.Flags`: the warnings at the places of the bindings of one declaration.
* `ExpandedSource.Flags.everyLoss_iff`: when they are all the losses there are.
* `expandSource_losses`: the warnings at the place of each binding of a source, and when every
  binding that is lost has one.

The comment in `expand_members` speaks of the bindings of a declaration other than the one that is
modelled. The code asks for their reasons instead, and lets two of them pass: a binding that is not
the first, and a first one whose type stands on a later one. A first binding that is lost for any
other reason is lost in silence. `expandSource_losses_untyped` is the shortest such source.

Warnings are told apart by their places. That no two bindings of a source share one is what makes
the count exact, and it comes from the order of the tokens.
-/

namespace CodableSynthesis

open Text (Span)

/-! ### Warnings -/

/-- The warning says that a binding is not serialized. -/
def Warning.isLoss : Warning → Bool
  | .notSerialized .. => true
  | .unsupported .. | .assignedAgain _ | .repeatedConformance .. => false

/-- The diagnostic says that the binding at this place is not serialized. -/
def Diagnostic.isLossAt (span : Span) (x : Diagnostic) : Bool :=
  x.warning.isLoss && decide (toLex (x.line, x.column) = span.place)

/-- The warnings at the place of a binding that it is not serialized. Warnings of other kinds at the
same place are left out. -/
def ExpandedSource.lossesAt (out : ExpandedSource) (b : Binding) : List Diagnostic :=
  out.diagnostics.filter (·.isLossAt b.span)

/-- The warning that a binding is not serialized for a reason. -/
def Binding.loss (reason : SkipReason) (b : Binding) : Diagnostic :=
  ⟨b.span.line, b.span.column, .notSerialized b.pattern.render reason⟩

/-- The warning about something that is left out. -/
def SkippedMember.loss (s : SkippedMember) : Diagnostic :=
  ⟨s.line, s.column, .notSerialized s.name s.reason⟩

/-- What there is to warn about in a variable declaration. -/
def Variable.losses (v : Variable) : List Diagnostic :=
  ((Account.ofContributions (Contribution.ofVariable v)).skipped.filter
    (·.reason.isLostBinding)).map SkippedMember.loss

/-- What there is to warn about in a type declaration. -/
def Declaration.losses (d : Declaration) : List Diagnostic :=
  if d.heading.kind = .classType then d.properties.flatMap Variable.losses else []

/-! ### Places

Finding out whom a warning is about by its place alone. This works as long as places are different,
which the lemmas take as a hypothesis. -/

/-- If the parts of some elements are all different, what belongs to a part comes from the element
that has it. -/
theorem filter_flatMap_of_nodup {α β γ : Type} {l : List α} {g : α → List β} {h : α → List γ}
    {p : γ → Bool} {x : α} {b : β} (distinct : (l.flatMap g).Nodup) (mem : x ∈ l) (part : b ∈ g x)
    (only : ∀ y ∈ l, ∀ c ∈ h y, p c = true → b ∈ g y) :
    (l.flatMap h).filter p = (h x).filter p := by
  obtain ⟨front, back, rfl⟩ := List.append_of_mem mem
  rw [List.flatMap_append, List.flatMap_cons, List.nodup_append, List.nodup_append] at distinct
  obtain ⟨-, ⟨-, -, behind⟩, before⟩ := distinct
  have nothing {ys : List α} (among : ∀ y ∈ ys, y ∈ front ++ x :: back)
      (other : b ∉ ys.flatMap g) : (ys.flatMap h).filter p = [] := by
    refine List.filter_eq_nil_iff.mpr fun c inside holds => ?_
    obtain ⟨y, here, inside⟩ := List.mem_flatMap.mp inside
    exact other (List.mem_flatMap.mpr ⟨y, here, only y (among y here) c inside holds⟩)
  rw [List.flatMap_append, List.flatMap_cons, List.filter_append, List.filter_append,
    nothing (by simp +contextual) fun inside =>
      before b inside b (List.mem_append_left _ part) rfl,
    nothing (by simp +contextual) fun inside => behind b part b inside rfl,
    List.nil_append, List.append_nil]

section Bindings

variable {bs : List Binding} {b : Binding} {reason : SkipReason}

theorem Binding.isLossAt_loss (b b' : Binding) :
    (b.loss reason).isLossAt b'.span = true ↔ b.span.place = b'.span.place := by
  rw [Diagnostic.isLossAt, Bool.and_eq_true, decide_eq_true_eq]
  exact and_iff_right rfl

/-- Among warnings about bindings in different places, those at the place of a binding are its
own. -/
theorem filter_losses_of_mem (distinct : (bs.map (·.span.place)).Nodup) (mem : b ∈ bs) :
    (bs.map (·.loss reason)).filter (·.isLossAt b.span) = [b.loss reason] := by
  rw [List.map_eq_flatMap] at distinct
  rw [List.map_eq_flatMap, filter_flatMap_of_nodup distinct mem (List.mem_singleton_self _)]
  · exact List.filter_cons_of_pos ((b.isLossAt_loss b).mpr rfl)
  · intro b' _ x inside here
    obtain rfl := List.mem_singleton.mp inside
    exact List.mem_singleton.mpr ((b'.isLossAt_loss b).mp here).symm

theorem filter_losses_of_not_mem (other : b.span.place ∉ bs.map (·.span.place)) :
    (bs.map (·.loss reason)).filter (·.isLossAt b.span) = [] := by
  refine List.filter_eq_nil_iff.mpr fun x inside here => other ?_
  obtain ⟨b', mem, rfl⟩ := List.mem_map.mp inside
  exact List.mem_map.mpr ⟨b', mem, (b'.isLossAt_loss b).mp here⟩

end Bindings

/-! ### Variable declarations -/

namespace Variable

variable {v : Variable} {b : Binding}

theorem place_of_isLossAt {span : Span} {x : Diagnostic} (mem : x ∈ v.losses)
    (here : x.isLossAt span = true) : span.place ∈ v.bindings.map (·.span.place) := by
  have accounted : v.AccountedBy (.ofContributions (Contribution.ofVariable v)) :=
    accountedBy_iff.mpr rfl
  obtain ⟨s, skipped, rfl⟩ := List.mem_map.mp mem
  rw [Diagnostic.isLossAt, Bool.and_eq_true, decide_eq_true_eq] at here
  rw [← here.2]
  exact accounted.places.subset (List.mem_map_of_mem (List.mem_filter.mp skipped).1)

theorem filter_omissions (bs : List Binding) :
    ((bs.map (·.omission .extraBinding)).filter (·.reason.isLostBinding)).map SkippedMember.loss =
      bs.map (·.loss .extraBinding) := by
  rw [List.filter_eq_self.mpr, List.map_map]
  · rfl
  · intro s mem
    obtain ⟨b, -, rfl⟩ := List.mem_map.mp mem
    rfl

/-- If the first binding becomes a field, there is a warning about each of the others. -/
theorem losses_of_field {f : Field} (onInstance : ¬ v.IsOnType) (field : v.first.IsField f) :
    v.losses = v.others.map (·.loss .extraBinding) := by
  rw [losses, ← (AccountedBy.field onInstance field).eq]
  exact filter_omissions v.others

/-- Whether there is a warning about a first binding that is left out depends on the reason. -/
theorem losses_of_leftOut {reason : SkipReason} (onInstance : ¬ v.IsOnType)
    (leftOut : v.first.LeftOut v.others reason) :
    v.losses = (if reason.isLostBinding then [v.first.loss reason] else []) ++
      v.others.map (·.loss .extraBinding) := by
  rw [losses, ← (AccountedBy.leftOut onInstance leftOut).eq, List.filter_cons]
  cases lost : reason.isLostBinding with
  | true =>
    rw [if_pos (show (v.first.omission reason).reason.isLostBinding = true from lost),
      List.map_cons, filter_omissions]
    rfl
  | false =>
    have silent : ¬ (v.first.omission reason).reason.isLostBinding = true := by
      simp [Binding.omission, lost]
    rw [if_neg silent, filter_omissions]
    rfl

section Places

variable (distinct : (v.bindings.map (·.span.place)).Nodup) (onInstance : ¬ v.IsOnType)

include distinct onInstance

theorem filter_losses_first_of_field {f : Field} (field : v.first.IsField f) :
    v.losses.filter (·.isLossAt v.first.span) = [] := by
  rw [bindings, List.map_cons, List.nodup_cons] at distinct
  rw [losses_of_field onInstance field, filter_losses_of_not_mem distinct.1]

theorem filter_losses_first_of_leftOut {reason : SkipReason}
    (leftOut : v.first.LeftOut v.others reason) :
    v.losses.filter (·.isLossAt v.first.span) =
      if reason.isLostBinding then [v.first.loss reason] else [] := by
  rw [bindings, List.map_cons, List.nodup_cons] at distinct
  rw [losses_of_leftOut onInstance leftOut, List.filter_append, filter_losses_of_not_mem distinct.1,
    List.append_nil]
  split
  · exact List.filter_cons_of_pos ((v.first.isLossAt_loss v.first).mpr rfl)
  · rfl

theorem filter_losses_of_other (mem : b ∈ v.others) :
    v.losses.filter (·.isLossAt b.span) = [b.loss .extraBinding] := by
  rw [bindings, List.map_cons, List.nodup_cons] at distinct
  rcases v.first.isField_or_leftOut v.others with ⟨f, field⟩ | ⟨reason, leftOut⟩
  · rw [losses_of_field onInstance field, filter_losses_of_mem distinct.2 mem]
  · -- The first binding stands elsewhere.
    have elsewhere : ¬ (v.first.loss reason).isLossAt b.span = true := fun here =>
      distinct.1 (List.mem_map.mpr ⟨b, mem, ((v.first.isLossAt_loss b).mp here).symm⟩)
    rw [losses_of_leftOut onInstance leftOut, List.filter_append,
      filter_losses_of_mem distinct.2 mem]
    split
    · rw [List.filter_cons_of_neg elsewhere]
      rfl
    · rfl

end Places

end Variable

/-! ### Classes -/

namespace Declaration

variable {d : Declaration} {w : Writer} {name : String} {span : Span}

theorem filter_repeatedConformance :
    (d.repeatedConformance name).filter (·.isLossAt span) = [] := by
  rw [repeatedConformance]
  split <;> rfl

/-- The lost bindings of a field model are those of the variable declarations. -/
theorem losses_of_extract {m : FieldModel} (extracted : FieldModel.extract name d = .ok m) :
    (m.skipped.filter (·.reason.isLostBinding)).map SkippedMember.loss = d.losses := by
  rw [FieldModel.extract] at extracted
  split at extracted
  · next isClass =>
    cases extracted
    rw [d.filterMap_contributions Contribution.skipped?, List.filter_flatMap, List.map_flatMap,
      losses, if_pos isClass]
    rfl
  · cases extracted

/-- Of the diagnostics of a model, those about lost bindings are those of its variable
declarations. -/
theorem filter_diagnostics {m : FieldModel} (extracted : FieldModel.extract name d = .ok m) :
    m.diagnostics.filter (·.isLossAt span) = d.losses.filter (·.isLossAt span) := by
  have constants : (m.initializedConstants.map fun c =>
      (⟨c.line, c.column, .assignedAgain c.name⟩ : Diagnostic)).filter (·.isLossAt span) = [] := by
    refine List.filter_eq_nil_iff.mpr fun x inside here => ?_
    obtain ⟨c, -, rfl⟩ := List.mem_map.mp inside
    cases here
  rw [FieldModel.diagnostics, List.filter_append, constants, List.append_nil,
    ← losses_of_extract extracted]
  rfl

/-- Each attribute that is expanded warns about the lost bindings again. -/
theorem filter_expand_diagnostics :
    (d.expand w name).diagnostics.filter (·.isLossAt span) =
      (List.replicate d.registered.length (d.losses.filter (·.isLossAt span))).flatten := by
  rw [expand_parts (·.diagnostics) rfl fun _ _ => rfl, List.filter_flatMap, ← List.map_const',
    ← List.flatMap_def]
  refine List.flatMap_congr fun a _ => ?_
  rw [expandAttribute]
  cases extracted : FieldModel.extract name d with
  | ok m =>
    dsimp only
    rw [List.filter_append, filter_repeatedConformance, List.append_nil,
      filter_diagnostics extracted]
  | error e =>
    rw [FieldModel.extract] at extracted
    split at extracted
    · cases extracted
    · next noClass =>
      rw [losses, if_neg noClass]
      rfl

/-- A warning about a declaration points at a binding of it. -/
theorem place_of_isLossAt {x : Diagnostic} (mem : x ∈ (d.expand w name).diagnostics)
    (here : x.isLossAt span = true) : span.place ∈ d.bindings.map (·.span.place) := by
  have inside := List.mem_filter.mpr ⟨mem, here⟩
  rw [filter_expand_diagnostics] at inside
  obtain ⟨_, among, inside⟩ := List.mem_flatten.mp inside
  rw [List.eq_of_mem_replicate among, losses] at inside
  obtain ⟨inside, here⟩ := List.mem_filter.mp inside
  split at inside
  · obtain ⟨v, property, inside⟩ := List.mem_flatMap.mp inside
    rw [d.bindings_properties, List.map_flatMap]
    exact List.mem_flatMap.mpr ⟨v, property, Variable.place_of_isLossAt inside here⟩
  · cases inside

end Declaration

/-! ### Sources

From classes to whole sources: of all warnings of an expansion, those at the place of a binding are
about the class that has it. -/

/-- No binding is both a field and left out. -/
theorem Binding.IsField.not_leftOut {b : Binding} {others : List Binding} {f : Field}
    {reason : SkipReason} (field : b.IsField f) : ¬ b.LeftOut others reason := by
  intro leftOut
  cases leftOut with
  | observed block | getter block | computed block =>
    rw [field.noBlock] at block
    cases block
  | pattern _ other => exact other _ field.named
  | missingType _ _ untyped | sharedType _ _ untyped =>
    rw [field.typed] at untyped
    cases untyped

section Sources

variable {source : String} {declarations : List Declaration} {d : Declaration} {v : Variable}
  {b : Binding}

/-- Of the warnings of an expansion, those that belong to a place are about the declaration whose
place it is, if declarations have different places. -/
theorem filter_expansions_of_distinct {name : String} {w : Writer} {p : Diagnostic → Bool}
    {places : Declaration → List (Nat ×ₗ Nat)} {place : Nat ×ₗ Nat}
    (distinct : ((declarations.flatMap Declaration.withNested).flatMap places).Nodup)
    (listed : (name, d) ∈ declarations.flatMap (·.annotated)) (own : place ∈ places d)
    (only : ∀ (name : String) (d : Declaration),
      ∀ x ∈ (d.expand w name).diagnostics, p x = true → place ∈ places d) :
    ((declarations.flatMap (·.expansions w)).flatMap (·.diagnostics)).filter p =
      (d.expand w name).diagnostics.filter p := by
  have entries : (declarations.flatMap (·.expansions w)).flatMap (·.diagnostics) =
      (declarations.flatMap (·.annotated)).flatMap fun entry =>
        (entry.2.expand w entry.1).diagnostics := by
    rw [List.flatMap_assoc, List.flatMap_assoc]
    exact List.flatMap_congr fun d _ => List.flatMap_map _ _ _
  have among : ((declarations.flatMap (·.annotated)).map (·.2)).Sublist
      (declarations.flatMap Declaration.withNested) := by
    rw [Declaration.flatMap_annotated_snd]
    exact List.filter_sublist
  have distinct := distinct.sublist (among.flatMap places)
  rw [List.flatMap_map] at distinct
  rw [entries, filter_flatMap_of_nodup distinct listed own]
  exact fun entry _ x inside here => only entry.1 entry.2 x inside here

/-- An annotated declaration of a tree is listed under some name. -/
theorem Declaration.exists_listed (inTree : d ∈ declarations.flatMap Declaration.withNested)
    (annotated : d.isAnnotated = true) :
    ∃ name, (name, d) ∈ declarations.flatMap (·.annotated) := by
  obtain ⟨⟨name, _⟩, listed, rfl⟩ : ∃ entry ∈ declarations.flatMap (·.annotated), entry.2 = d := by
    rw [← List.mem_map, Declaration.flatMap_annotated_snd]
    exact List.mem_filter.mpr ⟨inTree, annotated⟩
  exact ⟨name, listed⟩

/-- Of the warnings of an expansion, those at the place of a binding are about the declaration that
has it. -/
theorem filter_expansions (parsed : readSource source = .ok declarations) (w : Writer)
    (inTree : d ∈ declarations.flatMap Declaration.withNested) (annotated : d.isAnnotated = true)
    (bound : b ∈ d.bindings) :
    ((declarations.flatMap (·.expansions w)).flatMap (·.diagnostics)).filter (·.isLossAt b.span) =
      (List.replicate d.registered.length (d.losses.filter (·.isLossAt b.span))).flatten := by
  obtain ⟨name, listed⟩ := Declaration.exists_listed inTree annotated
  have distinct := readSource_bindings_distinct parsed
  rw [List.map_flatMap] at distinct
  rw [filter_expansions_of_distinct distinct listed (List.mem_map_of_mem bound)]
  · exact Declaration.filter_expand_diagnostics
  · exact fun _ d x inside here => Declaration.place_of_isLossAt inside here

/-- Of the warnings about a class, those at the place of a binding are about the variable
declaration that has it. -/
theorem Declaration.filter_losses (distinct : (d.bindings.map (·.span.place)).Nodup)
    (isClass : d.heading.kind = .classType) (property : v ∈ d.properties) (bound : b ∈ v.bindings) :
    d.losses.filter (·.isLossAt b.span) = v.losses.filter (·.isLossAt b.span) := by
  rw [d.bindings_properties, List.map_flatMap] at distinct
  rw [losses, if_pos isClass]
  exact filter_flatMap_of_nodup distinct property (List.mem_map_of_mem bound)
    fun v _ x inside here => Variable.place_of_isLossAt inside here

end Sources

/-- The binding is not serialized: it is not the first of its declaration, or it becomes no
field. -/
def Variable.Loses (v : Variable) (b : Binding) : Prop :=
  b ∈ v.others ∨ b = v.first ∧ ¬ ∃ f, v.first.IsField f

namespace ExpandedSource

/-- What is warned about at the places of the bindings of a variable declaration in a class. -/
structure Flags (out : ExpandedSource) (d : Declaration) (v : Variable) : Prop where
  /-- A first binding that becomes a field has no warning. -/
  field : (∃ f, v.first.IsField f) → out.lossesAt v.first = []
  /-- One that has its type from a later binding is warned about. -/
  sharedType : v.first.LeftOut v.others .sharedType →
    out.lossesAt v.first = List.replicate d.registered.length (v.first.loss .sharedType)
  /-- For every other reason a first binding is left out without a warning. -/
  unnoticed : ∀ reason, v.first.LeftOut v.others reason → reason ≠ .sharedType →
    out.lossesAt v.first = []
  /-- So is every other binding. -/
  others : ∀ b ∈ v.others,
    out.lossesAt b = List.replicate d.registered.length (b.loss .extraBinding)

/-- Every binding that is lost is warned about, once for each attribute that is expanded, and no
other binding is. This is what the specification of the warnings asks for. -/
structure FlagsEveryLoss (out : ExpandedSource) (d : Declaration) (v : Variable) : Prop where
  /-- At each lost binding there is one warning for each attribute. -/
  lost : ∀ b, v.Loses b → (out.lossesAt b).length = d.registered.length
  /-- There is none at the others. -/
  kept : ∀ b ∈ v.bindings, ¬ v.Loses b → out.lossesAt b = []

end ExpandedSource

section Sources

variable {source : String} {declarations : List Declaration} {indentWidth : Nat}
  {out : ExpandedSource} {d : Declaration} {v : Variable}

/-- The warnings at the places of the bindings of a variable declaration are those about it, for
each attribute that is expanded. -/
theorem lossesAt_eq (parsed : readSource source = .ok declarations)
    (expanded : expandSource source indentWidth = .ok out)
    (inTree : d ∈ declarations.flatMap Declaration.withNested) (annotated : d.isAnnotated = true)
    (isClass : d.heading.kind = .classType) (property : v ∈ d.properties) :
    (v.bindings.map (·.span.place)).Nodup ∧ ∀ b ∈ v.bindings, out.lossesAt b =
      (List.replicate d.registered.length (v.losses.filter (·.isLossAt b.span))).flatten := by
  have distinct : (d.bindings.map (·.span.place)).Nodup :=
    (List.pairwise_map.mpr (readSource_bindings_ordered parsed inTree)).imp fun before => before.ne
  have among : v.bindings.Sublist d.bindings := by
    have here := (List.singleton_sublist.mpr property).flatMap Variable.bindings
    rwa [List.flatMap_singleton, ← d.bindings_properties] at here
  refine ⟨distinct.sublist (among.map (·.span.place)), fun b bound => ?_⟩
  rw [expandSource_of_readSource parsed] at expanded
  cases expanded
  rw [ExpandedSource.lossesAt, filter_expansions parsed _ inTree annotated (among.subset bound),
    Declaration.filter_losses distinct isClass property bound]

/-- The warnings at the places of the bindings of a variable declaration on the level of
instances. -/
theorem expandSource_flags (parsed : readSource source = .ok declarations)
    (expanded : expandSource source indentWidth = .ok out)
    (inTree : d ∈ declarations.flatMap Declaration.withNested) (annotated : d.isAnnotated = true)
    (isClass : d.heading.kind = .classType) (property : v ∈ d.properties)
    (onInstance : ¬ v.IsOnType) : out.Flags d v := by
  obtain ⟨distinct, found⟩ := lossesAt_eq parsed expanded inTree annotated isClass property
  have first : v.first ∈ v.bindings := .head _
  have leftOut (reason : SkipReason) (h : v.first.LeftOut v.others reason) :=
    Variable.filter_losses_first_of_leftOut distinct onInstance h
  constructor
  · rintro ⟨f, field⟩
    rw [found _ first, Variable.filter_losses_first_of_field distinct onInstance field]
    simp
  · intro shared
    rw [found _ first, leftOut _ shared]
    exact List.flatten_replicate_singleton
  · intro reason h other
    rw [found _ first, leftOut _ h]
    cases h with
    | sharedType => exact absurd rfl other
    | _ => exact List.flatten_replicate_nil
  · intro b mem
    rw [found _ (.tail _ mem), Variable.filter_losses_of_other distinct onInstance mem]
    exact List.flatten_replicate_singleton

/-- What is warned about in an annotated class is every loss exactly if there is a warning about the
first binding where that is lost. -/
theorem ExpandedSource.Flags.everyLoss_iff (flags : out.Flags d v)
    (annotated : d.isAnnotated = true) :
    out.FlagsEveryLoss d v ↔
      (∃ f, v.first.IsField f) ∨ v.first.LeftOut v.others .sharedType := by
  have some_ : 0 < d.registered.length :=
    List.length_pos_iff.mpr (Declaration.isAnnotated_iff.mp annotated)
  constructor
  · intro every
    rcases v.first.isField_or_leftOut v.others with field | ⟨reason, leftOut⟩
    · exact .inl field
    · by_cases shared : reason = .sharedType
      · exact .inr (shared ▸ leftOut)
      · have noField : ¬ ∃ f, v.first.IsField f := fun ⟨_, field⟩ => field.not_leftOut leftOut
        have lost := every.lost _ (.inr ⟨rfl, noField⟩)
        rw [flags.unnoticed reason leftOut shared, List.length_nil] at lost
        omega
  · intro noticed
    constructor
    · rintro b (mem | ⟨rfl, noField⟩)
      · rw [flags.others b mem, List.length_replicate]
      · rw [flags.sharedType (noticed.resolve_left noField), List.length_replicate]
    · rintro b mem kept
      rw [Variable.Loses, not_or, not_and_not_right] at kept
      obtain rfl := (List.mem_cons.mp mem).resolve_right kept.1
      exact flags.field (kept.2 rfl)

end Sources

/-- Whatever can be read is expanded, and at the places of the bindings of an annotated class there
are these warnings. Every binding that is lost has one exactly if the first binding becomes a field
or is left out because its type is written on a later binding.

The class may be at any depth. Declarations on the level of the type are not asked about: they are
not lost, as they are no part of an instance. -/
theorem expandSource_losses {source : String} {declarations : List Declaration}
    (parsed : readSource source = .ok declarations) (indentWidth : Nat) :
    ∃ out, expandSource source indentWidth = .ok out ∧
      ∀ d ∈ declarations.flatMap Declaration.withNested, d.isAnnotated = true →
        d.heading.kind = .classType → ∀ v ∈ d.properties, ¬ v.IsOnType →
          out.Flags d v ∧ (out.FlagsEveryLoss d v ↔
            (∃ f, v.first.IsField f) ∨ v.first.LeftOut v.others .sharedType) := by
  refine ⟨_, expandSource_of_readSource parsed indentWidth, ?_⟩
  intro d inTree annotated isClass v property onInstance
  have flags := expandSource_flags parsed (expandSource_of_readSource parsed indentWidth) inTree
    annotated isClass property onInstance
  exact ⟨flags, flags.everyLoss_iff annotated⟩

/-- A class with two attributes in another class, and in it two bindings with the type behind the
second. -/
def sharedTypes : String :=
  "class A \x7b\n" ++
    "    @Codable @Codable class B \x7b\n" ++
    "        var a, b: Int\n" ++
    "    \x7d\n" ++
    "\x7d\n"

/-- Two bindings, both of which are lost, and both flagged. -/
theorem expandSource_losses_sharedTypes :
    ∃ d v out, d.properties = [v] ∧ expandSource sharedTypes 4 = .ok out ∧
      out.lossesAt v.first = List.replicate 2 ⟨3, 13, .notSerialized "a" .sharedType⟩ ∧
      out.FlagsEveryLoss d v := by
  have computed : ((readSource sharedTypes).toOption.any fun ds =>
      (ds.flatMap Declaration.withNested).any fun d => d.isAnnotated &&
        d.heading.kind = .classType && d.registered.length = 2 && d.properties.length = 1 &&
        d.properties.all fun v => !v.isTypeLevel &&
          (Contribution.ofFirst v (MemberClass.ofVariable v)).map (·.skipped?) =
            [some ⟨"a", .sharedType, 3, 13⟩]) = true := by
    decide +kernel
  obtain ⟨ds, parsed, computed⟩ := ok_of_any computed
  obtain ⟨d, inTree, computed⟩ := List.any_eq_true.mp computed
  simp only [Bool.and_eq_true, decide_eq_true_eq] at computed
  obtain ⟨⟨⟨⟨annotated, isClass⟩, twice⟩, alone⟩, computed⟩ := computed
  obtain ⟨v, property⟩ := List.length_eq_one_iff.mp alone
  simp only [property, List.all_cons, List.all_nil, Bool.and_true, Bool.and_eq_true,
    decide_eq_true_eq, Bool.not_eq_true'] at computed
  obtain ⟨onInstance, entry⟩ := computed
  have shared : v.first.LeftOut v.others .sharedType ∧
      v.first.omission .sharedType = ⟨"a", .sharedType, 3, 13⟩ := by
    rcases v.first.isField_or_leftOut v.others with ⟨f, field⟩ | ⟨reason, leftOut⟩
    · rw [Variable.class_of_field onInstance field, Contribution.ofFirst] at entry
      split at entry <;> cases entry
    · rw [Variable.ofFirst_of_leftOut onInstance leftOut] at entry
      have omitted := Option.some.inj (List.singleton_inj.mp entry)
      obtain rfl : reason = .sharedType := congrArg SkippedMember.reason omitted
      exact ⟨leftOut, omitted⟩
  obtain ⟨shared, omitted⟩ := shared
  obtain ⟨out, expanded, warned⟩ := expandSource_losses parsed 4
  obtain ⟨flags, every⟩ := warned d inTree annotated isClass v (by simp [property])
    (by simp [← Variable.isTypeLevel_iff, onInstance])
  refine ⟨d, v, out, property, expanded, ?_, every.mpr (.inr shared)⟩
  simp only [Binding.omission, SkippedMember.mk.injEq] at omitted
  obtain ⟨name, -, line, column⟩ := omitted
  rw [flags.sharedType shared, twice, Binding.loss, name, line, column]

/-- A class with a declaration of two bindings, none of which has a type. -/
def untypedBindings : String :=
  "@Codable class A \x7b\n" ++
    "    var a = 1, b = 2\n" ++
    "\x7d\n"

/-- Two bindings, both of which are lost, and only the second flagged. The first has no type, and
neither has the second. -/
theorem expandSource_losses_untyped :
    ∃ d v out, readSource untypedBindings = .ok [d] ∧ d.isAnnotated = true ∧
      d.heading.kind = .classType ∧ d.properties = [v] ∧ ¬ v.IsOnType ∧ v.bindings.length = 2 ∧
      expandSource untypedBindings 4 = .ok out ∧
      out.diagnostics = [⟨2, 16, .notSerialized "b" .extraBinding⟩] ∧ v.Loses v.first ∧
      (v.first.span.line, v.first.span.column) = (2, 9) ∧ ¬ out.FlagsEveryLoss d v := by
  have computed : ((readSource untypedBindings).toOption.any fun ds =>
      ds.length = 1 && ds.all fun d => d.isAnnotated && d.heading.kind = .classType &&
        d.registered.length = 1 && d.properties.length = 1 && d.properties.all fun v =>
          !v.isTypeLevel && v.bindings.length = 2 && v.first.type?.isNone &&
            (v.first.span.line, v.first.span.column) = (2, 9)) = true := by
    decide +kernel
  have warned : ((expandSource untypedBindings 4).toOption.any fun out =>
      out.diagnostics = [⟨2, 16, .notSerialized "b" .extraBinding⟩]) = true := by
    decide +kernel
  obtain ⟨ds, parsed, computed⟩ := ok_of_any computed
  obtain ⟨out, expanded, warned⟩ := ok_of_any warned
  simp only [Bool.and_eq_true, decide_eq_true_eq] at computed warned
  obtain ⟨alone, computed⟩ := computed
  obtain ⟨d, rfl⟩ := List.length_eq_one_iff.mp alone
  simp only [List.all_cons, List.all_nil, Bool.and_true, Bool.and_eq_true,
    decide_eq_true_eq] at computed
  obtain ⟨⟨⟨⟨annotated, isClass⟩, once⟩, alone⟩, computed⟩ := computed
  obtain ⟨v, property⟩ := List.length_eq_one_iff.mp alone
  simp only [property, List.all_cons, List.all_nil, Bool.and_true, Bool.and_eq_true,
    decide_eq_true_eq, Bool.not_eq_true'] at computed
  obtain ⟨⟨⟨onInstance, two⟩, untyped⟩, place⟩ := computed
  have lost : v.Loses v.first := by
    refine .inr ⟨rfl, fun ⟨f, field⟩ => ?_⟩
    rw [field.typed] at untyped
    cases untyped
  have elsewhere : v.first.span.place = toLex (2, 9) := congrArg toLex place
  have nothing : out.lossesAt v.first = [] := by
    rw [ExpandedSource.lossesAt, warned]
    simp only [Diagnostic.isLossAt, elsewhere]
    decide
  refine ⟨d, v, out, parsed, annotated, isClass, property, ?_, two, expanded, warned, lost, place,
    fun every => ?_⟩
  · rw [← Variable.isTypeLevel_iff, onInstance]
    exact Bool.false_ne_true
  · have counted := every.lost _ lost
    rw [nothing, once] at counted
    cases counted

end CodableSynthesis
