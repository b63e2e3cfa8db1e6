import CodableSynthesis.Proofs.Reporting.Losses
import CodableSynthesis.Proofs.Reporting.Paths

/-!
Which classes an expansion warns about because they conform to a coding protocol by themselves. A
class declares to conform to everything that its inherited types ask for, the parts of compositions
and what stands behind attributes included; a warning is given only if an inherited type itself
names a coding protocol.

* `TypeExpr.conjuncts`: the types that a type asks for at once.
* `Declaration.DeclaresCoding`, `Declaration.NamesCoding`: what a class declares, and what is looked
  at.
* `ExpandedSource.WarnsOfNamed.declared_iff`: when the two come to the same for an annotated class.
* `expandSource_repetitions`: the warnings about each annotated class of a source, and when they are
  what the class declares.

`expand_extensions` looks at inherited types that are paths, and at no others, though
`parse_type_decl` reads any type there. `class A: Base & Codable` and `class A: @unchecked Codable`
conform without a warning, and the extension that is generated for them conforms once more.

`DeclaresCoding` is the reading of the specification, in which compositions are split to any depth
and attributes are taken off. It implies nothing about spelling beyond that: an alias for a
protocol, or a protocol that refines one, is not seen by either side.
-/

namespace CodableSynthesis

open Text (Span)

/-! ### Types

What a type asks for. A path asks for itself, a composition for all of its parts, and an attribute
changes nothing. -/

namespace TypeExpr

mutual

/-- The types that a type asks for at once: the parts of a composition, at any depth, and without
attributes. -/
def conjuncts : TypeExpr → List TypeExpr
  | .composition parts => conjunctsOf parts
  | .attributed _ operand => conjuncts operand
  | type => [type]

/-- The types that some types ask for at once. -/
def conjunctsOf : List TypeExpr → List TypeExpr
  | [] => []
  | type :: types => conjuncts type ++ conjunctsOf types

end

/-- The type is a path that ends in the name of a coding protocol. -/
def IsCoding (type : TypeExpr) : Prop :=
  ∃ path segment, type = .named path ∧ path.getLast? = some segment ∧
    segment.name ∈ codingProtocols

/-- The test of the program, in terms of the path. -/
theorem codingProtocol?_eq_some_iff {type : TypeExpr} {p : String} :
    type.codingProtocol? = some p ↔ ∃ path segment, type = .named path ∧
      path.getLast? = some segment ∧ segment.name = p ∧ p ∈ codingProtocols := by
  cases type with
  | named path =>
    rw [codingProtocol?, Option.filter_eq_some_iff, Option.map_eq_some_iff]
    constructor
    · rintro ⟨⟨segment, last, rfl⟩, coding⟩
      exact ⟨path, segment, rfl, last, rfl, List.contains_iff_mem.mp coding⟩
    · rintro ⟨_, segment, ⟨⟩, last, rfl, coding⟩
      exact ⟨⟨segment, last, rfl⟩, List.contains_iff_mem.mpr coding⟩
  | _ => exact ⟨nofun, nofun⟩

theorem exists_codingProtocol?_iff {type : TypeExpr} :
    (∃ p, type.codingProtocol? = some p) ↔ type.IsCoding := by
  constructor
  · rintro ⟨p, found⟩
    obtain ⟨path, segment, same, last, rfl, coding⟩ := codingProtocol?_eq_some_iff.mp found
    exact ⟨path, segment, same, last, coding⟩
  · rintro ⟨path, segment, same, last, coding⟩
    exact ⟨_, codingProtocol?_eq_some_iff.mpr ⟨path, segment, same, last, rfl, coding⟩⟩

theorem IsCoding.conjuncts_eq {type : TypeExpr} (coding : type.IsCoding) :
    type.conjuncts = [type] := by
  obtain ⟨path, _, rfl, -⟩ := coding
  rfl

end TypeExpr

/-! ### Declarations -/

/-- The warning says that a conformance is repeated. -/
def Warning.isRepetition : Warning → Bool
  | .repeatedConformance .. => true
  | .unsupported .. | .notSerialized .. | .assignedAgain _ => false

/-- The diagnostic says that the declaration with its keyword at this place repeats a
conformance. -/
def Diagnostic.isRepetitionAt (keyword : Span) (x : Diagnostic) : Bool :=
  x.warning.isRepetition && decide (toLex (x.line, x.column) = keyword.place)

/-- The warnings about a declaration that a conformance is repeated, found by the place of its
keyword. -/
def ExpandedSource.repetitionsAt (out : ExpandedSource) (d : Declaration) : List Diagnostic :=
  out.diagnostics.filter (·.isRepetitionAt d.heading.keyword)

namespace Declaration

/-- Something that an inherited type asks for is a coding protocol. This is when the extension that
is generated says nothing new. -/
def DeclaresCoding (d : Declaration) : Prop :=
  ∃ type ∈ d.heading.inherited, ∃ part ∈ type.conjuncts, part.IsCoding

/-- An inherited type is a coding protocol, as it stands. A part of a composition does not count,
and neither does what an attribute stands in front of. -/
def NamesCoding (d : Declaration) : Prop :=
  ∃ type ∈ d.heading.inherited, type.IsCoding

variable {d : Declaration} {w : Writer} {name : String}

theorem NamesCoding.declares (names : d.NamesCoding) : d.DeclaresCoding := by
  obtain ⟨type, inherited, coding⟩ := names
  exact ⟨type, inherited, type, coding.conjuncts_eq ▸ List.mem_singleton_self _, coding⟩

/-- The warning that the conformance to a protocol is repeated. -/
def repetition (d : Declaration) (name p : String) : Diagnostic :=
  .atSpan d.heading.keyword (.repeatedConformance name p)

/-- The first inherited type that names a coding protocol is the one that is repeated. -/
theorem repeatedConformance_of_names (names : d.NamesCoding) :
    ∃ p, (d.heading.inherited.filterMap (·.codingProtocol?)).head? = some p ∧
      d.repeatedConformance name = [d.repetition name p] := by
  obtain ⟨type, inherited, coding⟩ := names
  obtain ⟨q, named⟩ := TypeExpr.exists_codingProtocol?_iff.mpr coding
  rw [List.head?_filterMap]
  cases first : d.heading.inherited.findSome? (·.codingProtocol?) with
  | none => exact absurd (List.findSome?_eq_none_iff.mp first type inherited) (by simp [named])
  | some p => exact ⟨p, rfl, by rw [repeatedConformance, first, repetition]⟩

/-- Without an inherited type that names a coding protocol there is no warning. -/
theorem repeatedConformance_of_not_names (silent : ¬ d.NamesCoding) :
    d.repeatedConformance name = [] := by
  have nothing : d.heading.inherited.findSome? (·.codingProtocol?) = none := by
    refine List.findSome?_eq_none_iff.mpr fun type inherited => ?_
    rw [Option.eq_none_iff_forall_ne_some]
    exact fun p named =>
      silent ⟨type, inherited, TypeExpr.exists_codingProtocol?_iff.mp ⟨p, named⟩⟩
  rw [repeatedConformance, nothing]

/-- A field model gives no warning that a conformance is repeated. -/
theorem not_isRepetition_of_mem {m : FieldModel} {x : Diagnostic}
    (mem : x ∈ m.diagnostics) : x.warning.isRepetition = false := by
  rcases List.mem_append.mp mem with loss | constant
  · obtain ⟨s, -, rfl⟩ := List.mem_map.mp loss
    rfl
  · obtain ⟨c, -, rfl⟩ := List.mem_map.mp constant
    rfl

/-- Each attribute on a class warns about a repeated conformance again. -/
theorem filter_repetitions (isClass : d.heading.kind = .classType) :
    (d.expand w name).diagnostics.filter (·.isRepetitionAt d.heading.keyword) =
      (List.replicate d.registered.length (d.repeatedConformance name)).flatten := by
  rw [expand_parts (·.diagnostics) rfl fun _ _ => rfl, List.filter_flatMap, ← List.map_const',
    ← List.flatMap_def]
  refine List.flatMap_congr fun a _ => ?_
  rw [expandAttribute, FieldModel.extract, if_pos isClass]
  dsimp only
  rw [List.filter_append, List.filter_eq_nil_iff.mpr, List.filter_eq_self.mpr, List.nil_append]
  · intro x mem
    rw [repeatedConformance] at mem
    split at mem
    · obtain rfl := List.mem_singleton.mp mem
      exact decide_eq_true rfl
    · cases mem
  · intro x mem
    rw [Diagnostic.isRepetitionAt, not_isRepetition_of_mem mem, Bool.false_and]
    exact Bool.false_ne_true

/-- A warning about a declaration that a conformance is repeated points at its keyword. -/
theorem place_of_isRepetitionAt {keyword : Span} {x : Diagnostic}
    (mem : x ∈ (d.expand w name).diagnostics) (here : x.isRepetitionAt keyword = true) :
    keyword.place = d.heading.keyword.place := by
  rw [Diagnostic.isRepetitionAt, Bool.and_eq_true, decide_eq_true_eq] at here
  rw [expand_parts (·.diagnostics) rfl fun _ _ => rfl] at mem
  obtain ⟨a, -, mem⟩ := List.mem_flatMap.mp mem
  rw [expandAttribute] at mem
  split at mem
  · obtain rfl := List.mem_singleton.mp mem
    exact here.2.symm
  · rcases List.mem_append.mp mem with model | mem
    · rw [not_isRepetition_of_mem model] at here
      cases here.1
    · rw [repeatedConformance] at mem
      split at mem
      · obtain rfl := List.mem_singleton.mp mem
        exact here.2.symm
      · cases mem

end Declaration

/-! ### Sources

The diagnostics of all classes are in one list. Those about one class are found by the place of its
keyword, which no other declaration shares. -/

namespace ExpandedSource

/-- What is warned about at the keyword of an annotated class that these names lead to: once for
each attribute that is expanded, the first coding protocol among its inherited types. -/
structure WarnsOfNamed (out : ExpandedSource) (path : List String) (d : Declaration) : Prop where
  /-- If an inherited type names a coding protocol, the first that does so is warned about. -/
  named : d.NamesCoding →
    ∃ p, (d.heading.inherited.filterMap (·.codingProtocol?)).head? = some p ∧
      out.repetitionsAt d =
        List.replicate d.registered.length (d.repetition (Declaration.dotted path) p)
  /-- Otherwise there is no warning. -/
  unnamed : ¬ d.NamesCoding → out.repetitionsAt d = []

/-- There is one warning for each attribute that is expanded if the class declares to conform to a
coding protocol, and else none. -/
structure WarnsOfDeclared (out : ExpandedSource) (d : Declaration) : Prop where
  /-- If a coding protocol is declared, there are as many warnings as attributes. -/
  declared : d.DeclaresCoding → (out.repetitionsAt d).length = d.registered.length
  /-- Otherwise there is none. -/
  undeclared : ¬ d.DeclaresCoding → out.repetitionsAt d = []

variable {out : ExpandedSource} {path : List String} {d : Declaration}

/-- The warnings about an annotated class are what it declares exactly if a coding protocol that it
declares is named by an inherited type. -/
theorem WarnsOfNamed.declared_iff (warns : out.WarnsOfNamed path d)
    (annotated : d.isAnnotated = true) :
    out.WarnsOfDeclared d ↔ (d.DeclaresCoding → d.NamesCoding) := by
  constructor
  · intro complete declares
    by_contra silent
    have counted := complete.declared declares
    rw [warns.unnamed silent] at counted
    exact Declaration.isAnnotated_iff.mp annotated (List.length_eq_zero_iff.mp counted.symm)
  · intro named
    constructor
    · intro declares
      obtain ⟨p, -, found⟩ := warns.named (named declares)
      rw [found, List.length_replicate]
    · exact fun undeclared => warns.unnamed fun names => undeclared names.declares

end ExpandedSource

section Sources

variable {source : String} {declarations : List Declaration} {indentWidth : Nat}
  {out : ExpandedSource} {path : List String} {d : Declaration}

/-- An annotated declaration of a source is listed under its dotted name. -/
theorem Declaration.listed_of_path
    (inTree : (path, d) ∈ declarations.flatMap Declaration.withPaths)
    (annotated : d.isAnnotated = true) :
    (dotted path, d) ∈ declarations.flatMap (·.annotated) := by
  obtain ⟨top, among, inTree⟩ := List.mem_flatMap.mp inTree
  refine List.mem_flatMap.mpr ⟨top, among, ?_⟩
  rw [annotated_paths]
  exact List.mem_map.mpr ⟨(path, d), List.mem_filter.mpr ⟨inTree, annotated⟩, rfl⟩

/-- The warnings at the keyword of an annotated class are those about it, for each attribute that is
expanded. -/
theorem repetitionsAt_eq (parsed : readSource source = .ok declarations)
    (expanded : expandSource source indentWidth = .ok out)
    (inTree : (path, d) ∈ declarations.flatMap Declaration.withPaths)
    (annotated : d.isAnnotated = true) (isClass : d.heading.kind = .classType) :
    out.repetitionsAt d = (List.replicate d.registered.length
      (d.repeatedConformance (Declaration.dotted path))).flatten := by
  have distinct := readSource_keywords_distinct parsed
  rw [List.map_eq_flatMap] at distinct
  rw [expandSource_of_readSource parsed] at expanded
  cases expanded
  rw [ExpandedSource.repetitionsAt, filter_expansions_of_distinct distinct
    (Declaration.listed_of_path inTree annotated) (List.mem_singleton_self _)]
  · exact Declaration.filter_repetitions isClass
  · intro _ n x mem here
    exact List.mem_singleton.mpr (Declaration.place_of_isRepetitionAt mem here)

/-- What is warned about at the keyword of an annotated class. -/
theorem expandSource_warnsOfNamed (parsed : readSource source = .ok declarations)
    (expanded : expandSource source indentWidth = .ok out)
    (inTree : (path, d) ∈ declarations.flatMap Declaration.withPaths)
    (annotated : d.isAnnotated = true) (isClass : d.heading.kind = .classType) :
    out.WarnsOfNamed path d := by
  have found := repetitionsAt_eq parsed expanded inTree annotated isClass
  constructor
  · intro names
    obtain ⟨p, first, warning⟩ := Declaration.repeatedConformance_of_names names
    exact ⟨p, first, by rw [found, warning, List.flatten_replicate_singleton]⟩
  · intro silent
    rw [found, Declaration.repeatedConformance_of_not_names silent]
    exact List.flatten_replicate_nil

end Sources

/-- Whatever can be read is expanded, and at the keyword of each annotated class are the warnings
about the coding protocol that an inherited type of it names. They are what the class declares
exactly if a protocol that it declares is named by an inherited type, not only by a part of one.

If several inherited types name one, it is the first that is warned about, and it is so once for
each attribute that is expanded. -/
theorem expandSource_repetitions {source : String} {declarations : List Declaration}
    (parsed : readSource source = .ok declarations) (indentWidth : Nat) :
    ∃ out, expandSource source indentWidth = .ok out ∧
      ∀ path d, (path, d) ∈ declarations.flatMap Declaration.withPaths → d.isAnnotated = true →
        d.heading.kind = .classType →
          out.WarnsOfNamed path d ∧
            (out.WarnsOfDeclared d ↔ (d.DeclaresCoding → d.NamesCoding)) := by
  refine ⟨_, expandSource_of_readSource parsed indentWidth, ?_⟩
  intro path d inTree annotated isClass
  have warns := expandSource_warnsOfNamed parsed (expandSource_of_readSource parsed indentWidth)
    inTree annotated isClass
  exact ⟨warns, warns.declared_iff annotated⟩

/-- A class with two attributes in another class, which inherits a coding protocol by its full
name. -/
def inheritedProtocol : String :=
  "class A \x7b\n" ++
    "    @Codable @Codable class B: A & Hashable, Swift.Decodable \x7b\x7d\n" ++
    "\x7d\n"

/-- A class in which one of the inherited types names a protocol, and one is a composition without
any. -/
theorem expandSource_repetitions_nested :
    ∃ d out, expandSource inheritedProtocol 4 = .ok out ∧ d.DeclaresCoding ∧
      out.repetitionsAt d = List.replicate 2 ⟨2, 23, .repeatedConformance "A.B" "Decodable"⟩ ∧
      out.WarnsOfDeclared d := by
  have computed : ((readSource inheritedProtocol).toOption.any fun ds =>
      (ds.flatMap Declaration.withPaths).any fun entry => entry.1 = ["A", "B"] &&
        entry.2.isAnnotated && entry.2.heading.kind = .classType &&
        entry.2.registered.length = 2 &&
        (entry.2.heading.inherited.filterMap (·.codingProtocol?)) = ["Decodable"] &&
        (entry.2.heading.keyword.line, entry.2.heading.keyword.column) = (2, 23)) = true := by
    decide +kernel
  obtain ⟨ds, parsed, computed⟩ := ok_of_any computed
  obtain ⟨⟨path, d⟩, inTree, computed⟩ := List.any_eq_true.mp computed
  simp only [Bool.and_eq_true, decide_eq_true_eq, Prod.mk.injEq] at computed
  obtain ⟨⟨⟨⟨⟨rfl, annotated⟩, isClass⟩, twice⟩, coding⟩, line, column⟩ := computed
  have names : d.NamesCoding := by
    have found : "Decodable" ∈ d.heading.inherited.filterMap (·.codingProtocol?) := by
      rw [coding]
      exact List.mem_singleton_self _
    obtain ⟨type, inherited, named⟩ := List.mem_filterMap.mp found
    exact ⟨type, inherited, TypeExpr.exists_codingProtocol?_iff.mp ⟨_, named⟩⟩
  obtain ⟨out, expanded, warned⟩ := expandSource_repetitions parsed 4
  obtain ⟨warns, complete⟩ := warned _ d inTree annotated isClass
  obtain ⟨p, first, found⟩ := warns.named names
  rw [coding] at first
  obtain rfl := Option.some.inj first
  refine ⟨d, out, expanded, names.declares, ?_, complete.mpr fun _ => names⟩
  rw [found, twice, Declaration.repetition, Diagnostic.atSpan, line, column]
  rfl

/-- A class that inherits a composition with a coding protocol in it. -/
def composedProtocol : String :=
  "@Codable class A: Base & Codable \x7b\n" ++
    "    let x: Int\n" ++
    "\x7d\n"

/-- A class that declares a protocol in a composition only, and is not warned about. The expansion
has no diagnostics at all. -/
theorem expandSource_repetitions_composed :
    ∃ d out, readSource composedProtocol = .ok [d] ∧ d.isAnnotated = true ∧
      d.heading.kind = .classType ∧ d.registered.length = 1 ∧ d.DeclaresCoding ∧
      expandSource composedProtocol 4 = .ok out ∧ out.diagnostics = [] ∧
      ¬ out.WarnsOfDeclared d := by
  have computed : ((readSource composedProtocol).toOption.any fun ds =>
      ds.length = 1 && ds.all fun d => d.isAnnotated && d.heading.kind = .classType &&
        d.registered.length = 1 && d.heading.inherited.any fun type =>
          type.conjuncts.any fun part => part.codingProtocol? = some "Codable") = true := by
    decide +kernel
  have silent : ((expandSource composedProtocol 4).toOption.any fun out =>
      out.diagnostics = []) = true := by
    decide +kernel
  obtain ⟨ds, parsed, computed⟩ := ok_of_any computed
  obtain ⟨out, expanded, silent⟩ := ok_of_any silent
  simp only [Bool.and_eq_true, decide_eq_true_eq] at computed silent
  obtain ⟨alone, computed⟩ := computed
  obtain ⟨d, rfl⟩ := List.length_eq_one_iff.mp alone
  simp only [List.all_cons, List.all_nil, Bool.and_true, Bool.and_eq_true, List.any_eq_true,
    decide_eq_true_eq] at computed
  obtain ⟨⟨⟨annotated, isClass⟩, once⟩, type, inherited, part, conjunct, coding⟩ := computed
  have declares : d.DeclaresCoding :=
    ⟨type, inherited, part, conjunct, TypeExpr.exists_codingProtocol?_iff.mp ⟨_, coding⟩⟩
  refine ⟨d, out, parsed, annotated, isClass, once, declares, expanded, silent, fun complete => ?_⟩
  have counted := complete.declared declares
  rw [ExpandedSource.repetitionsAt, silent, once] at counted
  cases counted

end CodableSynthesis
