import CodableSynthesis.Proofs.Edits.Made

/-!
The edits that an expansion announces, declaration by declaration: what is taken out, what is put
into bodies, and what is put behind the declarations at the top of the file.

* `Declaration.generatedMembers`, `Declaration.generatedExtensions`: the texts that are generated.
* `Declaration.announced`: these edits in the order in which they are announced.
* `Declaration.perm_allEdits`: they are the edits that are made.
* `Declaration.annotated_snd`: the declarations they are announced for are those annotated, at any
  depth.

An announcement follows the program: it goes through the annotated declarations, outer before inner,
and for each of them through its attributes. `Declaration.allEdits` lists the same edits in the
order of the text, where the edits of a nested type come before the members of the type around it.
The two orders are rearrangements of one another, which is all that sorting needs.
-/

namespace CodableSynthesis

namespace Declaration

/-- The attributes of a declaration that are expanded. An attribute that is written twice is among
them twice, and everything is generated for it twice. -/
def registered (d : Declaration) : List Attribute :=
  d.heading.attributes.filter fun a => (Capability.named? (Attribute.simpleName a.name)).isSome

/-- The texts generated for the body of a class, once for each attribute that is expanded. -/
def generatedMembers (w : Writer) (name : String) (d : Declaration) : List String :=
  match FieldModel.extract name d with
  | .ok model => d.registered.flatMap fun _ => model.members.toList.map w.render
  | .error _ => []

/-- The extensions generated for a class, one for each attribute that is expanded. -/
def generatedExtensions (w : Writer) (name : String) (d : Declaration) : List String :=
  match FieldModel.extract name d with
  | .ok model => d.registered.map fun _ => w.render (.conformance model.conformance)
  | .error _ => []

/-- The edits announced for one annotated declaration: each attribute is taken out, and a class is
given members. -/
def announcedFor (source : List Char) (w : Writer) (name : String) (d : Declaration) : List Edit :=
  d.registered.map (fun a => Edit.removal source a.span) ++
    if d.heading.kind = .classType then
      [.insertion source w.indentWidth d (d.generatedMembers w name)]
    else []

/-- The edits announced for a declaration at the top of a file: those for each annotated declaration
in it, and the extensions of the classes among them, outer before inner. -/
def announced (source : List Char) (w : Writer) (d : Declaration) : List Edit :=
  d.annotated.flatMap (fun (name, a) => a.announcedFor source w name) ++
    if d.annotated.any (fun (_, a) => a.heading.kind = .classType) then
      [.extension d (d.annotated.flatMap fun (name, a) => a.generatedExtensions w name)]
    else []

/-! ### What an expansion consists of -/

variable {source : List Char} {w : Writer} {name : String} {d : Declaration}

/-- A declaration is annotated if one of its attributes is expanded. -/
theorem isAnnotated_iff : d.isAnnotated = true ↔ d.registered ≠ [] := by
  simp [isAnnotated, registered, List.filter_eq_nil_iff, Option.isSome_iff_ne_none]

theorem registered_eq_nil (h : d.isAnnotated = false) : d.registered = [] := by
  cases registered : d.registered with
  | nil => rfl
  | cons a as =>
    rw [isAnnotated_iff.mpr (by simp [registered])] at h
    cases h

/-- Going through the attributes collects the parts of those that are expanded. -/
theorem expand_parts {α : Type} (part : Expansion → List α) (none : part .none = [])
    (append : ∀ a b : Expansion, part (a ++ b) = part a ++ part b) :
    part (d.expand w name) = d.registered.flatMap fun a =>
      part (d.expandAttribute w .codable a name) := by
  have go {f : Expansion → Attribute → Expansion}
      (known : ∀ e a, (Capability.named? (Attribute.simpleName a.name)).isSome = true →
        f e a = e ++ d.expandAttribute w .codable a name)
      (unknown : ∀ e a, ¬ (Capability.named? (Attribute.simpleName a.name)).isSome = true →
        f e a = e)
      (as : List Attribute) (e : Expansion) :
      part (as.foldl f e) =
      part e ++ (as.filter fun a =>
          (Capability.named? (Attribute.simpleName a.name)).isSome).flatMap fun a =>
        part (d.expandAttribute w .codable a name) := by
    induction as generalizing e with
    | nil => simp
    | cons a as ih =>
      rw [List.foldl_cons, ih]
      by_cases named : (Capability.named? (Attribute.simpleName a.name)).isSome = true
      · rw [List.filter_cons_of_pos (by exact named), known e a named, append, List.flatMap_cons,
          List.append_assoc]
      · rw [List.filter_cons_of_neg (by exact named), unknown e a named]
  refine (go (fun e a named => ?_) (fun e a named => ?_) d.heading.attributes .none).trans ?_
  · obtain ⟨⟨⟩, named⟩ := Option.isSome_iff_exists.mp named
    simp only [named]
  · rw [Option.not_isSome_iff_eq_none] at named
    simp only [named]
  · rw [none, List.nil_append, registered]

/-- The attributes that an expansion takes out are those that are expanded. -/
theorem expand_attributes : (d.expand w name).attributes = d.registered.map (·.span) := by
  rw [expand_parts (·.attributes) rfl fun _ _ => rfl, List.map_eq_flatMap]
  simp only [expandAttribute]
  cases FieldModel.extract name d <;> rfl

theorem expand_members : (d.expand w name).members = d.generatedMembers w name := by
  rw [expand_parts (·.members) rfl fun _ _ => rfl, generatedMembers]
  simp only [expandAttribute]
  cases FieldModel.extract name d with
  | error => simp
  | ok model => rfl

theorem expand_extensions : (d.expand w name).extensions = d.generatedExtensions w name := by
  rw [expand_parts (·.extensions) rfl fun _ _ => rfl, generatedExtensions]
  simp only [expandAttribute]
  cases FieldModel.extract name d with
  | error => simp
  | ok model => exact List.map_eq_flatMap.symm

/-- Of the annotated declarations, exactly the classes are given members. -/
theorem generatedMembers_isEmpty :
    (d.generatedMembers w name).isEmpty = !(d.isAnnotated && d.heading.kind = .classType) := by
  cases annotated : d.isAnnotated with
  | false =>
    rw [generatedMembers, registered_eq_nil annotated]
    split <;> rfl
  | true =>
    obtain ⟨a, as, registered⟩ := List.exists_cons_of_ne_nil (isAnnotated_iff.mp annotated)
    rw [generatedMembers, registered, FieldModel.extract]
    by_cases isClass : d.heading.kind = .classType
    · simp [isClass, MemberArtifacts.toList]
    · simp [isClass]

theorem ownEdits :
    (d.expand w name).attributes.map (Edit.removal source) ++
        (if (d.expand w name).members.isEmpty then []
          else [Edit.insertion source w.indentWidth d (d.expand w name).members]) =
      if d.isAnnotated then d.announcedFor source w name else [] := by
  rw [expand_attributes, expand_members, generatedMembers_isEmpty, List.map_map]
  cases annotated : d.isAnnotated with
  | false =>
    simp [registered_eq_nil annotated]
  | true => by_cases isClass : d.heading.kind = .classType <;> simp [announcedFor, isClass]

mutual

/-- The edits within a declaration are those announced for the annotated declarations in it. -/
theorem perm_edits (source : List Char) (w : Writer) (name : String) : ∀ d : Declaration,
    (d.edits source w name).Perm
      ((annotatedAs name d).flatMap fun (name, a) => a.announcedFor source w name)
  | ⟨heading, members, opener, closer⟩ => by
    rw [edits, annotatedAs, List.flatMap_append]
    have inner := perm_editsIn source w name members
    have own := @ownEdits source w name ⟨heading, members, opener, closer⟩
    refine List.Perm.trans ?_ (List.Perm.append_left _ inner)
    rw [List.append_assoc]
    refine (List.Perm.append_left _ List.perm_append_comm).trans ?_
    rw [← List.append_assoc, own]
    cases Declaration.isAnnotated ⟨heading, members, opener, closer⟩ with
    | false => exact .refl _
    | true => simp

theorem perm_editsIn (source : List Char) (w : Writer) (name : String) : ∀ ms : List Member,
    (editsIn source w name ms).Perm
      ((annotatedIn name ms).flatMap fun (name, a) => a.announcedFor source w name)
  | [] => .nil
  | .type d :: ms => by
    rw [editsIn, annotatedIn, List.flatMap_append]
    exact (perm_edits source w _ d).append (perm_editsIn source w name ms)
  | .variable _ :: ms | .other .. :: ms => by
    rw [editsIn, annotatedIn]
    exact perm_editsIn source w name ms

end

/-- The extensions of a declaration at the top of a file are those of the classes in it. -/
theorem allExtensions :
    (d.expansions w).flatMap (·.extensions) =
      d.annotated.flatMap fun (name, a) => a.generatedExtensions w name := by
  rw [expansions, List.flatMap_map]
  simp only [expand_extensions]

mutual

theorem isAnnotated_of_mem {name : String} {entry : String × Declaration} :
    ∀ d : Declaration, entry ∈ annotatedAs name d → entry.2.isAnnotated = true
  | ⟨heading, members, opener, closer⟩, mem => by
    rw [annotatedAs] at mem
    rcases List.mem_append.mp mem with own | inner
    · split at own
      · next annotated =>
        obtain rfl := List.mem_singleton.mp own
        exact annotated
      · cases own
    · exact isAnnotated_of_memIn members inner

theorem isAnnotated_of_memIn {name : String} {entry : String × Declaration} :
    ∀ ms : List Member, entry ∈ annotatedIn name ms → entry.2.isAnnotated = true
  | .type d :: ms, mem => by
    rw [annotatedIn] at mem
    rcases List.mem_append.mp mem with inner | later
    · exact isAnnotated_of_mem d inner
    · exact isAnnotated_of_memIn ms later
  | .variable _ :: ms, mem | .other .. :: ms, mem => by
    rw [annotatedIn] at mem
    exact isAnnotated_of_memIn ms mem

end

/-- There are extensions if a class is among the annotated declarations. -/
theorem extensions_isEmpty :
    (d.annotated.flatMap fun (name, a) => a.generatedExtensions w name).isEmpty =
      !d.annotated.any fun (_, a) => a.heading.kind = .classType := by
  rw [Bool.eq_iff_iff, List.isEmpty_iff, List.flatMap_eq_nil_iff]
  simp only [Bool.not_eq_true', List.any_eq_false, decide_eq_true_eq]
  refine forall₂_congr fun entry mem => ?_
  obtain ⟨name, a⟩ := entry
  have annotated : a.registered ≠ [] := isAnnotated_iff.mp (isAnnotated_of_mem d mem)
  rw [generatedExtensions, FieldModel.extract]
  by_cases isClass : a.heading.kind = .classType
  · simp [isClass, annotated]
  · simp [isClass]

/-- The edits that are made are those that are announced. -/
theorem perm_allEdits : (d.announced source w).Perm (d.allEdits source w) := by
  rw [allEdits, announced, allExtensions, extensions_isEmpty]
  refine List.Perm.append (perm_edits source w _ d).symm ?_
  cases d.annotated.any _ <;> exact .refl _

/-! ### The annotated declarations -/

theorem mem_withNested_self (d : Declaration) : d ∈ d.withNested := by
  obtain ⟨heading, members, opener, closer⟩ := d
  rw [withNested]
  exact .head _

mutual

/-- The names apart, the list of annotated declarations is the list of all nested ones, less those
that are not annotated. -/
theorem annotatedAs_snd (name : String) : ∀ d : Declaration,
    (annotatedAs name d).map (·.2) = d.withNested.filter isAnnotated
  | ⟨heading, members, opener, closer⟩ => by
    rw [annotatedAs, withNested, List.map_append, annotatedIn_snd name members, List.filter_cons]
    cases Declaration.isAnnotated ⟨heading, members, opener, closer⟩ <;> rfl

theorem annotatedIn_snd (name : String) : ∀ ms : List Member,
    (annotatedIn name ms).map (·.2) = (nestedIn ms).filter isAnnotated
  | [] => rfl
  | .type d :: ms => by
    rw [annotatedIn, nestedIn, List.map_append, List.filter_append, annotatedAs_snd _ d,
      annotatedIn_snd name ms]
  | .variable _ :: ms | .other .. :: ms => by
    rw [annotatedIn, nestedIn]
    exact annotatedIn_snd name ms

end

/-- The annotated declarations are those that are annotated, at any depth, outer before inner. -/
theorem annotated_snd (d : Declaration) :
    d.annotated.map (·.2) = d.withNested.filter isAnnotated :=
  annotatedAs_snd _ d

theorem mem_withNested_of_annotated {entry : String × Declaration} (h : entry ∈ d.annotated) :
    entry.2 ∈ d.withNested := by
  have listed := List.mem_map_of_mem (f := Prod.snd) h
  rw [annotated_snd] at listed
  exact (List.mem_filter.mp listed).1

theorem flatMap_annotated_snd (ds : List Declaration) :
    (ds.flatMap annotated).map (·.2) = (ds.flatMap withNested).filter isAnnotated := by
  induction ds with
  | nil => rfl
  | cons d ds ih =>
    rw [List.flatMap_cons, List.map_append, ih, annotated_snd, List.flatMap_cons,
      List.filter_append]

section

variable {P : String → Prop}

mutual

theorem annotatedAs_fst (dot : ∀ {n n' : String}, P n → P n' → P (n ++ "." ++ n'))
    {name : String} : ∀ d : Declaration,
    (∀ n ∈ d.withNested, P n.heading.name) → P name → ∀ entry ∈ annotatedAs name d, P entry.1
  | ⟨heading, members, opener, closer⟩, names, named => by
    rw [withNested] at names
    obtain ⟨-, nested⟩ := List.forall_mem_cons.mp names
    rw [annotatedAs]
    refine List.forall_mem_append.mpr ⟨?_, annotatedIn_fst dot members nested named⟩
    split
    · exact List.forall_mem_singleton.mpr named
    · nofun

theorem annotatedIn_fst (dot : ∀ {n n' : String}, P n → P n' → P (n ++ "." ++ n'))
    {name : String} : ∀ ms : List Member,
    (∀ n ∈ nestedIn ms, P n.heading.name) → P name → ∀ entry ∈ annotatedIn name ms, P entry.1
  | [], _, _ => nofun
  | .type d :: ms, names, named => by
    rw [nestedIn] at names
    obtain ⟨here, later⟩ := List.forall_mem_append.mp names
    rw [annotatedIn]
    have own := here d d.mem_withNested_self
    exact List.forall_mem_append.mpr ⟨annotatedAs_fst dot d here (dot named own),
      annotatedIn_fst dot ms later named⟩
  | .variable _ :: ms, names, named | .other .. :: ms, names, named => by
    rw [annotatedIn]
    exact annotatedIn_fst dot ms names named

end

/-- What holds of the names of a declaration and of those nested in it, and of names with a dot
between them, holds of the dotted names of the annotated ones. -/
theorem annotated_fst (dot : ∀ {n n' : String}, P n → P n' → P (n ++ "." ++ n'))
    (names : ∀ n ∈ d.withNested, P n.heading.name) : ∀ entry ∈ d.annotated, P entry.1 :=
  annotatedAs_fst dot d names (names d d.mem_withNested_self)

end

end Declaration

end CodableSynthesis
