import CodableSynthesis.Expansion.Basic

/-!
The names of the annotated declarations. They are put together on the way down the tree; seen from
the top, each consists of the names that lead to its declaration.

* `Declaration.withPaths`: the declarations of a tree, each with the names that lead to it.
* `Declaration.annotated_paths`: the annotated declarations are those of the tree that are
  annotated, each under its dotted name.
* `Declaration.withPaths_snd`: the names lead to every declaration, and to nothing else.

`annotated_within` hands a prefix down and joins it with a dot at each level. The specification
keeps the names apart in a list and joins them at the end, so that a name that holds a dot itself,
as an extended type may, stays one name.
-/

namespace CodableSynthesis

namespace Declaration

mutual

/-- The declaration and the types nested in it, outer before inner, each with the names that lead to
it. -/
def withPaths : Declaration → List (List String × Declaration)
  | ⟨heading, members, opener, closer⟩ =>
    ([heading.name], ⟨heading, members, opener, closer⟩) ::
      (pathsIn members).map fun (path, n) => (heading.name :: path, n)

/-- The type declarations among some members, each with those nested in it and the names that lead
there. -/
def pathsIn : List Member → List (List String × Declaration)
  | [] => []
  | .type d :: members => withPaths d ++ pathsIn members
  | .variable _ :: members => pathsIn members
  | .other .. :: members => pathsIn members

end

/-- The name made of the names that lead to a declaration. -/
def dotted (path : List String) : String :=
  ".".intercalate path

/-- The annotated declarations among some that are given with paths, under their dotted names. -/
def named (front : List String) (entries : List (List String × Declaration)) :
    List (String × Declaration) :=
  (entries.filter (·.2.isAnnotated)).map fun (path, n) => (dotted (front ++ path), n)

theorem named_cons (front path : List String) (n : Declaration)
    (entries : List (List String × Declaration)) :
    named front ((path, n) :: entries) =
      (if n.isAnnotated then [(dotted (front ++ path), n)] else []) ++ named front entries := by
  rw [named, List.filter_cons]
  by_cases annotated : n.isAnnotated = true
  · rw [if_pos annotated, if_pos annotated]
    rfl
  · rw [if_neg annotated, if_neg annotated]
    rfl

theorem named_append (front : List String) (a b : List (List String × Declaration)) :
    named front (a ++ b) = named front a ++ named front b := by
  rw [named, List.filter_append, List.map_append]
  rfl

/-- A name in front of all paths is a name behind the ones in front of them. -/
theorem named_below (front : List String) (name : String)
    (entries : List (List String × Declaration)) :
    named front (entries.map fun (path, n) => (name :: path, n)) =
      named (front ++ [name]) entries := by
  simp only [named, List.filter_map, List.map_map, Function.comp_def, List.append_assoc,
    List.singleton_append]

mutual

theorem annotatedAs_paths (front : List String) : ∀ d : Declaration,
    annotatedAs (dotted (front ++ [d.heading.name])) d = named front d.withPaths
  | ⟨heading, members, opener, closer⟩ => by
    have inner := annotatedIn_paths (front ++ [heading.name]) (by simp) members
    rw [annotatedAs, withPaths, inner, named_cons, named_below]

theorem annotatedIn_paths (front : List String) (nonempty : front ≠ []) : ∀ ms : List Member,
    annotatedIn (dotted front) ms = named front (pathsIn ms)
  | [] => rfl
  | .type d :: ms => by
    have name : dotted front ++ "." ++ d.heading.name = dotted (front ++ [d.heading.name]) := by
      rw [dotted, dotted, String.intercalate_append_of_ne_nil nonempty (by simp),
        String.intercalate_singleton]
    rw [annotatedIn, pathsIn, name, named_append, annotatedAs_paths front d,
      annotatedIn_paths front nonempty ms]
  | .variable _ :: ms | .other .. :: ms => by
    rw [annotatedIn, pathsIn]
    exact annotatedIn_paths front nonempty ms

end

/-- The annotated declarations are those of the tree that are annotated, each under the name made of
the names that lead to it. -/
theorem annotated_paths (d : Declaration) :
    d.annotated = (d.withPaths.filter (·.2.isAnnotated)).map fun (path, n) => (dotted path, n) := by
  have whole := annotatedAs_paths [] d
  rw [List.nil_append, dotted, String.intercalate_singleton] at whole
  exact whole

mutual

theorem withPaths_snd : ∀ d : Declaration, d.withPaths.map (·.2) = d.withNested
  | ⟨heading, members, opener, closer⟩ => by
    rw [withPaths, withNested, List.map_cons, List.map_map, ← pathsIn_snd members]
    rfl

theorem pathsIn_snd : ∀ ms : List Member, (pathsIn ms).map (·.2) = nestedIn ms
  | [] => rfl
  | .type d :: ms => by
    rw [pathsIn, nestedIn, List.map_append, withPaths_snd d, pathsIn_snd ms]
  | .variable _ :: ms | .other .. :: ms => by
    rw [pathsIn, nestedIn]
    exact pathsIn_snd ms

end

end Declaration

end CodableSynthesis
