import CodableSynthesis.Artifact.Basic

/-!
What the generated statements do to a keyed container. A container holds under each key that was
written a value, or null for the value of an optional property that has none. Encoding statements
write the values of properties, decoding statements assign what they read to properties: a required
one fails where its key is missing or holds null, an optional one assigns no value there.

* `DecodeInit.run`, `EncodeMethod.run`: the two generated bodies, statement by statement.
* `holds_encode`: the method writes every field under its identifier.
* `run_decodeInit`: the initializer assigns what a container holds, field by field.
* `MemberArtifacts.decode_encode`: so the initializer assigns to every field what the method
  encoded.

This is the one place where a meaning is given to what is printed; everywhere else an artifact is a
text. The reading of containers follows the documentation of the coding protocols: `decode` throws
where a key is missing or holds null, and `decodeIfPresent` gives no value in both cases.

What the values are is left open: `V` stands for encoded values of any type, so nothing is said
about how a single value is encoded. The identifiers have to differ, since two fields of one name
would share a key; the reader of declarations does not see to that.
-/

namespace CodableSynthesis

/-- A keyed container: what was written under its keys, in the order they were first written. An
entry that holds `none` was written as null, which is not the same as no entry. -/
structure Container (V : Type) where
  entries : List (String × Option V)
  deriving DecidableEq, Repr

namespace Container

variable {V : Type} {c : Container V} {key other : String} {v : Option V}

/-- The container that nothing was written to. -/
def empty : Container V :=
  ⟨[]⟩

/-- The keys that were written, in order. -/
def keys (c : Container V) : List String :=
  c.entries.map (·.1)

/-- What is held under a key, if it was written. The outer `Option` tells whether it was, the inner
one whether a value or null was. -/
def get? (c : Container V) (key : String) : Option (Option V) :=
  c.entries.lookup key

/-- Some entries with one in the place of that of the same key, or behind the others. A key that is
written twice keeps its place. -/
def putEntry (key : String) (v : Option V) :
    List (String × Option V) → List (String × Option V)
  | [] => [(key, v)]
  | (other, w) :: more =>
    if key = other then (key, v) :: more else (other, w) :: putEntry key v more

/-- Writes a value, or null, under a key. -/
def put (c : Container V) (key : String) (v : Option V) : Container V :=
  ⟨putEntry key v c.entries⟩

/-- What is held under a key after one was written. -/
theorem get?_put : (c.put key v).get? other = if other = key then some v else c.get? other := by
  obtain ⟨entries⟩ := c
  change (putEntry key v entries).lookup other =
      if other = key then some v else entries.lookup other
  induction entries with
  | nil => by_cases same : other = key <;> simp [putEntry, same]
  | cons first more ih =>
    obtain ⟨name, w⟩ := first
    by_cases here : key = name
    · subst here
      by_cases same : other = key
      · simp [putEntry, same]
      · simp [putEntry, List.lookup_cons, same, beq_false_of_ne same]
    · by_cases same : other = name
      · subst same
        simp [putEntry, here, Ne.symm here]
      · simp [putEntry, here, List.lookup_cons, ih, beq_false_of_ne same]

/-- A new key is behind the others. -/
theorem keys_put (fresh : key ∉ c.keys) : (c.put key v).keys = c.keys ++ [key] := by
  obtain ⟨entries⟩ := c
  change (putEntry key v entries).map (·.1) = entries.map (·.1) ++ [key]
  replace fresh : key ∉ entries.map (·.1) := fresh
  induction entries with
  | nil => rfl
  | cons first more ih =>
    rw [List.map_cons, List.mem_cons, not_or] at fresh
    rw [putEntry, if_neg fresh.1, List.map_cons, ih fresh.2]
    rfl

end Container

/-! ### Statements -/

section Statements

variable {V : Type}

/-- Why decoding fails. Both errors name the key. -/
inductive DecodingError where
  /-- Nothing was written under the key. -/
  | keyNotFound (key : String)
  /-- There is null in place of a value. -/
  | valueNotFound (key : String)
  deriving DecidableEq, Repr

/-- Writes the value of a property, null if it has none. -/
def EncodeStatement.run (s : EncodeStatement) (values : String → Option V) (c : Container V) :
    Container V :=
  c.put s.key (values s.value)

/-- Writes the values of properties to an empty container, in the order of the statements of
`EncodeMethod`. -/
def EncodeMethod.run (m : EncodeMethod) (values : String → Option V) : Container V :=
  m.statements.foldl (fun c s => s.run values c) .empty

/-- What a strategy makes of what is held under a key. `decode` insists on a value;
`decodeIfPresent` takes a missing key and a null for the same. -/
def DecodeStrategy.receive (strategy : DecodeStrategy) (key : String) (held : Option (Option V)) :
    Except DecodingError (Option V) :=
  match strategy, held with
  | .decode, none => .error (.keyNotFound key)
  | .decode, some none => .error (.valueNotFound key)
  | .decode, some (some v) => .ok (some v)
  | .decodeIfPresent, none => .ok none
  | .decodeIfPresent, some v => .ok v

/-- What a statement reads from a container: what is held under its key, as its strategy takes it.
The declared type of the statement is left to whoever encodes the value. -/
def DecodeStatement.read (s : DecodeStatement) (c : Container V) :
    Except DecodingError (Option V) :=
  s.strategy.receive s.key (c.get? s.key)

/-- Assigns to properties what is read from a container: the assignments, in order. The first
statement that fails ends the initializer. -/
def DecodeInit.run (i : DecodeInit) (c : Container V) :
    Except DecodingError (List (String × Option V)) :=
  i.statements.mapM fun s => do return (s.target, ← s.read c)

end Statements

/-! ### Encoding

Encoding goes through the fields and writes under each identifier. `get?_encode` says what is held
afterwards and `keys_encode` in which order; only the second needs the identifiers to differ. -/

section RoundTrip

variable {V : Type} {f : Field} {fields : List Field} {values : String → Option V} {c : Container V}

/-- Each field has a value, and only optional ones may have none. These are the assignments that an
initialized instance may have. -/
def Assigns (values : String → Option V) (fields : List Field) : Prop :=
  ∀ f ∈ fields, f.isOptional = false → (values f.identifier).isSome = true

/-- A container holds the values of some fields. -/
def Container.Holds (c : Container V) (values : String → Option V) (fields : List Field) : Prop :=
  ∀ f ∈ fields, c.get? f.identifier = some (values f.identifier)

/-- The statement of a field changes what is held under its identifier and nothing else. -/
theorem Field.get?_encodeStatement (name : String) :
    (f.encodeStatement.run values c).get? name =
      if name = f.identifier then some (values f.identifier) else c.get? name :=
  Container.get?_put

/-- Encoding more fields leaves what is held, and adds the values of the fields. The induction is on
the fields, and a name that is still to come counts as held. -/
theorem get?_encode (name : String)
    (held : name ∈ fields.map (·.identifier) ∨ c.get? name = some (values name)) :
    ((fields.map (·.encodeStatement)).foldl (fun c s => s.run values c) c).get? name
      = some (values name) := by
  induction fields generalizing c with
  | nil => exact held.resolve_left (by simp)
  | cons f fields ih =>
    apply ih
    rw [Field.get?_encodeStatement]
    by_cases same : name = f.identifier
    · right
      rw [if_pos same, same]
    · rw [if_neg same]
      refine held.imp_left fun mem => ?_
      rw [List.map_cons, List.mem_cons] at mem
      exact mem.resolve_left same

/-- Encoding fields of different names writes their keys in order, each once. -/
theorem keys_encode (distinct : (fields.map (·.identifier)).Nodup)
    (fresh : ∀ f ∈ fields, f.identifier ∉ c.keys) :
    ((fields.map (·.encodeStatement)).foldl (fun c s => s.run values c) c).keys
      = c.keys ++ fields.map (·.identifier) := by
  induction fields generalizing c with
  | nil => exact (List.append_nil _).symm
  | cons f fields ih =>
    rw [List.forall_mem_cons] at fresh
    rw [List.map_cons, List.nodup_cons] at distinct
    have written : (f.encodeStatement.run values c).keys = c.keys ++ [f.identifier] :=
      Container.keys_put fresh.1
    rw [List.map_cons, List.foldl_cons, ih distinct.2]
    · rw [written, List.map_cons, List.append_assoc]
      rfl
    · intro g mem
      rw [written, List.mem_append, List.mem_singleton, not_or]
      refine ⟨fresh.2 g mem, ?_⟩
      intro same
      exact distinct.1 (List.mem_map.mpr ⟨g, mem, same⟩)

/-- The generated method writes the value of every field. -/
theorem holds_encode (modifier : String) :
    ((MemberArtifacts.ofFields fields modifier).encodeMethod.run values).Holds values fields := by
  intro f mem
  exact get?_encode f.identifier (.inl (List.mem_map_of_mem mem))

/-! ### Decoding

Decoding is a `mapM` over the statements, so that it succeeds if each statement does.
`Field.read_decodeStatement` is where the strategy of a field and its type meet. -/

/-- A field is decoded to its value where that is held, which is null for an optional field only. -/
theorem Field.read_decodeStatement (held : c.get? f.identifier = some (values f.identifier))
    (required : f.isOptional = false → (values f.identifier).isSome = true) :
    f.decodeStatement.read c = .ok (values f.identifier) := by
  change (if f.isOptional then DecodeStrategy.decodeIfPresent else .decode).receive f.identifier
    (c.get? f.identifier) = _
  rw [held]
  cases optional : f.isOptional with
  | true => rfl
  | false =>
    obtain ⟨v, value⟩ := Option.isSome_iff_exists.mp (required optional)
    rw [value]
    rfl

/-- The generated initializer assigns the values that a container holds, in the order of the
fields. -/
theorem run_decodeInit (modifier : String) (holds : c.Holds values fields)
    (assigns : Assigns values fields) :
    (MemberArtifacts.ofFields fields modifier).decodeInit.run c
      = .ok (fields.map fun f => (f.identifier, values f.identifier)) := by
  change (fields.map (·.decodeStatement)).mapM _ = _
  induction fields with
  | nil => rfl
  | cons f fields ih =>
    obtain ⟨here, later⟩ := List.forall_mem_cons.mp holds
    obtain ⟨required, others⟩ := List.forall_mem_cons.mp assigns
    rw [List.map_cons, List.mapM_cons, ih later others, Field.read_decodeStatement here required]
    rfl

/-- What encoding fields and decoding them again comes to: the values come back, and the statements
of both bodies use the keys of the enumeration, no other and none twice. -/
structure RoundTrips (values : String → Option V) (fields : List Field) (a : MemberArtifacts) :
    Prop where
  /-- Decoding does not fail, and assigns to each field its value, in order. -/
  decodes : a.decodeInit.run (a.encodeMethod.run values)
    = .ok (fields.map fun f => (f.identifier, values f.identifier))
  /-- So no field is assigned twice. -/
  once : (fields.map (·.identifier)).Nodup
  /-- The keys of the statements are the cases of the enumeration, in order. -/
  encodeKeys : a.encodeMethod.statements.map (·.key) = a.keyEnum.cases
  /-- Those of the decoding statements are, too. -/
  decodeKeys : a.decodeInit.statements.map (·.key) = a.keyEnum.cases
  /-- And so are the keys of the container, each of which is written once. -/
  written : (a.encodeMethod.run values).keys = a.keyEnum.cases
  /-- No case stands twice in the enumeration. -/
  distinct : a.keyEnum.cases.Nodup

/-- The generated initializer undoes the generated method: for fields with different names, where
all that are not optional have a value. Neither body depends on the modifier. Optional fields
without a value come back without one, since null is written for them and `decodeIfPresent` takes it
for nothing. -/
theorem MemberArtifacts.decode_encode (values : String → Option V) (modifier : String)
    (distinct : (fields.map (·.identifier)).Nodup) (assigns : Assigns values fields) :
    RoundTrips values fields (MemberArtifacts.ofFields fields modifier) := by
  refine ⟨run_decodeInit modifier (holds_encode modifier) assigns, distinct, ?_, ?_, ?_, distinct⟩
  · exact List.map_map
  · exact List.map_map
  · exact keys_encode distinct fun f _ => List.not_mem_nil

/-- A required field, and an optional one on either side of it. -/
def threeFields : List Field :=
  [⟨"note", .optional (.simple "String")⟩, ⟨"id", .simple "Int"⟩,
    ⟨"size", .optional (.simple "Int")⟩]

/-- Values for them, one of which has none. -/
def threeValues (name : String) : Option Nat :=
  if name = "id" then some 7 else if name = "size" then some 2 else none

theorem decode_encode_three :
    RoundTrips threeValues threeFields (MemberArtifacts.ofFields threeFields "public") :=
  MemberArtifacts.decode_encode threeValues "public" (by decide) (by unfold Assigns; decide)

end RoundTrip

end CodableSynthesis
