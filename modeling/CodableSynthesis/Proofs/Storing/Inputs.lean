import CodableSynthesis.Proofs.Storing.Deliveries

/-!
What inputs stand for, and what may be wrong with them. A run reads its settings and all its inputs
before it does anything, so whatever is wrong with any of them is found then; these are the terms in
which that is said, apart from the order in which a run goes about it.

* `Run.StandsFor`, `Run.Unresolved`: the paths of an input, or why there are none.
* `Run.Loads`, `Run.SettingsFault`: the settings, or why there are none.
* `Run.Fault`: what is wrong with some options.
* `Run.settings_eq_ok_iff`, `Run.settings_eq_error_iff`: which settings there are, or why none.
* `Run.InputFault.of_gather`, `Run.InputFault.gather`: sources cannot be gathered where an input has
  a fault, and then a fault of an input is told.
* `Run.Fault.of_expansions`, `Run.Fault.expansions`: likewise for expansions.

Patterns are matched and settings are decoded by a `Library`, which is a parameter of a run. Nothing
is assumed about it: whatever it makes of a pattern or a document, these statements hold. It may
also fail, in three ways: a pattern is invalid, an entry cannot be read, a document cannot be
decoded.

Which of several faults is told depends on the order of reading, and is left open. That one of them
is told, and that without any nothing fails, is what is proved.
-/

namespace CodableSynthesis.Run

variable {lib : Library} {t : FileTree} {o : InputOptions} {s : Settings} {inputs : List String}
variable {input path text : String} {e : Failure}

/-! ### Steps that may fail

When a sequence of steps succeeds, and when it fails. The first step that fails is the one that
counts. -/

section Steps

variable {α β ε : Type}

theorem bind_eq_ok_iff {x : Except ε α} {f : α → Except ε β} {b : β} :
    (x >>= f) = .ok b ↔ ∃ a, x = .ok a ∧ f a = .ok b := by
  cases x with
  | error e => exact ⟨nofun, fun ⟨_, h, _⟩ => nomatch h⟩
  | ok a =>
    constructor
    · intro done
      exact ⟨a, rfl, done⟩
    · rintro ⟨_, ⟨⟩, done⟩
      exact done

theorem bind_eq_error_iff {x : Except ε α} {f : α → Except ε β} {e : ε} :
    (x >>= f) = .error e ↔ x = .error e ∨ ∃ a, x = .ok a ∧ f a = .error e := by
  cases x with
  | error e' =>
    constructor
    · rintro ⟨⟩
      exact .inl rfl
    · rintro (⟨⟨⟩⟩ | ⟨_, ⟨⟩, _⟩)
      rfl
  | ok a =>
    constructor
    · intro failed
      exact .inr ⟨a, rfl, failed⟩
    · rintro (⟨⟨⟩⟩ | ⟨_, ⟨⟩, failed⟩)
      exact failed

theorem mapError_eq_ok_iff {x : Except ε α} {f : ε → Failure} {a : α} :
    x.mapError f = .ok a ↔ x = .ok a := by
  cases x with
  | error e => exact ⟨nofun, nofun⟩
  | ok a' => exact ⟨fun h => by cases h; rfl, fun h => by cases h; rfl⟩

theorem mapError_eq_error_iff {x : Except ε α} {f : ε → Failure} :
    x.mapError f = .error e ↔ ∃ fault, x = .error fault ∧ e = f fault := by
  cases x with
  | error fault =>
    constructor
    · rintro ⟨⟩
      exact ⟨fault, rfl, rfl⟩
    · rintro ⟨_, ⟨⟩, rfl⟩
      rfl
  | ok a => exact ⟨nofun, fun ⟨_, h, _⟩ => nomatch h⟩

/-- A function that may fail on a list fails as on a member. -/
theorem mapM_eq_error {f : α → Except ε β} {xs : List α} {e : ε}
    (failed : xs.mapM f = .error e) : ∃ x ∈ xs, f x = .error e := by
  induction xs with
  | nil => cases failed
  | cons x xs ih =>
    rw [List.mapM_cons] at failed
    rcases bind_eq_error_iff.mp failed with first | ⟨y, -, more⟩
    · exact ⟨x, List.mem_cons_self, first⟩
    · rcases bind_eq_error_iff.mp more with more | ⟨ys, -, done⟩
      · obtain ⟨x', mem, here⟩ := ih more
        exact ⟨x', List.mem_cons_of_mem x mem, here⟩
      · cases done

/-- Two lists related member by member: every member of either has one in the other. -/
theorem mem_of_forall₂ {R : α → β → Prop} {xs : List α} {ys : List β}
    (related : List.Forall₂ R xs ys) :
    (∀ x ∈ xs, ∃ y ∈ ys, R x y) ∧ ∀ y ∈ ys, ∃ x ∈ xs, R x y := by
  induction related with
  | nil => exact ⟨nofun, nofun⟩
  | cons first _ ih =>
    constructor
    · intro x mem
      rcases List.mem_cons.mp mem with rfl | mem
      · exact ⟨_, List.mem_cons_self, first⟩
      · obtain ⟨y, here, is⟩ := ih.1 x mem
        exact ⟨y, List.mem_cons_of_mem _ here, is⟩
    · intro y mem
      rcases List.mem_cons.mp mem with rfl | mem
      · exact ⟨_, List.mem_cons_self, first⟩
      · obtain ⟨x, here, is⟩ := ih.2 y mem
        exact ⟨x, List.mem_cons_of_mem _ here, is⟩

theorem mem_of_mapM {f : α → Except ε β} {xs : List α} {ys : List β}
    (mapped : xs.mapM f = .ok ys) :
    (∀ x ∈ xs, ∃ y ∈ ys, f x = .ok y) ∧ ∀ y ∈ ys, ∃ x ∈ xs, f x = .ok y :=
  mem_of_forall₂ (mapM_eq_ok_iff.mp mapped)

end Steps

/-! ### What inputs stand for -/

/-- The paths that an input stands for: a pattern for those that are told for it, any other input
for itself. -/
inductive StandsFor (lib : Library) (t : FileTree) : String → String → Prop
  /-- An input that is no pattern stands for itself. -/
  | path {input : String} : Glob.isPattern input.toList = false → StandsFor lib t input input
  /-- A pattern stands for what the library tells for it. -/
  | pattern {input path : String} {entries : List (Except Glob.EntryError String)} :
      Glob.isPattern input.toList = true → lib.glob t input = .ok entries → .ok path ∈ entries →
      StandsFor lib t input path

/-- Why an input stands for nothing: it is no valid pattern, one of the paths that it may stand for
cannot be told, the first of them counting, or nothing matches it. -/
inductive Unresolved (lib : Library) (t : FileTree) : String → Failure → Prop
  /-- The pattern is not a valid one. -/
  | invalid {input : String} {fault : Glob.PatternError} :
      Glob.isPattern input.toList = true → lib.glob t input = .error fault →
      Unresolved lib t input (.invalidPattern fault)
  /-- An entry cannot be read, and all in front of it can. -/
  | unreadable {input : String} {front : List String} {fault : Glob.EntryError}
      {back : List (Except Glob.EntryError String)} :
      Glob.isPattern input.toList = true →
      lib.glob t input = .ok (front.map .ok ++ .error fault :: back) →
      Unresolved lib t input (.unreadableEntry fault)
  /-- Nothing matches it. -/
  | unmatched {input : String} :
      Glob.isPattern input.toList = true → lib.glob t input = .ok [] →
      Unresolved lib t input (.unmatchedPattern input)

/-- The paths of some entries, as far as all can be told. -/
def told (entries : List (Except Glob.EntryError String)) : Except Failure (List String) :=
  entries.mapM (·.mapError .unreadableEntry)

theorem told_cons (first : Except Glob.EntryError String)
    (entries : List (Except Glob.EntryError String)) :
    told (first :: entries) = (do
      let path ← first.mapError .unreadableEntry
      let paths ← told entries
      return path :: paths) := by
  rw [told, List.mapM_cons]
  rfl

/-- All of them are told if each entry has one. -/
theorem told_eq_ok_iff {entries : List (Except Glob.EntryError String)} {paths : List String} :
    told entries = .ok paths ↔ entries = paths.map .ok := by
  induction entries generalizing paths with
  | nil =>
    constructor
    · rintro ⟨⟩
      rfl
    · intro none
      rw [List.map_eq_nil_iff.mp none.symm]
      rfl
  | cons first entries ih =>
    rw [told_cons]
    constructor
    · intro all
      obtain ⟨path, one, more⟩ := bind_eq_ok_iff.mp all
      obtain ⟨rest, others, done⟩ := bind_eq_ok_iff.mp more
      cases done
      rw [mapError_eq_ok_iff.mp one, ih.mp others]
      rfl
    · intro split
      cases paths with
      | nil => cases split
      | cons path rest =>
        obtain ⟨rfl, rfl⟩ := List.cons.inj split
        rw [ih.mpr rfl]
        rfl

/-- Of entries that cannot all be told the first such is what fails. -/
theorem told_eq_error_iff {entries : List (Except Glob.EntryError String)} :
    told entries = .error e ↔ ∃ (front : List String) (fault : Glob.EntryError)
      (back : List (Except Glob.EntryError String)),
      entries = front.map .ok ++ .error fault :: back ∧ e = .unreadableEntry fault := by
  induction entries with
  | nil =>
    constructor
    · intro failed
      cases failed
    · rintro ⟨front, _, _, split, -⟩
      cases front <;> cases split
  | cons first entries ih =>
    rw [told_cons, bind_eq_error_iff]
    constructor
    · rintro (here | ⟨path, one, more⟩)
      · obtain ⟨fault, rfl, rfl⟩ := mapError_eq_error_iff.mp here
        exact ⟨[], fault, entries, rfl, rfl⟩
      · rcases bind_eq_error_iff.mp more with later | ⟨_, -, done⟩
        · obtain ⟨front, fault, back, rfl, rfl⟩ := ih.mp later
          rw [mapError_eq_ok_iff.mp one]
          exact ⟨path :: front, fault, back, rfl, rfl⟩
        · cases done
    · rintro ⟨front, fault, back, split, rfl⟩
      cases front with
      | nil =>
        obtain ⟨rfl, rfl⟩ := List.cons.inj split
        exact .inl rfl
      | cons path front =>
        obtain ⟨rfl, rfl⟩ := List.cons.inj split
        refine .inr ⟨path, rfl, bind_eq_error_iff.mpr (.inl ?_)⟩
        exact ih.mpr ⟨front, fault, back, rfl, rfl⟩

/-- What is made of a pattern for which some paths are told: one at least is needed. -/
theorem resolve_of_isPattern (isPattern : Glob.isPattern input.toList = true) :
    resolve lib t input = (do
      let entries ← (lib.glob t input).mapError .invalidPattern
      let paths ← told entries
      if paths.isEmpty then .error (.unmatchedPattern input) else .ok paths) := by
  rw [resolve, if_pos isPattern]
  rfl

/-- An input that is no pattern is one path, whether something stands there or not. -/
theorem resolve_of_path (notPattern : Glob.isPattern input.toList = false) :
    resolve lib t input = .ok [input] := by
  rw [resolve, if_neg (by simp [notPattern])]

/-- An input cannot be resolved exactly for one of these reasons. -/
theorem resolve_eq_error_iff : resolve lib t input = .error e ↔ Unresolved lib t input e := by
  constructor
  · intro failed
    by_cases isPattern : Glob.isPattern input.toList = true
    · rw [resolve_of_isPattern isPattern] at failed
      rcases bind_eq_error_iff.mp failed with refused | ⟨entries, matched, later⟩
      · obtain ⟨fault, invalid, rfl⟩ := mapError_eq_error_iff.mp refused
        exact .invalid isPattern invalid
      · replace matched := mapError_eq_ok_iff.mp matched
        rcases bind_eq_error_iff.mp later with untold | ⟨paths, all, last⟩
        · obtain ⟨front, fault, back, rfl, rfl⟩ := told_eq_error_iff.mp untold
          exact .unreadable isPattern matched
        · rw [told_eq_ok_iff.mp all] at matched
          split at last
          · next none =>
            cases last
            rw [List.isEmpty_iff.mp none] at matched
            exact .unmatched isPattern matched
          · cases last
    · rw [resolve_of_path (by simpa using isPattern)] at failed
      cases failed
  · intro unresolved
    cases unresolved with
    | invalid isPattern invalid =>
      rw [resolve_of_isPattern isPattern, invalid]
      rfl
    | unreadable isPattern matched =>
      rw [resolve_of_isPattern isPattern, matched]
      apply bind_eq_error_iff.mpr
      refine .inr ⟨_, rfl, bind_eq_error_iff.mpr (.inl ?_)⟩
      exact told_eq_error_iff.mpr ⟨_, _, _, rfl, rfl⟩
    | unmatched isPattern none =>
      rw [resolve_of_isPattern isPattern, none]
      rfl

theorem mem_resolve_iff {paths : List String} (resolved : resolve lib t input = .ok paths) :
    path ∈ paths ↔ StandsFor lib t input path := by
  by_cases isPattern : Glob.isPattern input.toList = true
  · rw [resolve_of_isPattern isPattern] at resolved
    obtain ⟨entries, matched, later⟩ := bind_eq_ok_iff.mp resolved
    obtain ⟨paths', all, last⟩ := bind_eq_ok_iff.mp later
    replace matched := mapError_eq_ok_iff.mp matched
    rw [told_eq_ok_iff.mp all] at matched
    obtain rfl : paths' = paths := by
      split at last <;> cases last
      rfl
    constructor
    · intro mem
      exact .pattern isPattern matched (List.mem_map_of_mem mem)
    · intro stands
      cases stands with
      | path notPattern =>
        rw [isPattern] at notPattern
        cases notPattern
      | pattern _ matched' mem =>
        rw [matched] at matched'
        cases matched'
        obtain ⟨_, mem, ⟨⟩⟩ := List.mem_map.mp mem
        exact mem
  · rw [Bool.not_eq_true] at isPattern
    rw [resolve_of_path isPattern] at resolved
    cases resolved
    constructor
    · intro mem
      rw [List.mem_singleton.mp mem]
      exact .path isPattern
    · intro stands
      cases stands with
      | path => exact List.mem_singleton_self _
      | pattern isPattern' =>
        rw [isPattern] at isPattern'
        cases isPattern'

theorem mem_flatten_iff {paths : List (List String)}
    (resolved : inputs.mapM (resolve lib t) = .ok paths) :
    path ∈ paths.flatten ↔ ∃ input ∈ inputs, StandsFor lib t input path := by
  have related := mem_of_mapM resolved
  rw [List.mem_flatten]
  constructor
  · rintro ⟨some_, mem, here⟩
    obtain ⟨input, from_, done⟩ := related.2 some_ mem
    exact ⟨input, from_, (mem_resolve_iff done).mp here⟩
  · rintro ⟨input, mem, stands⟩
    obtain ⟨some_, there, done⟩ := related.1 input mem
    exact ⟨some_, there, (mem_resolve_iff done).mpr stands⟩

/-! ### Settings -/

/-- The settings of some options: those of the settings file, or else the usual ones, with the
indentation width asked for. -/
inductive Loads (lib : Library) (t : FileTree) (o : InputOptions) : Settings → Prop
  /-- Without a settings file, the usual settings. -/
  | usual : o.config? = none →
      Loads lib t o { indentWidth := o.indentWidth?.getD Writer.defaultIndentWidth }
  /-- Those of the settings file. An indentation width that is asked for takes the place of its
  own. -/
  | file {path document : String} {read : Settings} : o.config? = some path →
      t.readText path = .ok document → lib.decode document = .ok read →
      Loads lib t o { read with indentWidth := o.indentWidth?.getD read.indentWidth }

/-- Why some options have no settings: their file is no text, or not one of settings. -/
inductive SettingsFault (lib : Library) (t : FileTree) (o : InputOptions) : Failure → Prop
  /-- The file cannot be read as a text. -/
  | unreadable {path : String} {fault : FileError} :
      o.config? = some path → t.readText path = .error fault →
      SettingsFault lib t o (.unreadable path fault)
  /-- Its text cannot be decoded. -/
  | invalid {path document : String} {fault : Json.Error} :
      o.config? = some path → t.readText path = .ok document →
      lib.decode document = .error fault → SettingsFault lib t o (.invalidSettings path fault)

theorem settings_of_usual (none : o.config? = none) :
    settings lib t o
      = .ok { indentWidth := o.indentWidth?.getD Writer.defaultIndentWidth } := by
  rw [settings, none]
  cases o.indentWidth? <;> rfl

theorem settings_of_file (file : o.config? = some path) :
    settings lib t o = (do
      let read ← readSettings lib t path
      return { read with indentWidth := o.indentWidth?.getD read.indentWidth }) := by
  rw [settings, file]
  dsimp only
  cases readSettings lib t path with
  | error fault => rfl
  | ok read => cases o.indentWidth? <;> rfl

theorem settings_eq_ok_iff : settings lib t o = .ok s ↔ Loads lib t o s := by
  constructor
  · intro loaded
    cases file : o.config? with
    | none =>
      rw [settings_of_usual file] at loaded
      cases loaded
      exact .usual file
    | some path =>
      rw [settings_of_file file] at loaded
      obtain ⟨read, found, done⟩ := bind_eq_ok_iff.mp loaded
      obtain ⟨document, stands, decoded⟩ := bind_eq_ok_iff.mp found
      cases done
      exact .file file (mapError_eq_ok_iff.mp stands) (mapError_eq_ok_iff.mp decoded)
  · intro loads
    cases loads with
    | usual none => exact settings_of_usual none
    | @file path document read file stands decoded =>
      have found : readSettings lib t path = .ok read :=
        bind_eq_ok_iff.mpr
          ⟨document, mapError_eq_ok_iff.mpr stands, mapError_eq_ok_iff.mpr decoded⟩
      rw [settings_of_file file, found]
      rfl

theorem settings_eq_error_iff : settings lib t o = .error e ↔ SettingsFault lib t o e := by
  constructor
  · intro failed
    cases file : o.config? with
    | none =>
      rw [settings_of_usual file] at failed
      cases failed
    | some path =>
      rw [settings_of_file file] at failed
      rcases bind_eq_error_iff.mp failed with missed | ⟨read, -, done⟩
      · rcases bind_eq_error_iff.mp missed with refused | ⟨document, stands, refused⟩
        · obtain ⟨fault, unread, rfl⟩ := mapError_eq_error_iff.mp refused
          exact .unreadable file unread
        · obtain ⟨fault, undecoded, rfl⟩ := mapError_eq_error_iff.mp refused
          exact .invalid file (mapError_eq_ok_iff.mp stands) undecoded
      · cases done
  · intro fault
    cases fault with
    | @unreadable path fault file unread =>
      have missed : readSettings lib t path = .error (.unreadable path fault) :=
        bind_eq_error_iff.mpr (.inl (mapError_eq_error_iff.mpr ⟨fault, unread, rfl⟩))
      rw [settings_of_file file, missed]
      rfl
    | @invalid path document fault file stands undecoded =>
      have missed : readSettings lib t path = .error (.invalidSettings path fault) :=
        bind_eq_error_iff.mpr (.inr ⟨document, mapError_eq_ok_iff.mpr stands,
          mapError_eq_error_iff.mpr ⟨fault, undecoded, rfl⟩⟩)
      rw [settings_of_file file, missed]
      rfl

/-! ### Sources

What is made of a source differs from command to command, but fails in one way: where the text
cannot be parsed. `gather` is what they have in common. -/

/-- Why there is no source at a path: what stands there is no text, or one that cannot be parsed. A
path at which nothing stands cannot be read, either. -/
inductive SourceFault (t : FileTree) (path : String) : Failure → Prop
  /-- What stands there cannot be read as a text. -/
  | unreadable {fault : FileError} : t.readText path = .error fault →
      SourceFault t path (.unreadable path fault)
  /-- The text there cannot be parsed. -/
  | unparsable {text : String} {fault : SourceError} : t.readText path = .ok text →
      CodableSynthesis.readSource text = .error fault → SourceFault t path (.unparsable path fault)

/-- What is wrong with some inputs: one of them stands for nothing, or for a path that has no
source. -/
inductive InputFault (lib : Library) (t : FileTree) (inputs : List String) : Failure → Prop
  /-- An input stands for nothing. -/
  | unresolved {input : String} {e : Failure} : input ∈ inputs → Unresolved lib t input e →
      InputFault lib t inputs e
  /-- An input stands for a path without a source. -/
  | source {input path : String} {e : Failure} : input ∈ inputs → StandsFor lib t input path →
      SourceFault t path e → InputFault lib t inputs e

/-- What is wrong with some options: their settings, or their inputs. Several things may be wrong at
once. -/
inductive Fault (lib : Library) (t : FileTree) (o : InputOptions) : Failure → Prop
  | settings {e : Failure} : SettingsFault lib t o e → Fault lib t o e
  | input {e : Failure} : InputFault lib t o.inputs e → Fault lib t o e

theorem readSource_eq_error_iff : readSource t path = .error e ↔
    ∃ fault, t.readText path = .error fault ∧ e = .unreadable path fault := by
  rw [readSource, bind_eq_error_iff, readFile, mapError_eq_error_iff]
  constructor
  · rintro (unread | ⟨text, -, done⟩)
    · exact unread
    · cases done
  · exact .inl

/-- Reads what inputs stand for, and makes something of each source. -/
def gather {β : Type} (lib : Library) (t : FileTree) (inputs : List String)
    (f : Source → Except Failure β) : Except Failure (List β) := do
  (← sources lib t inputs).mapM f

/-- A function of sources fails where a source cannot be parsed, and nowhere else. -/
def FailsAsParsing {β : Type} (f : Source → Except Failure β) : Prop :=
  ∀ source e, f source = .error e ↔
    ∃ fault, CodableSynthesis.readSource source.text = .error fault ∧
      e = .unparsable source.path fault

section Gathering

variable {β : Type} {f : Source → Except Failure β}

/-- If sources cannot be gathered, an input has a fault, and it is the one that is told. -/
theorem InputFault.of_gather (fails : FailsAsParsing f)
    (failed : gather lib t inputs f = .error e) :
    InputFault lib t inputs e := by
  rcases bind_eq_error_iff.mp failed with none | ⟨read, found, failed⟩
  · rcases bind_eq_error_iff.mp none with refused | ⟨paths, resolved, refused⟩
    · obtain ⟨input, mem, here⟩ := mapM_eq_error refused
      exact .unresolved mem (resolve_eq_error_iff.mp here)
    · obtain ⟨path, mem, here⟩ := mapM_eq_error refused
      obtain ⟨input, from_, stands⟩ := (mem_flatten_iff resolved).mp mem
      obtain ⟨fault, unread, rfl⟩ := readSource_eq_error_iff.mp here
      exact .source from_ stands (.unreadable unread)
  · obtain ⟨paths, resolved, reads⟩ := bind_eq_ok_iff.mp found
    obtain ⟨source, there, here⟩ := mapM_eq_error failed
    obtain ⟨path, mem, one⟩ := (mem_of_mapM reads).2 source there
    obtain ⟨input, from_, stands⟩ := (mem_flatten_iff resolved).mp mem
    obtain ⟨same, text⟩ := readSource_eq_ok_iff.mp one
    obtain ⟨fault, unparsed, rfl⟩ := (fails source e).mp here
    rw [same]
    exact .source from_ stands (.unparsable text unparsed)

/-- If an input has a fault, sources cannot be gathered. -/
theorem InputFault.gather (fails : FailsAsParsing f) (fault : InputFault lib t inputs e) :
    ∃ e', Run.gather lib t inputs f = .error e' := by
  cases gathered : Run.gather lib t inputs f with
  | error e' => exact ⟨e', rfl⟩
  | ok made =>
    exfalso
    obtain ⟨read, found, makes⟩ := bind_eq_ok_iff.mp gathered
    obtain ⟨paths, resolved, reads⟩ := bind_eq_ok_iff.mp found
    cases fault with
    | unresolved mem unresolved =>
      obtain ⟨_, -, done⟩ := (mem_of_mapM resolved).1 _ mem
      rw [resolve_eq_error_iff.mpr unresolved] at done
      cases done
    | source mem stands bad =>
      have there := (mem_flatten_iff resolved).mpr ⟨_, mem, stands⟩
      obtain ⟨source, from_, one⟩ := (mem_of_mapM reads).1 _ there
      obtain ⟨same, text⟩ := readSource_eq_ok_iff.mp one
      cases bad with
      | unreadable unread =>
        rw [text] at unread
        cases unread
      | unparsable text' unparsed =>
        rw [text] at text'
        cases text'
        obtain ⟨y, -, made⟩ := (mem_of_mapM makes).1 source from_
        rw [(fails source _).mpr ⟨_, unparsed, rfl⟩] at made
        cases made

end Gathering

/-! ### Expansions -/

theorem expandSource_eq_error_iff {width : Nat} {fault : SourceError} :
    expandSource text width = .error fault ↔
      CodableSynthesis.readSource text = .error fault := by
  rw [expandSource, bind_eq_error_iff]
  constructor
  · rintro (failed | ⟨declarations, -, done⟩)
    · exact failed
    · cases done
  · exact .inl

theorem expandOne_failsAsParsing : FailsAsParsing (expandOne s) := by
  intro source e
  rw [expandOne]
  constructor
  · intro failed
    split at failed
    · cases failed
    · next fault unexpanded =>
      cases failed
      exact ⟨fault, expandSource_eq_error_iff.mp unexpanded, rfl⟩
  · rintro ⟨fault, unparsed, rfl⟩
    rw [expandSource_eq_error_iff.mpr unparsed]

/-- A run loads its settings and gathers the expansions of its sources. -/
theorem expansions_eq : expansions lib t o = (do
    let s ← settings lib t o
    let es ← gather lib t o.inputs (expandOne s)
    return (s, es)) := by
  simp only [expansions, gather, bind_assoc]

/-- Options that cannot be expanded have a fault, and that is told. -/
theorem Fault.of_expansions (failed : expansions lib t o = .error e) : Fault lib t o e := by
  rw [expansions_eq] at failed
  rcases bind_eq_error_iff.mp failed with unloaded | ⟨s, -, failed⟩
  · exact .settings (settings_eq_error_iff.mp unloaded)
  · rcases bind_eq_error_iff.mp failed with ungathered | ⟨es, -, done⟩
    · exact .input (.of_gather expandOne_failsAsParsing ungathered)
    · cases done

/-- Options with a fault cannot be expanded. -/
theorem Fault.expansions (fault : Fault lib t o e) : ∃ e', Run.expansions lib t o = .error e' := by
  rw [expansions_eq]
  cases loaded : Run.settings lib t o with
  | error e' => exact ⟨e', rfl⟩
  | ok s =>
    cases fault with
    | settings unloaded =>
      rw [settings_eq_error_iff.mpr unloaded] at loaded
      cases loaded
    | input bad =>
      obtain ⟨e', failed⟩ := bad.gather (f := expandOne s) expandOne_failsAsParsing
      exact ⟨e', bind_eq_error_iff.mpr (.inr ⟨s, rfl, bind_eq_error_iff.mpr (.inl failed)⟩)⟩

end CodableSynthesis.Run
