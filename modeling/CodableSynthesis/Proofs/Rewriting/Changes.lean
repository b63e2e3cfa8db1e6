import CodableSynthesis.Proofs.Edits.Announced
import CodableSynthesis.Proofs.Layout.Placed
import CodableSynthesis.Proofs.Lexing.Words

/-!
What an expansion is to do to the tokens of a source text, told without its characters: the tokens
of some attributes are dropped, and the tokens of generated texts are put in front of or behind
closing braces.

* `Change`: one such change, and `Change.edit`: the edit that makes it.
* `Declaration.allChanges`: the changes for a declaration at the top of a file.
* `Change.applyAll`: the tokens of a source text after some changes.
* `Change.Fuses`: two names between which everything is taken out.
* `Declaration.map_edit_allChanges`: the changes are made by the edits of the expansion.

An expansion works on characters. Its promise is about tokens: those of the attributes are gone,
those that are announced are there, and no other token is touched. `Change.applyAll` is that promise
as a function on lists of tokens, and the modules of this directory compare it with what the lexer
gives for the output.

Two names are fused if every byte between them lies in some attribute that is taken out, or in the
white space that is taken out with it. The definition speaks of bytes since attributes may follow
one another, and is decidable, so that it can be tested on a source.
-/

namespace CodableSynthesis

open Text (byteLength)

/-- The tokens of a text on its own, by kind and text. -/
def words (text : String) : List Word :=
  match tokenize text with
  | .ok ts => ts.map Token.word
  | .error _ => []

/-- A name that is written without backticks. Only such a name goes on with what stands directly
behind it. -/
def Token.IsPlainName (t : Token) : Prop :=
  t.kind = .ident ∧ t.chars.head? ≠ some '`'

instance (t : Token) : Decidable t.IsPlainName :=
  inferInstanceAs (Decidable (_ ∧ _))

/-- One change to the tokens of a source text. -/
inductive Change where
  /-- The tokens of an attribute are dropped. -/
  | drop (a : Attribute)
  /-- Generated members are put in front of the closing brace of a class. -/
  | fill (d : Declaration) (members : List String)
  /-- Extensions are put behind the closing brace of a declaration. -/
  | follow (d : Declaration) (extensions : List String)

namespace Change

/-- The edit that makes a change. -/
def edit (source : List Char) (indentWidth : Nat) : Change → Edit
  | drop a => .removal source a.span
  | fill d members => .insertion source indentWidth d members
  | follow d extensions => .extension d extensions

/-- Whether a token is dropped: it lies within the attribute. -/
def drops (t : Token) : Change → Bool
  | drop a => a.first.start ≤ t.span.start && t.span.stop ≤ a.last.stop
  | fill .. | follow .. => false

/-- The tokens put in front of a token: the members, if it is the closing brace of the class. -/
def before (t : Token) : Change → List Word
  | fill d members => if d.closer = t.span then members.flatMap words else []
  | drop _ | follow .. => []

/-- The tokens put behind a token: the extensions, if it is the closing brace of the declaration. -/
def behind (t : Token) : Change → List Word
  | follow d extensions => if d.closer = t.span then extensions.flatMap words else []
  | drop _ | fill .. => []

/-- What a token becomes: itself unless it is dropped, with what is put in front of it and behind
it. -/
def apply (changes : List Change) (t : Token) : List Word :=
  changes.flatMap (before t) ++ (if changes.any (drops t) then [] else [t.word]) ++
    changes.flatMap (behind t)

/-- The tokens of a source text after some changes: the source is gone through token by token, and
every change is asked about each. -/
def applyAll (changes : List Change) (ts : List Token) : List Word :=
  ts.flatMap (apply changes)

/-- Each byte from `lo` up to `hi` is taken out with some attribute that is dropped. The edit is
meant, which reaches over the white space behind the attribute. -/
def Covered (source : List Char) (changes : List Change) (lo hi : Nat) : Prop :=
  ∀ i, lo ≤ i → i < hi → ∃ a, drop a ∈ changes ∧
    (Edit.removal source a.span).start ≤ i ∧ i < (Edit.removal source a.span).stop

/-- A name without backticks that is not dropped. -/
def KeptName (changes : List Change) (t : Token) : Prop :=
  t.IsPlainName ∧ changes.any (drops t) = false

/-- Of two names that are kept, the second stands behind the first, and everything between them is
taken out. Several attributes may stand between them. -/
def Fused (source : List Char) (changes : List Change) (t u : Token) : Prop :=
  KeptName changes t ∧ KeptName changes u ∧ t.span.start < u.span.start ∧
    Covered source changes t.span.stop u.span.start

/-- Some two names are left without anything between them. They become one name in the output, which
is the only way in which a token of the source is altered. -/
def Fuses (source : List Char) (changes : List Change) (ts : List Token) : Prop :=
  ∃ t ∈ ts, ∃ u ∈ ts, Fused source changes t u

/-! Whether names are fused can be computed. -/

section

variable {source : List Char} {changes : List Change} {lo hi : Nat}

/-- Whether a byte is taken out with an attribute. -/
def takes (source : List Char) (i : Nat) : Change → Bool
  | drop a => (Edit.removal source a.span).start ≤ i && i < (Edit.removal source a.span).stop
  | fill .. | follow .. => false

/-- Whether bytes are covered is told byte by byte. -/
theorem covered_iff : Covered source changes lo hi ↔
    ∀ i, lo ≤ i → i < hi → changes.any (takes source i) = true := by
  refine forall_congr' fun i => imp_congr_right fun _ => imp_congr_right fun _ => ?_
  rw [List.any_eq_true]
  constructor
  · rintro ⟨a, mem, inside⟩
    exact ⟨_, mem, by simpa [takes] using inside⟩
  · rintro ⟨_ | _ | _, mem, inside⟩
    · exact ⟨_, mem, by simpa [takes] using inside⟩
    · cases inside
    · cases inside

instance : Decidable (Covered source changes lo hi) :=
  decidable_of_iff _ covered_iff.symm

instance (t : Token) : Decidable (KeptName changes t) :=
  inferInstanceAs (Decidable (_ ∧ _))

instance (ts : List Token) : Decidable (Fuses source changes ts) :=
  inferInstanceAs (Decidable (∃ t ∈ ts, ∃ u ∈ ts, _ ∧ _ ∧ _ ∧ _))

end

end Change

namespace Declaration

/-- The members that are put into a class of its own. -/
def ownFill (w : Writer) (name : String) (d : Declaration) : List Change :=
  if d.isAnnotated && d.heading.kind = .classType then [.fill d (d.generatedMembers w name)] else []

mutual

/-- The changes within a declaration named `name`, in the order of the text: its attributes that are
expanded, the types nested in it, and its own generated members. -/
def changes (w : Writer) (name : String) : Declaration → List Change
  | ⟨heading, members, opener, closer⟩ =>
    let d : Declaration := ⟨heading, members, opener, closer⟩
    d.registered.map .drop ++ (changesIn w name members ++ d.ownFill w name)

/-- The changes within the members of a type named `name`. -/
def changesIn (w : Writer) (name : String) : List Member → List Change
  | [] => []
  | .type d :: members =>
    changes w (name ++ "." ++ d.heading.name) d ++ changesIn w name members
  | .variable _ :: members => changesIn w name members
  | .other .. :: members => changesIn w name members

end

/-- The extensions of the classes in a declaration at the top of a file, outer before inner. -/
def ownFollow (w : Writer) (d : Declaration) : List Change :=
  if d.annotated.any (fun (_, a) => a.heading.kind = .classType) then
    [.follow d (d.annotated.flatMap fun (name, a) => a.generatedExtensions w name)]
  else []

/-- The changes for a declaration at the top of a file, in the order of the text. The extensions
stand behind all else, as they do in the output. -/
def allChanges (w : Writer) (d : Declaration) : List Change :=
  d.changes w d.heading.name ++ d.ownFollow w

/-! ### The edits that make them -/

variable {source : List Char} {w : Writer} {name : String}

theorem map_edit_ownFill (d : Declaration) :
    (d.ownFill w name).map (Change.edit source w.indentWidth) =
      if (d.expand w name).members.isEmpty then []
      else [Edit.insertion source w.indentWidth d (d.expand w name).members] := by
  rw [expand_members, generatedMembers_isEmpty, ownFill]
  cases d.isAnnotated && decide (d.heading.kind = .classType) <;> rfl

mutual

theorem map_edit_changes (name : String) : ∀ d : Declaration,
    (d.changes w name).map (Change.edit source w.indentWidth) = d.edits source w name
  | ⟨heading, members, opener, closer⟩ => by
    rw [changes, edits, List.map_append, List.map_append, map_edit_changesIn name members,
      map_edit_ownFill, expand_attributes, List.map_map, List.map_map, List.append_assoc]
    rfl

theorem map_edit_changesIn (name : String) : ∀ ms : List Member,
    (changesIn w name ms).map (Change.edit source w.indentWidth) = editsIn source w name ms
  | [] => rfl
  | .type d :: ms => by
    rw [changesIn, editsIn, List.map_append, map_edit_changes _ d, map_edit_changesIn name ms]
  | .variable _ :: ms | .other .. :: ms => by
    rw [changesIn, editsIn]
    exact map_edit_changesIn name ms

end

/-- The changes are made by the edits. -/
theorem map_edit_allChanges (d : Declaration) :
    (d.allChanges w).map (Change.edit source w.indentWidth) = d.allEdits source w := by
  rw [allChanges, allEdits, allExtensions, extensions_isEmpty, List.map_append, map_edit_changes,
    ownFollow]
  cases d.annotated.any _ <;> rfl

end Declaration

end CodableSynthesis
