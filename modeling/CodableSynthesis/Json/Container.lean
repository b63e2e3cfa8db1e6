import CodableSynthesis.Json.Scalar

/-!
Arrays and objects of a JSON document, read item by item and member by member, so that what is wrong
with one is reported before anything behind it is looked at.

`readMembers` is parametrized by what a key may be and by what its value adds to a state. Settings
are read by it, from the defaults on.
-/

namespace CodableSynthesis.Json

/-- The rest of a text behind its blanks, begun with a character or at its end. -/
def behindBlanks (cs : List Char) : Step Char Unit (cs.length + 1) :=
  ⟨(), skipBlanks cs, Nat.lt_succ_of_le (length_skipBlanks cs)⟩

/-- Reads up to the next item of an array, or over the end of the array: whether there is an item. A
comma stands between two items. -/
def nextItem (first : Bool) (cs : List Char) : Except Failure (Step Char Bool (cs.length + 1)) :=
  match behindBlanks cs with
  | ⟨_, [], _⟩ => .error (.ended .list)
  | ⟨_, ']' :: rest, _⟩ => .ok ⟨false, rest, by simp only [List.length_cons] at *; omega⟩
  | ⟨_, c :: rest, _⟩ =>
    if first then .ok ⟨true, c :: rest, by omega⟩
    else if c = ',' then
      match behindBlanks rest with
      | ⟨_, [], _⟩ => .error (.ended .value)
      | ⟨_, ']' :: more, _⟩ => .error (.onNext (.malformed .trailingComma) (']' :: more))
      | ⟨_, d :: more, _⟩ => .ok ⟨true, d :: more, by simp only [List.length_cons] at *; omega⟩
    else .error (.onNext (.malformed .noCommaOrBracket) (c :: rest))

/-- Reads over the end of an array that may have no more items. -/
def endItems (cs : List Char) : Except Failure (Step Char Unit cs.length) :=
  match behindBlanks cs with
  | ⟨_, [], _⟩ => .error (.ended .list)
  | ⟨_, ']' :: rest, _⟩ => .ok ⟨(), rest, by simp only [List.length_cons] at *; omega⟩
  | ⟨_, ',' :: rest, _⟩ =>
    match skipBlanks rest with
    | ']' :: more => .error (.onNext (.malformed .trailingComma) (']' :: more))
    | other => .error (.onNext (.malformed .trailingCharacters) other)
  | ⟨_, c :: rest, _⟩ => .error (.onNext (.malformed .trailingCharacters) (c :: rest))

/-- Reads a key behind its opening quote. -/
def readKey {bound : Nat} (cs : List Char) (h : cs.length ≤ bound) :
    Except Failure (Step Char (Option String) bound) := do
  return ((← StringLiteral.read cs).map some).widen h

/-- Reads the next key of an object, or over the end of the object. A comma stands between two
members. -/
def nextKey (first : Bool) (cs : List Char) :
    Except Failure (Step Char (Option String) (cs.length + 1)) :=
  match behindBlanks cs with
  | ⟨_, [], _⟩ => .error (.ended .object)
  | ⟨_, '\x7d' :: rest, _⟩ => .ok ⟨none, rest, by simp only [List.length_cons] at *; omega⟩
  | ⟨_, c :: rest, _⟩ =>
    if first then
      if c = '"' then readKey rest (by simp only [List.length_cons] at *; omega)
      else .error (.onNext (.malformed .keyNotString) (c :: rest))
    else if c = ',' then
      match behindBlanks rest with
      | ⟨_, [], _⟩ => .error (.ended .value)
      | ⟨_, '"' :: more, _⟩ => readKey more (by simp only [List.length_cons] at *; omega)
      | ⟨_, '\x7d' :: more, _⟩ => .error (.onNext (.malformed .trailingComma) ('\x7d' :: more))
      | ⟨_, d :: more, _⟩ => .error (.onNext (.malformed .keyNotString) (d :: more))
    else .error (.onNext (.malformed .noCommaOrBrace) (c :: rest))

/-- Reads over the colon behind a key. -/
def readColon (cs : List Char) : Except Failure (Step Char Unit cs.length) :=
  match behindBlanks cs with
  | ⟨_, [], _⟩ => .error (.ended .object)
  | ⟨_, ':' :: rest, _⟩ => .ok ⟨(), rest, by simp only [List.length_cons] at *; omega⟩
  | ⟨_, c :: rest, _⟩ => .error (.onNext (.malformed .noColon) (c :: rest))

/-- What is left of an object where a key of it is refused: the reader goes on over blanks, and over
the end of the object if it comes next. -/
def behindRefusedKey (cs : List Char) : List Char :=
  match skipBlanks cs with
  | '\x7d' :: rest => rest
  | other => other

/-- Where the refusal of a key is reported: an unknown one at itself, any other at the object. -/
def Misfit.keyPath : Misfit → List Segment
  | .unknownField name _ => [.key name]
  | _ => []

/-- Reads the members of an object up to its end. A key is refused or accepted before its value is
read, and a value is read before the next key is. -/
def readMembers {α : Type} (accept : α → String → Except Misfit Unit)
    (member : α → String → (cs : List Char) → Except Failure (Step Char α cs.length))
    (first : Bool) (state : α) (cs : List Char) :
    Except Failure (Step Char α (cs.length + 1)) := do
  match ← (nextKey first cs).mapError (.within .unknown) with
  | ⟨none, rest, h⟩ => return ⟨state, rest, h⟩
  | ⟨some key, rest, _⟩ =>
    if let .error misfit := accept state key then
      throw ⟨misfit.keyPath, .misfit misfit, behindRefusedKey rest, 0⟩
    let ⟨_, value, _⟩ ← readColon rest
    let ⟨state', rest', _⟩ ← (member state key value).mapError (.within (.key key))
    return (← readMembers accept member false state' rest').widen (by omega)
termination_by cs.length
decreasing_by all_goals omega

end CodableSynthesis.Json
