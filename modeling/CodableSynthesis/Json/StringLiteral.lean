import CodableSynthesis.Json.Failure
import CodableSynthesis.Step

/-!
Strings of a JSON document. An escape of four hexadecimal digits gives a UTF-16 unit, so that a
character beyond the first plane is written as two of them; a unit of either half alone is refused.
-/

namespace CodableSynthesis.Json

namespace StringLiteral

/-- The value of a hexadecimal digit of either case. -/
def hexValue? (c : Char) : Option Nat :=
  if c.isDigit then some (c.toNat - '0'.toNat)
  else if 'a' ≤ c && c ≤ 'f' then some (c.toNat - 'a'.toNat + 10)
  else if 'A' ≤ c && c ≤ 'F' then some (c.toNat - 'A'.toNat + 10)
  else none

/-- The number that some hexadecimal digits make up. -/
def hexNumber? (cs : List Char) : Option Nat :=
  cs.foldl (fun n? c => do return (← n?) * 16 + (← hexValue? c)) (some 0)

/-- Reads four hexadecimal digits. Whether there is enough text for them is asked in bytes. -/
def readUnit (cs : List Char) : Except Failure (Step Char Nat cs.length) :=
  if Text.byteLength cs < 4 then .error (.ended .string)
  else
    match cs with
    | a :: b :: c :: d :: rest =>
      match hexNumber? [a, b, c, d] with
      | some unit => .ok ⟨unit, rest, by simp only [List.length_cons]; omega⟩
      | none => .error ⟨[], .malformed .invalidEscape, a :: b :: c :: d :: rest, 4⟩
    | _ => .error ⟨[], .malformed .invalidEscape, cs, 4⟩

/-- Whether a unit is the first of a pair. -/
def isLeading (unit : Nat) : Bool :=
  0xD800 ≤ unit && unit ≤ 0xDBFF

/-- Whether a unit is the second of a pair. -/
def isTrailing (unit : Nat) : Bool :=
  0xDC00 ≤ unit && unit ≤ 0xDFFF

/-- The character that a pair of units makes up. -/
def pairedChar (leading trailing : Nat) : Char :=
  Char.ofNat (0x10000 + (leading - 0xD800) * 0x400 + (trailing - 0xDC00))

/-- Reads the second unit of a pair, with the escape it is written as. -/
def readTrailing (leading : Nat) (cs : List Char) : Except Failure (Step Char Char cs.length) :=
  match cs with
  | [] => .error (.ended .string)
  | ['\\'] => .error (.ended .string)
  | '\\' :: 'u' :: rest => do
    let ⟨trailing, rest', _⟩ ← readUnit rest
    if isTrailing trailing then
      return ⟨pairedChar leading trailing, rest', by simp only [List.length_cons]; omega⟩
    else throw (.here (.malformed .loneSurrogate) rest')
  | '\\' :: rest => .error (.onNext (.malformed .halfSurrogatePair) rest)
  | cs => .error (.onNext (.malformed .halfSurrogatePair) cs)

/-- Reads the character whose units are written as escapes, behind the letter of the first. -/
def readUnits (cs : List Char) : Except Failure (Step Char Char cs.length) := do
  let ⟨unit, rest, _⟩ ← readUnit cs
  if isTrailing unit then throw (.here (.malformed .loneSurrogate) rest)
  else if isLeading unit then return (← readTrailing unit rest).widen (by omega)
  else return ⟨Char.ofNat unit, rest, by omega⟩

/-- Reads an escape behind its backslash. -/
def readEscape (cs : List Char) : Except Failure (Step Char Char cs.length) :=
  match cs with
  | [] => .error (.ended .string)
  | '"' :: rest => .ok (.past '"' rest)
  | '\\' :: rest => .ok (.past '\\' rest)
  | '/' :: rest => .ok (.past '/' rest)
  | 'b' :: rest => .ok (.past '\x08' rest)
  | 'f' :: rest => .ok (.past '\x0c' rest)
  | 'n' :: rest => .ok (.past '\n' rest)
  | 'r' :: rest => .ok (.past '\r' rest)
  | 't' :: rest => .ok (.past '\t' rest)
  | 'u' :: rest => do return (← readUnits rest).wider
  | cs => .error (.onNext (.malformed .invalidEscape) cs)

/-- Reads the characters of a string, and its closing quote. Control characters have to be
escaped. -/
def readChars (cs : List Char) : Except Failure (Step Char (List Char) cs.length) :=
  match cs with
  | [] => .error (.ended .string)
  | '"' :: rest => .ok (.past [] rest)
  | '\\' :: rest => do
    let ⟨c, rest', _⟩ ← readEscape rest
    let more ← readChars rest'
    return (more.map (c :: ·)).widen (by simp only [List.length_cons]; omega)
  | c :: rest =>
    if c.toNat < 0x20 then .error (.here (.malformed .controlCharacter) rest)
    else do
      let more ← readChars rest
      return (more.map (c :: ·)).wider
termination_by cs.length
decreasing_by all_goals simp only [List.length_cons]; omega

/-- Reads a string behind its opening quote. -/
def read (cs : List Char) : Except Failure (Step Char String cs.length) := do
  return (← readChars cs).map String.ofList

end StringLiteral

end CodableSynthesis.Json
