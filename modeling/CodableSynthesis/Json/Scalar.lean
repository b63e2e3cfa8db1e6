import CodableSynthesis.Json.Number
import CodableSynthesis.Json.StringLiteral

/-!
Scalar values of a JSON document. A scalar of the wrong type is read to its end before it is
refused, so what is wrong within it is reported first; an array or an object is refused at its
bracket.
-/

namespace CodableSynthesis.Json

/-- Whether a character stands between values without meaning. -/
def isBlank (c : Char) : Bool :=
  c == ' ' || c == '\n' || c == '\t' || c == '\r'

/-- A text without the blanks it begins with. -/
def skipBlanks (cs : List Char) : List Char :=
  cs.dropWhile isBlank

theorem length_skipBlanks (cs : List Char) : (skipBlanks cs).length ≤ cs.length :=
  (List.dropWhile_sublist _).length_le

/-- Reads the letters of an identifier that has to go on in one way. -/
def readLetters : List Char → List Char → Except Failure (List Char)
  | [], cs => .ok cs
  | _ :: _, [] => .error (.ended .value)
  | l :: ls, c :: cs =>
    if l = c then readLetters ls cs else .error (.onNext (.malformed .noIdentifier) (c :: cs))

/-- What value a text begins with, and what follows it; a container is not read. This serves
messages alone: a value that is wanted is read by its own reader. -/
def identify (cs : List Char) : Except Failure (Found × List Char) :=
  match cs with
  | [] => .error (.ended .value)
  | 'n' :: rest => do return (.null, ← readLetters "ull".toList rest)
  | 't' :: rest => do return (.boolean true, ← readLetters "rue".toList rest)
  | 'f' :: rest => do return (.boolean false, ← readLetters "alse".toList rest)
  | '"' :: rest => do
    let s ← StringLiteral.read rest
    return (.string s.value, s.rest)
  | '[' :: _ => .ok (.sequence, cs)
  | '\x7b' :: _ => .ok (.map, cs)
  | '-' :: rest => do
    let x ← Number.read true rest
    return (x.value.found, x.rest)
  | c :: _ =>
    if c.isDigit then do
      let x ← Number.read false cs
      return (x.value.found, x.rest)
    else .error (.onNext (.malformed .noValue) cs)

/-- The failure of a text to begin with what is wanted. If what it begins with is itself faulty,
that is the failure. -/
def refusal (wanted : Wanted) (cs : List Char) : Failure :=
  match identify cs with
  | .ok (found, rest) => .here (.misfit (.type found wanted)) rest
  | .error f => f

/-- A number as a count, which is not negative. -/
def countOf {bound : Nat} (x : Step Char Number bound) :
    Except Failure (Step Char Nat bound) :=
  match x.value with
  | .integer n =>
    if n < 0 then .error (.here (.misfit (.value (.integer n) .count)) x.rest)
    else .ok (x.map fun _ => n.toNat)
  | .floating y => .error (.here (.misfit (.type (.floating (Decimal.text y)) .count)) x.rest)

/-- Reads a count. -/
def readCount (cs : List Char) : Except Failure (Step Char Nat cs.length) :=
  have hb := length_skipBlanks cs
  match h : skipBlanks cs with
  | '-' :: rest => do
    return (← countOf (← Number.read true rest)).widen
      (by simp only [h, List.length_cons] at hb; omega)
  | c :: rest =>
    if c.isDigit then do
      return (← countOf (← Number.read false (c :: rest))).widen (by rwa [h] at hb)
    else .error (refusal .count (c :: rest))
  | [] => .error (.ended .value)

/-- Reads a string. -/
def readString (cs : List Char) : Except Failure (Step Char String cs.length) :=
  have hb := length_skipBlanks cs
  match h : skipBlanks cs with
  | '"' :: rest => do
    return (← StringLiteral.read rest).widen
      (by simp only [h, List.length_cons] at hb; omega)
  | other => .error (refusal .string other)

end CodableSynthesis.Json
