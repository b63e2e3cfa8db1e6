import CodableSynthesis.Decimal.Shortest
import CodableSynthesis.Json.Failure
import CodableSynthesis.Step

/-!
Numbers of a JSON document. Up to 64 bits of digits are kept exactly; further digits only move the
decimal point. A number with a fraction, an exponent or too many digits is read as a floating-point
number: its kept digits, multiplied or divided by a power of ten.

The readers return what is left of the text beside the number. That it is shorter than what they
were given is shown once for each of them, in the section `Length`; the readers of containers
recurse on it.
-/

namespace CodableSynthesis.Json

/-- A number as it is read. -/
inductive Number where
  | integer (n : Int)
  | floating (x : Float)

namespace Number

/-- What number a reader found. -/
def found : Number → Found
  | .integer n => .integer n
  | .floating x => .floating (Decimal.text x)

/-- What keeping digits gives. -/
structure Kept where
  /-- The number they make up. -/
  value : Nat
  /-- How many they are. -/
  count : Nat
  rest : List Char

/-- Appends the digits a text begins with to the digits of a number as long as it stays below a
limit. -/
def keepDigits (limit value count : Nat) : List Char → Kept
  | [] => ⟨value, count, []⟩
  | c :: cs =>
    let longer := value * 10 + (c.toNat - '0'.toNat)
    if c.isDigit && longer < limit then keepDigits limit longer (count + 1) cs
    else ⟨value, count, c :: cs⟩

/-- A text without the digits it begins with. -/
def dropDigits (cs : List Char) : List Char :=
  cs.dropWhile Char.isDigit

/-- A power of ten. -/
def powerOfTen (n : Nat) : Float :=
  Float.ofScientific 1 false n

/-- The greatest power of ten that is a floating-point number. -/
def greatestPower : Nat := 308

/-- A number divided by a power of ten, in steps that are floating-point numbers themselves. -/
def divideByPower (x : Float) (n : Nat) : Float :=
  if n ≤ greatestPower then x / powerOfTen n
  else if x == 0 then x
  else divideByPower (x / powerOfTen greatestPower) (n - greatestPower)
termination_by n
decreasing_by simp [greatestPower] at *; omega

/-- `digits * 10 ^ exponent`, unless it is out of range. -/
def scaled? (digits : Nat) (exponent : Int) : Option Float :=
  let x := Float.ofNat digits
  if exponent < 0 then some (divideByPower x exponent.natAbs)
  else if greatestPower < exponent then if digits = 0 then some x else none
  else
    let y := x * powerOfTen exponent.toNat
    if y.isInf then none else some y

/-- A floating-point number with its sign. -/
def signed (negative : Bool) (x : Float) : Number :=
  .floating (if negative then -x else x)

/-- The number `digits * 10 ^ exponent` in front of `rest`. -/
def finish (negative : Bool) (digits : Nat) (exponent : Int) (rest : List Char) :
    Except Failure (Number × List Char) :=
  match scaled? digits exponent with
  | some x => .ok (signed negative x, rest)
  | none => .error (.here (.malformed .numberOutOfRange) rest)

/-- The bound of the digits of an exponent. -/
def exponentLimit : Nat := 0x80000000

/-- Reads the digits of an exponent, which is negative if it leads `down`. An exponent of too many
digits is out of range if it is positive, and gives zero if it is negative. -/
def readExponentDigits (negative : Bool) (digits : Nat) (exponent : Int) (down : Bool)
    (cs : List Char) : Except Failure (Number × List Char) :=
  match cs with
  | [] => .error (.ended .value)
  | c :: more =>
    if !c.isDigit then .error (.onNext (.malformed .invalidNumber) (c :: more))
    else
      let kept := keepDigits exponentLimit 0 0 (c :: more)
      let shift : Int := if down then -kept.value else kept.value
      match kept.rest with
      | [] => finish negative digits (exponent + shift) kept.rest
      | d :: tail =>
        if !d.isDigit then finish negative digits (exponent + shift) kept.rest
        else if digits ≠ 0 && !down then .error (.here (.malformed .numberOutOfRange) tail)
        else .ok (signed negative 0, dropDigits kept.rest)

/-- Reads what follows the letter of an exponent. -/
def readExponent (negative : Bool) (digits : Nat) (exponent : Int) (cs : List Char) :
    Except Failure (Number × List Char) :=
  match cs with
  | '-' :: rest => readExponentDigits negative digits exponent true rest
  | '+' :: rest => readExponentDigits negative digits exponent false rest
  | cs => readExponentDigits negative digits exponent false cs

/-- Reads the exponent that may follow, whose letter is `e`. -/
def readExponent? (negative : Bool) (digits : Nat) (exponent : Int) (cs : List Char) :
    Except Failure (Number × List Char) :=
  match cs with
  | 'e' :: rest => readExponent negative digits exponent rest
  | 'E' :: rest => readExponent negative digits exponent rest
  | cs => finish negative digits exponent cs

/-- The bound of the digits that are kept. -/
def digitsLimit : Nat := 0x10000000000000000

/-- Reads what follows the decimal point. -/
def readFraction (negative : Bool) (digits : Nat) (exponent : Int) (cs : List Char) :
    Except Failure (Number × List Char) :=
  match cs with
  | [] => .error (.ended .value)
  | c :: more =>
    if !c.isDigit then .error (.onNext (.malformed .invalidNumber) (c :: more))
    else
      let kept := keepDigits digitsLimit digits 0 (c :: more)
      readExponent? negative kept.value (exponent - kept.count) (dropDigits kept.rest)

/-- The greatest number that is an integer of 64 bits with a minus sign. -/
def negativeLimit : Nat := 0x8000000000000000

/-- An integer of 64 bits, or the floating-point number in its place. Zero with a sign is none. -/
def ofDigits (negative : Bool) (digits : Nat) : Number :=
  if !negative then .integer digits
  else if digits = 0 || negativeLimit < digits then signed true (Float.ofNat digits)
  else .integer (-digits)

/-- Reads what follows the whole digits, of which `dropped` were not kept. -/
def readTail (negative : Bool) (digits dropped : Nat) (cs : List Char) :
    Except Failure (Number × List Char) :=
  match cs with
  | '.' :: rest => readFraction negative digits dropped rest
  | 'e' :: rest => readExponent negative digits dropped rest
  | 'E' :: rest => readExponent negative digits dropped rest
  | cs => if dropped = 0 then .ok (ofDigits negative digits, cs)
    else finish negative digits dropped cs

/-- Reads a number from its first digit on. A zero is followed by no digit. -/
def readDigits (negative : Bool) (cs : List Char) : Except Failure (Number × List Char) :=
  match cs with
  | [] => .error (.ended .value)
  | '0' :: rest =>
    if (rest.head?.map Char.isDigit).getD false then
      .error (.onNext (.malformed .invalidNumber) rest)
    else readTail negative 0 0 rest
  | c :: more =>
    if !c.isDigit then .error (.onNext (.malformed .invalidNumber) (c :: more))
    else
      let kept := keepDigits digitsLimit (c.toNat - '0'.toNat) 0 more
      let dropped := (kept.rest.takeWhile Char.isDigit).length
      readTail negative kept.value dropped (dropDigits kept.rest)

theorem length_keepDigits (limit value count : Nat) (cs : List Char) :
    (keepDigits limit value count cs).rest.length ≤ cs.length := by
  fun_induction keepDigits limit value count cs <;> grind

theorem length_dropDigits (cs : List Char) : (dropDigits cs).length ≤ cs.length :=
  (List.dropWhile_sublist _).length_le

section Length

variable {negative : Bool} {digits dropped : Nat} {exponent : Int} {cs rest : List Char}
  {x : Number}

theorem length_finish (h : finish negative digits exponent cs = .ok (x, rest)) :
    rest.length ≤ cs.length := by
  grind [finish]

theorem length_readExponentDigits {down : Bool}
    (h : readExponentDigits negative digits exponent down cs = .ok (x, rest)) :
    rest.length ≤ cs.length := by
  unfold readExponentDigits at h
  split at h
  · simp at h
  · rename_i c more
    have := length_keepDigits exponentLimit 0 0 (c :: more)
    have := length_dropDigits (keepDigits exponentLimit 0 0 (c :: more)).rest
    split at h
    · simp at h
    · dsimp only at h
      split at h
      · have := length_finish h
        grind
      · split at h
        · have := length_finish h
          grind
        · grind

theorem length_readExponent (h : readExponent negative digits exponent cs = .ok (x, rest)) :
    rest.length ≤ cs.length := by
  unfold readExponent at h
  split at h <;> have := length_readExponentDigits h <;> grind

theorem length_readExponent? (h : readExponent? negative digits exponent cs = .ok (x, rest)) :
    rest.length ≤ cs.length := by
  unfold readExponent? at h
  split at h
  · have := length_readExponent h
    grind
  · have := length_readExponent h
    grind
  · exact length_finish h

theorem length_readFraction (h : readFraction negative digits exponent cs = .ok (x, rest)) :
    rest.length ≤ cs.length := by
  unfold readFraction at h
  split at h
  · simp at h
  · split at h
    · simp at h
    · exact Nat.le_trans (length_readExponent? h)
        (Nat.le_trans (length_dropDigits _) (length_keepDigits ..))

theorem length_readTail (h : readTail negative digits dropped cs = .ok (x, rest)) :
    rest.length ≤ cs.length := by
  unfold readTail at h
  split at h
  · have := length_readFraction h
    grind
  · have := length_readExponent h
    grind
  · have := length_readExponent h
    grind
  · split at h
    · grind
    · exact length_finish h

/-- A number has at least one digit. -/
theorem length_readDigits (h : readDigits negative cs = .ok (x, rest)) :
    rest.length < cs.length := by
  unfold readDigits at h
  split at h
  · simp at h
  · split at h
    · simp at h
    · have := length_readTail h
      grind
  · split at h
    · simp at h
    · exact Nat.lt_succ_of_le (Nat.le_trans (length_readTail h)
        (Nat.le_trans (length_dropDigits _) (length_keepDigits ..)))

end Length

/-- Reads a number whose sign, if it has one, was read already. -/
def read (negative : Bool) (cs : List Char) : Except Failure (Step Char Number cs.length) :=
  match h : readDigits negative cs with
  | .ok (x, rest) => .ok ⟨x, rest, length_readDigits h⟩
  | .error f => .error f

end Number

end CodableSynthesis.Json
