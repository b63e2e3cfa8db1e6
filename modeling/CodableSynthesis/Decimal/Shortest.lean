/-!
The shortest decimal text of a binary floating-point number: the fewest digits that read back as the
same number, and of those the nearest.

The numbers that read back as `m * 2 ^ q` lie between the middles to its neighbours. Both the
interval and the multiples of a power of ten become whole numbers when they are multiplied by a
common factor, and all comparisons here are made among those, so that nothing is rounded on the way.
The search begins at a grid that is coarser than any number and goes down to the first that has a
multiple in the interval.

A message about a settings file shows a number in this form where a count was wanted.
-/

namespace CodableSynthesis.Decimal

/-- A positive number of the form `significand * 2 ^ exponent`. -/
structure Binary where
  significand : Nat
  exponent : Int
  deriving DecidableEq, Repr

namespace Binary

/-- The weight of the first bit of a significand, which is not written. -/
def hiddenBit : Nat := 0x10000000000000

/-- How many values the field of the exponent has. -/
def fieldSize : Nat := 0x800

/-- The weight of the bit for the sign. -/
def signBit : Nat := 0x8000000000000000

/-- The exponent of the smallest numbers. -/
def leastExponent : Int := -1074

/-- The number whose bits, the sign apart, are given; the bits of zero give none. -/
def ofBits? (bits : Nat) : Option Binary :=
  let fraction : Nat := bits % hiddenBit
  let field : Nat := bits / hiddenBit % fieldSize
  if field = 0 then
    if fraction = 0 then none else some ⟨fraction, leastExponent⟩
  else some ⟨hiddenBit + fraction, leastExponent + (field - 1)⟩

/-- The number in quarters of its last place. -/
def quarters (b : Binary) : Nat :=
  4 * b.significand

/-- The least number that reads back, in quarters of the last place: halfway to the next number
below, which is nearer if it has a smaller exponent. -/
def lowest (b : Binary) : Nat :=
  if b.significand = hiddenBit ∧ leastExponent < b.exponent then b.quarters - 1
  else b.quarters - 2

/-- The greatest number that reads back, in quarters of the last place. -/
def highest (b : Binary) : Nat :=
  b.quarters + 2

end Binary

/-- A number of the form `digits * 10 ^ exponent`. -/
structure Digits where
  digits : Nat
  exponent : Int
  deriving DecidableEq, Repr

/-- What a number of quarters is multiplied by to compare it with multiples of `10 ^ k`. -/
def quarterScale (b : Binary) (k : Int) : Nat :=
  Nat.pow 2 (b.exponent - 2).toNat * Nat.pow 10 (-k).toNat

/-- What a multiple of `10 ^ k` is multiplied by to compare it with quarters. -/
def gridScale (b : Binary) (k : Int) : Nat :=
  Nat.pow 2 (2 - b.exponent).toNat * Nat.pow 10 k.toNat

/-- Whether `t * 10 ^ k` reads back as a number. The ends of the interval do exactly if the
significand is even, since reading rounds a middle to the even neighbour. -/
def readsBack (b : Binary) (t : Nat) (k : Int) : Bool :=
  let low := b.lowest * quarterScale b k
  let high := b.highest * quarterScale b k
  let x := t * gridScale b k
  if b.significand % 2 = 0 then low ≤ x && x ≤ high else low < x && x < high

/-- The multiple of `10 ^ k` nearest to a number of those that read back. Only the two multiples
around the number need to be looked at. -/
def nearest? (b : Binary) (k : Int) : Option Nat :=
  let x := b.quarters * quarterScale b k
  let t := x / gridScale b k
  let middle := (2 * t + 1) * gridScale b k
  match readsBack b t k, readsBack b (t + 1) k with
  | false, false => none
  | true, false => some t
  | false, true => some (t + 1)
  | true, true => some (if 2 * x < middle || 2 * x = middle && t % 2 = 0 then t else t + 1)

/-- The first grid at or below `10 ^ k` that has a number that reads back. The count only bounds the
search; with that of `shortest` it is never used up. -/
def searchGrids (b : Binary) : Nat → Int → Digits
  | 0, k => ⟨b.quarters * quarterScale b k / gridScale b k, k⟩
  | n + 1, k =>
    match nearest? b k with
    | some t => ⟨t, k⟩
    | none => searchGrids b n (k - 1)

/-- The fewest digits that read back. -/
def shortest (b : Binary) : Digits :=
  searchGrids b 640 309

/-- A decimal number as text: positional if its leading digit counts between `10 ^ (-5)` and `10 ^
15`, with at least one digit behind the point, else with an exponent that has a sign. -/
def Digits.text (d : Digits) : String :=
  let digits := Nat.toDigits 10 d.digits
  let leading : Int := d.exponent + digits.length - 1
  let zeros (n : Int) := List.replicate n.toNat '0'
  String.ofList <|
    if leading < -5 || 15 < leading then
      let fraction := if digits.length = 1 then [] else '.' :: digits.tail
      digits.take 1 ++ fraction ++ ['e', if leading < 0 then '-' else '+']
        ++ Nat.toDigits 10 leading.natAbs
    else if leading < 0 then ['0', '.'] ++ zeros (-leading - 1) ++ digits
    else
      let whole := (leading + 1).toNat
      let fraction := digits.drop whole
      (digits ++ zeros d.exponent).take whole
        ++ '.' :: (if fraction.isEmpty then ['0'] else fraction)

/-- The text of a finite floating-point number. -/
def text (x : Float) : String :=
  let bits := x.toBits.toNat
  let sign := if bits < Binary.signBit then "" else "-"
  match Binary.ofBits? (bits % Binary.signBit) with
  | none => sign ++ "0.0"
  | some b => sign ++ (shortest b).text

end CodableSynthesis.Decimal
