/-!
Texts measured in bytes of UTF-8. Offsets into a source are byte offsets, since the spans of tokens
and the bounds of edits count bytes; texts themselves are lists of characters, so that a cut can
never fall into the middle of one.

`dropBytes`, `takeBytes` and `slice` are total. At an offset that is the length of a front part of
the text they are exact, which is what `dropBytes_byteLength_append` and
`takeBytes_byteLength_append` say; every offset that is taken from a span is such a length. At any
other offset the character that the cut would fall into goes to the front part.
-/

namespace CodableSynthesis.Text

/-- The number of bytes of a text. -/
def byteLength : List Char → Nat
  | [] => 0
  | c :: cs => c.utf8Size + byteLength cs

/-- A text without its first `n` bytes. -/
def dropBytes : Nat → List Char → List Char
  | _, [] => []
  | 0, cs => cs
  | n + 1, c :: cs => dropBytes (n + 1 - c.utf8Size) cs

/-- The first `n` bytes of a text. -/
def takeBytes : Nat → List Char → List Char
  | _, [] => []
  | 0, _ => []
  | n + 1, c :: cs => c :: takeBytes (n + 1 - c.utf8Size) cs

/-- The part of a text between two byte offsets, as a source is sliced between the ends of spans. -/
def slice (start stop : Nat) (cs : List Char) : List Char :=
  takeBytes (stop - start) (dropBytes start cs)

@[simp] theorem byteLength_nil : byteLength [] = 0 := rfl

@[simp] theorem byteLength_cons (c : Char) (cs : List Char) :
    byteLength (c :: cs) = c.utf8Size + byteLength cs := rfl

/-- The length of a text is that of its parts. -/
@[simp] theorem byteLength_append (front back : List Char) :
    byteLength (front ++ back) = byteLength front + byteLength back := by
  induction front with
  | nil => simp
  | cons c cs ih => simp [ih, Nat.add_assoc]

@[simp] theorem dropBytes_zero (cs : List Char) : dropBytes 0 cs = cs := by
  cases cs <;> rfl

@[simp] theorem takeBytes_zero (cs : List Char) : takeBytes 0 cs = [] := by
  cases cs <;> rfl

/-- A character has at least one byte, so a count of bytes that includes it is a successor. -/
private theorem exists_succ_of_utf8Size (c : Char) (n : Nat) : ∃ m, c.utf8Size + n = m + 1 :=
  ⟨c.utf8Size + n - 1, by have := c.utf8Size_pos; omega⟩

/-- Dropping the bytes of a front part leaves the rest. -/
@[simp] theorem dropBytes_byteLength_append (front back : List Char) :
    dropBytes (byteLength front) (front ++ back) = back := by
  induction front with
  | nil => simp
  | cons c cs ih =>
    obtain ⟨m, hm⟩ := exists_succ_of_utf8Size c (byteLength cs)
    rw [byteLength_cons, hm, List.cons_append, dropBytes,
      show m + 1 - c.utf8Size = byteLength cs by omega, ih]

/-- Taking the bytes of a front part takes that part. -/
@[simp] theorem takeBytes_byteLength_append (front back : List Char) :
    takeBytes (byteLength front) (front ++ back) = front := by
  induction front with
  | nil => simp
  | cons c cs ih =>
    obtain ⟨m, hm⟩ := exists_succ_of_utf8Size c (byteLength cs)
    rw [byteLength_cons, hm, List.cons_append, takeBytes,
      show m + 1 - c.utf8Size = byteLength cs by omega, ih]

end CodableSynthesis.Text
