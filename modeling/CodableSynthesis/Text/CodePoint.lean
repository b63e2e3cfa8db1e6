/-!
Sets of code points, told by ranges, and the first such set: the Unicode property White_Space.

White space matters twice. The lexer passes over it between tokens (`Trivia.skip`), and an expansion
takes it out: all of it directly behind an attribute (`leadingSpace`), and all of it directly in
front of the brace that generated members go in front of (`trimEnd`).
-/

namespace CodableSynthesis.Text

/-- Whether `n` lies in one of the ranges. The ranges are ascending and disjoint, so the search
ends at the first range that begins beyond `n`. -/
def inRanges (n : Nat) : List (Nat × Nat) → Bool
  | [] => false
  | (first, last) :: rest => decide (first ≤ n) && (decide (n ≤ last) || inRanges n rest)

/-- A member lies between the ends of one of the ranges. -/
theorem exists_of_inRanges {n : Nat} {ranges : List (Nat × Nat)} (h : inRanges n ranges = true) :
    ∃ r ∈ ranges, r.1 ≤ n ∧ n ≤ r.2 := by
  induction ranges with
  | nil => simp [inRanges] at h
  | cons r rest ih =>
    simp only [inRanges, Bool.and_eq_true, Bool.or_eq_true, decide_eq_true_eq] at h
    rcases h with ⟨hle, hlast | hrest⟩
    · exact ⟨r, by simp, hle, hlast⟩
    · obtain ⟨s, hs, hb⟩ := ih hrest
      exact ⟨s, by simp [hs], hb⟩

/-- The code points with the property White_Space, ascending. -/
def whiteSpaceRanges : List (Nat × Nat) :=
  [(0x9, 0xD), (0x20, 0x20), (0x85, 0x85), (0xA0, 0xA0), (0x1680, 0x1680), (0x2000, 0x200A),
   (0x2028, 0x2029), (0x202F, 0x202F), (0x205F, 0x205F), (0x3000, 0x3000)]

/-- Whether a character is white space: `is_whitespace`, and with it `trim_end` and the trimming
behind attributes. -/
def isWhiteSpace (c : Char) : Bool :=
  inRanges c.toNat whiteSpaceRanges

/-- Whether a white-space character separates lines although it is no line feed: the line and the
paragraph separator. The lexer counts lines by line feeds alone; these two only set the mark that a
line break was crossed (`skip_trivia`). -/
def isLineSeparator (c : Char) : Bool :=
  c == '\u2028' || c == '\u2029'

/-- The white space a text begins with. -/
def leadingSpace (cs : List Char) : List Char :=
  cs.takeWhile isWhiteSpace

/-- A text without the white space it ends with. -/
def trimEnd (cs : List Char) : List Char :=
  (cs.reverse.dropWhile isWhiteSpace).reverse

/-- What white space a text begins with is the front of that text. -/
theorem leadingSpace_append_dropWhile (cs : List Char) :
    leadingSpace cs ++ cs.dropWhile isWhiteSpace = cs :=
  List.takeWhile_append_dropWhile

/-- Trimming takes nothing but white space, and only from the end. -/
theorem trimEnd_append_takeWhile (cs : List Char) :
    trimEnd cs ++ (cs.reverse.takeWhile isWhiteSpace).reverse = cs := by
  rw [trimEnd, ← List.reverse_append, List.takeWhile_append_dropWhile, List.reverse_reverse]

end CodableSynthesis.Text
