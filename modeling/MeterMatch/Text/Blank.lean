/-! # Blank characters

The characters of the Unicode `White_Space` property: the ASCII tab, line feed, vertical tab,
form feed, carriage return and space, next line, no-break space, ogham space mark, the spaces
U+2000 to U+200A, line and paragraph separators, narrow no-break space, medium mathematical
space and ideographic space. Zero-width characters such as U+200B are not blank.

A name is blank when all its characters are blank, which is when trimming blanks from both
ends leaves nothing.
-/

namespace MeterMatch.Text

/-- The code point ranges of the `White_Space` property, both ends included. -/
def blankRanges : List (Nat × Nat) :=
  [(0x09, 0x0D), (0x20, 0x20), (0x85, 0x85), (0xA0, 0xA0), (0x1680, 0x1680),
   (0x2000, 0x200A), (0x2028, 0x2029), (0x202F, 0x202F), (0x205F, 0x205F), (0x3000, 0x3000)]

/-- Whether a character has the `White_Space` property. -/
def isBlank (c : Char) : Bool :=
  blankRanges.any fun (lo, hi) => lo ≤ c.toNat && c.toNat ≤ hi

/-- Whether a text has nothing but blanks, so that it trims to nothing. -/
def isBlankText (s : String) : Bool := s.toList.all isBlank

/-- Every character that core calls whitespace is blank. -/
theorem isBlank_of_isWhitespace (c : Char) (h : c.isWhitespace = true) : isBlank c = true := by
  simp only [Char.isWhitespace, Bool.or_eq_true, decide_eq_true_eq] at h
  simp only [isBlank, blankRanges, List.any_cons, List.any_nil, Bool.or_false,
    Bool.or_eq_true, Bool.and_eq_true, decide_eq_true_eq]
  rcases h with ((h | h) | h) | h <;> subst h <;> simp

end MeterMatch.Text
