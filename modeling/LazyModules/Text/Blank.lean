/-!
# Blank characters

The white space of Unicode, with the four separator controls U+001C to U+001F. A line is blank when
every character of it is; the zero-width space U+200B is not blank.
-/
namespace LazyModules.Text

/-- The ranges of blank code points, in order. -/
def blankRanges : List (Nat × Nat) :=
  [(0x9, 0xd), (0x1c, 0x20), (0x85, 0x85), (0xa0, 0xa0), (0x1680, 0x1680), (0x2000, 0x200a),
   (0x2028, 0x2029), (0x202f, 0x202f), (0x205f, 0x205f), (0x3000, 0x3000)]

/-- White space of any script. -/
def isBlank (c : Char) : Bool :=
  blankRanges.any fun r => r.1 ≤ c.toNat && c.toNat ≤ r.2

/-- A run of characters that shows nothing. -/
def isBlankRun (cs : List Char) : Bool := cs.all isBlank

/-- Leaves out the longest run of characters at the end that all satisfy `p`. -/
def trimEnd (p : Char → Bool) (cs : List Char) : List Char :=
  (cs.reverse.dropWhile p).reverse

end LazyModules.Text
