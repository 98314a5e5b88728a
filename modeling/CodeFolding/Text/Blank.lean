/-!
# Blank characters

`isBlank` is the `White_Space` property of Unicode: twenty-five code points.  Trimming removes
blank characters from the two ends of a text.
-/

namespace CodeFolding.Text

/-- The code points with the property `White_Space`, as closed ranges in increasing order. -/
def blankRanges : List (Nat × Nat) :=
  [(0x09, 0x0D), (0x20, 0x20), (0x85, 0x85), (0xA0, 0xA0), (0x1680, 0x1680), (0x2000, 0x200A),
    (0x2028, 0x2029), (0x202F, 0x202F), (0x205F, 0x205F), (0x3000, 0x3000)]

/-- A character that trimming removes. -/
def isBlank (c : Char) : Bool :=
  blankRanges.any fun r => r.1 ≤ c.toNat && c.toNat ≤ r.2

/-- A text without characters that matter. -/
def allBlank (cs : List Char) : Bool := cs.all isBlank

/-- Drop the longest run of characters with `p` at the end. -/
def dropEndWhile (p : Char → Bool) (cs : List Char) : List Char :=
  (cs.reverse.dropWhile p).reverse

/-- Drop the blank characters at the start. -/
def trimStart (cs : List Char) : List Char := cs.dropWhile isBlank

/-- Drop the blank characters at the end. -/
def trimEnd (cs : List Char) : List Char := dropEndWhile isBlank cs

/-- Drop the blank characters at both ends. -/
def trim (cs : List Char) : List Char := trimEnd (trimStart cs)

end CodeFolding.Text
