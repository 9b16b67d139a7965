/-!
# Characters and lines

A set of characters is written as ascending closed ranges of code points, as are the blanks, the
characters with the Unicode property `White_Space`. A text is trimmed of the blanks at its ends.
Lines make a text in which each of them is closed by a line feed.
-/

namespace ShiftReduce.Text

/-! ## Ranges of code points -/

/-- Whether a code point lies in one of the ascending ranges. -/
def inRanges (n : Nat) : List (Nat × Nat) → Bool
  | [] => false
  | (low, high) :: rest => if n < low then false else n ≤ high || inRanges n rest

/-! ## Blanks -/

def blankRanges : List (Nat × Nat) :=
  [(0x9, 0xD), (0x20, 0x20), (0x85, 0x85), (0xA0, 0xA0), (0x1680, 0x1680), (0x2000, 0x200A),
    (0x2028, 0x2029), (0x202F, 0x202F), (0x205F, 0x205F), (0x3000, 0x3000)]

def isBlank (c : Char) : Bool := inRanges c.toNat blankRanges

def trimStart (cs : List Char) : List Char := cs.dropWhile isBlank

def trimEnd (cs : List Char) : List Char := (cs.reverse.dropWhile isBlank).reverse

def trim (cs : List Char) : List Char := trimEnd (trimStart cs)

/-! ## Lines -/

def lines (l : List String) : String :=
  String.join (l.map (· ++ "\n"))

end ShiftReduce.Text
