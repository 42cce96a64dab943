/-!
# Blank characters and trimming

The white space that may surround a word typed by a user.  The class is the `White_Space` property
of Unicode, which is wider than the blanks of the robot language itself.

* `Text.isBlank` — membership in the class.
* `Text.trim` — a text without the blanks at its two ends.
-/

set_option autoImplicit false
namespace KarelRobot
namespace Text

/-- The ranges of code points with the property `White_Space`, both ends included. -/
def blankRanges : List (Nat × Nat) :=
  [(0x09, 0x0d), (0x20, 0x20), (0x85, 0x85), (0xa0, 0xa0), (0x1680, 0x1680), (0x2000, 0x200a),
    (0x2028, 0x2029), (0x202f, 0x202f), (0x205f, 0x205f), (0x3000, 0x3000)]

/-- Is `c` white space? -/
def isBlank (c : Char) : Bool :=
  blankRanges.any fun range => range.1 ≤ c.toNat && c.toNat ≤ range.2

/-- The characters of a text without the blanks in front of them and behind them. -/
def trimList (cs : List Char) : List Char :=
  ((cs.dropWhile isBlank).reverse.dropWhile isBlank).reverse

/-- A text without the blanks in front of it and behind it. -/
def trim (text : String) : String :=
  String.ofList (trimList text.toList)

end Text
end KarelRobot
