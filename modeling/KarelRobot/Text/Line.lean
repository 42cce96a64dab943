/-!
# Lines and columns

A position in a text counts its characters from zero.  People count lines and columns, both from
one, so every report turns a position into a `Place`.

* `Text.place` — the line and column of a position.
* `Text.lines` — the lines of a text, without their ends.
-/

set_option autoImplicit false
namespace KarelRobot
namespace Text

/-- A place in a text as people name it.  Both numbers count from one. -/
structure Place where
  line : Nat
  column : Nat
deriving Repr, DecidableEq

namespace Place

/-- The first place of every text. -/
def start : Place := ⟨1, 1⟩

/-- The place behind a character `c` that stands at `p`. -/
def after (p : Place) (c : Char) : Place :=
  if c = '\n' then ⟨p.line + 1, 1⟩ else ⟨p.line, p.column + 1⟩

end Place

/-- The place of `position` in `text`.  A position behind the end has the place of the end. -/
def place (text : String) (position : Nat) : Place :=
  (text.toList.take position).foldl Place.after Place.start

/-- The lines of the characters `cs` that follow an unfinished line, which is held in reverse.  A
line feed ends a line, and a carriage return directly before it belongs to the end.  Behind the
last line feed a line stands only if it has characters. -/
def linesFrom (line : List Char) : List Char → List (List Char)
  | [] => if line.isEmpty then [] else [line.reverse]
  | c :: cs =>
    if c = '\n' then
      (match line with
      | '\r' :: line => line.reverse
      | line => line.reverse) :: linesFrom [] cs
    else linesFrom (c :: line) cs

/-- The lines of a text, without their ends. -/
def lines (text : String) : List String :=
  (linesFrom [] text.toList).map String.ofList

end Text
end KarelRobot
