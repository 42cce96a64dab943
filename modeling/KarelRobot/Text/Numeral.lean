/-!
# Numbers as text

How numbers are written in listings and reports, and which texts are read as numbers.

* `Text.hex`, `Text.decimal` — hexadecimal and decimal numerals.
* `Text.padLeft`, `Text.padRight` — a text widened to a column.
* `Text.readNat?` — the number that a text spells, up to a limit.
-/

set_option autoImplicit false
namespace KarelRobot
namespace Text

/-- `text` moved to the right end of a column of `width` characters filled with `fill`. -/
def padLeft (fill : Char) (width : Nat) (text : String) : String :=
  String.ofList (List.replicate (width - text.length) fill) ++ text

/-- `text` moved to the left end of a column of `width` characters filled with `fill`. -/
def padRight (fill : Char) (width : Nat) (text : String) : String :=
  text ++ String.ofList (List.replicate (width - text.length) fill)

/-- The hexadecimal numeral of `n`, in small letters. -/
def hex (n : Nat) : String :=
  String.ofList (Nat.toDigits 16 n)

/-- The decimal numeral of `n`. -/
def decimal (n : Nat) : String :=
  String.ofList (Nat.toDigits 10 n)

/-- The hexadecimal numeral of `n` with at least `width` digits. -/
def hexPadded (width n : Nat) : String :=
  padLeft '0' width (hex n)

/-- The value of a list of decimal digits. -/
def digitsValue (digits : List Char) : Nat :=
  digits.foldl (fun value c => 10 * value + (c.toNat - '0'.toNat)) 0

/-- The number that a text spells: decimal digits, at least one, with at most one plus sign in
front.  Numbers above `limit` are not read. -/
def readNat? (limit : Nat) (text : String) : Option Nat :=
  let digits :=
    match text.toList with
    | '+' :: digits => digits
    | digits => digits
  if digits.isEmpty || !digits.all Char.isDigit then none
  else
    let value := digitsValue digits
    if value ≤ limit then some value else none

end Text
end KarelRobot
