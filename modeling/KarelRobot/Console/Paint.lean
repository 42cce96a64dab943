/-!
# Coloured text

Text for a terminal, with control sequences that set its colour and its weight.

* `Console.Colour` — the colours in use.
* `Console.paint`, `Console.bold` — a text in a colour and in bold letters.
-/

set_option autoImplicit false
namespace KarelRobot
namespace Console

/-- The colours of the foreground. -/
inductive Colour where
  | red
  | green
  | yellow
  | brightBlack
deriving Repr, DecidableEq

/-- The number of a colour in a control sequence. -/
def Colour.code : Colour → String
  | red => "31"
  | green => "32"
  | yellow => "33"
  | brightBlack => "90"

/-- The control sequence that sets a property of the text that follows. -/
def property (code : String) : String :=
  "\x1b[" ++ code ++ "m"

/-- A text in a colour, and the default colour behind it. -/
def paint (colour : Colour) (text : String) : String :=
  property colour.code ++ text ++ property "39"

/-- A text in bold letters, and nothing special behind it. -/
def bold (text : String) : String :=
  property "1" ++ text ++ property "0"

end Console
end KarelRobot
