import KarelRobot.Text.Blank

/-!
# Levels of the course

A course introduces loops and recursion one after the other.  A level says which of them a script
may use.

* `Level.allowsWhile`, `Level.allowsRecursion` — what a level has introduced.
* `Level.parse` — the level that a text names, by word or by number.
-/

set_option autoImplicit false
namespace KarelRobot

/-- How far the course has come. -/
inductive Level where
  | basics
  | loops
  | recursion
deriving Repr, DecidableEq

namespace Level

/-- The name of a level. -/
def name : Level → String
  | basics => "basics"
  | loops => "loops"
  | recursion => "recursion"

/-- Has the course introduced loops with a condition? -/
def allowsWhile : Level → Bool
  | basics => false
  | loops | recursion => true

/-- Has the course introduced recursion? -/
def allowsRecursion : Level → Bool
  | basics | loops => false
  | recursion => true

/-- A text that names no level, as it was understood. -/
structure Unknown where
  text : String
deriving Repr, DecidableEq

/-- What is wrong with a text that names no level. -/
def Unknown.message (unknown : Unknown) : String :=
  "unknown level '" ++ unknown.text ++ "' (expected basics, loops or recursion)"

/-- The level that a text names, by its name or its number.  Blanks around it and capital letters do
not matter. -/
def parse (text : String) : Except Unknown Level :=
  let word := String.ofList ((Text.trimList text.toList).map Char.toLower)
  if word = "basics" ∨ word = "1" then .ok basics
  else if word = "loops" ∨ word = "2" then .ok loops
  else if word = "recursion" ∨ word = "3" then .ok recursion
  else .error ⟨word⟩

end Level
end KarelRobot
