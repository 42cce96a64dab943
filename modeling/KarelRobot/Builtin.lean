/-!
# Built-in commands and predicates

The six commands that every robot understands and the five questions that it can answer about its
surroundings.  Both have a name in the language, a number in the machine code and a short name in
listings.

* `Action`, `Predicate` — the two vocabularies.
* `Action.ofName?`, `Predicate.ofName?` — reading a name.
* `Action.ofOpcode?`, `Predicate.ofOpcode?` — reading a number.
-/

set_option autoImplicit false
namespace KarelRobot

/-- A built-in command: something the robot does to the world. -/
inductive Action where
  | moveForward
  | turnLeft
  | turnAround
  | turnRight
  | pickBeeper
  | dropBeeper
deriving Repr, DecidableEq

namespace Action

/-- All built-in commands, in the order of their numbers. -/
def all : List Action :=
  [moveForward, turnLeft, turnAround, turnRight, pickBeeper, dropBeeper]

/-- The name of a built-in command. -/
def name : Action → String
  | moveForward => "moveForward"
  | turnLeft => "turnLeft"
  | turnAround => "turnAround"
  | turnRight => "turnRight"
  | pickBeeper => "pickBeeper"
  | dropBeeper => "dropBeeper"

/-- The names of all built-in commands. -/
def names : List String :=
  all.map name

/-- The built-in command of a name. -/
def ofName? (word : String) : Option Action :=
  all.find? fun action => action.name == word

/-- The number of a built-in command in the machine code. -/
def opcode : Action → UInt16
  | moveForward => 0x0001
  | turnLeft => 0x0002
  | turnAround => 0x0003
  | turnRight => 0x0004
  | pickBeeper => 0x0005
  | dropBeeper => 0x0006

/-- The built-in command of a number. -/
def ofOpcode? (code : UInt16) : Option Action :=
  all.find? fun action => action.opcode == code

/-- The short name in listings. -/
def mnemonic : Action → String
  | moveForward => "MOVE"
  | turnLeft => "TRNL"
  | turnAround => "TRNA"
  | turnRight => "TRNR"
  | pickBeeper => "PICK"
  | dropBeeper => "DROP"

end Action

/-- A question the robot can answer about the world. -/
inductive Predicate where
  | onBeeper
  | beeperAhead
  | leftIsClear
  | frontIsClear
  | rightIsClear
deriving Repr, DecidableEq

namespace Predicate

/-- All predicates, in the order of their numbers. -/
def all : List Predicate :=
  [onBeeper, beeperAhead, leftIsClear, frontIsClear, rightIsClear]

/-- The name of a predicate. -/
def name : Predicate → String
  | onBeeper => "onBeeper"
  | beeperAhead => "beeperAhead"
  | leftIsClear => "leftIsClear"
  | frontIsClear => "frontIsClear"
  | rightIsClear => "rightIsClear"

/-- The predicate of a name. -/
def ofName? (word : String) : Option Predicate :=
  all.find? fun predicate => predicate.name == word

/-- The number of a predicate in the machine code. -/
def opcode : Predicate → UInt16
  | onBeeper => 0x0007
  | beeperAhead => 0x0008
  | leftIsClear => 0x0009
  | frontIsClear => 0x000a
  | rightIsClear => 0x000b

/-- The predicate of a number. -/
def ofOpcode? (code : UInt16) : Option Predicate :=
  all.find? fun predicate => predicate.opcode == code

/-- The short name in listings. -/
def mnemonic : Predicate → String
  | onBeeper => "BEEP"
  | beeperAhead => "HEAD"
  | leftIsClear => "LCLR"
  | frontIsClear => "FCLR"
  | rightIsClear => "RCLR"

end Predicate
end KarelRobot
