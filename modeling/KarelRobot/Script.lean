import KarelRobot.Builtin

/-!
# Scripts

A script is what a student writes: a list of command definitions.  The trees keep the positions of
the words they were read from, which diagnostics and the debugger point at.

* `Condition` — formulas over the robot's predicates.
* `Statement`, `Block` — what a command does.
* `Command`, `Script` — definitions and whole programs.
* `Block.walk`, `Block.calls` — all statements and all calls of a block in source order.
-/

set_option autoImplicit false
namespace KarelRobot

/-- A name at a position of the source. -/
structure Ident where
  text : String
  position : Nat
deriving Repr, DecidableEq

/-- A condition of a loop or a case distinction. -/
inductive Condition where
  | literal (value : Bool) (position : Nat)
  | predicate (which : Predicate) (position : Nat)
  | not (position : Nat) (operand : Condition)
  | and (position : Nat) (left right : Condition)
  | or (position : Nat) (left right : Condition)
deriving Repr, DecidableEq

/-- A call of a command, with the commands that are passed to it. -/
structure Call where
  target : Ident
  arguments : List Ident
deriving Repr, DecidableEq

/-- All names that a call mentions, in source order. -/
def Call.references (call : Call) : List Ident :=
  call.target :: call.arguments

mutual

/-- A statement.  The position is that of its first word. -/
inductive Statement where
  | call (c : Call)
  | repeatTimes (position times : Nat) (body : Block)
  | ifThen (position : Nat) (condition : Condition) (body : Block)
  /-- The alternative is a block, or another case distinction. -/
  | ifElse (position : Nat) (condition : Condition) (body : Block) (otherwise : Statement)
  | whileLoop (position : Nat) (condition : Condition) (body : Block)
  /-- A block on its own, which occurs as an alternative only. -/
  | block (body : Block)

/-- Statements between an opening and a closing brace. -/
inductive Block where
  | mk (opening : Nat) (statements : List Statement) (closing : Nat)

end

/-- The call that a statement is, if it is one. -/
def Statement.call? : Statement → Option Call
  | .call c => some c
  | _ => none

theorem Statement.call?_eq_some_iff {s : Statement} {c : Call} :
    s.call? = some c ↔ s = .call c := by
  cases s <;> simp [call?]

/-- Where a statement begins. -/
def Statement.position : Statement → Nat
  | .call c => c.target.position
  | .repeatTimes position _ _ => position
  | .ifThen position _ _ => position
  | .ifElse position _ _ _ => position
  | .whileLoop position _ _ => position
  | .block (.mk opening _ _) => opening

namespace Block

/-- The position of the opening brace. -/
def opening : Block → Nat
  | .mk opening _ _ => opening

/-- The statements directly inside a block. -/
def statements : Block → List Statement
  | .mk _ statements _ => statements

/-- The position of the closing brace. -/
def closing : Block → Nat
  | .mk _ _ closing => closing

end Block

mutual

/-- A statement and all statements inside it, in source order. -/
def Statement.walk : Statement → List Statement
  | .call c => [.call c]
  | .repeatTimes position times body => .repeatTimes position times body :: body.walk
  | .ifThen position condition body => .ifThen position condition body :: body.walk
  | .ifElse position condition body otherwise =>
    .ifElse position condition body otherwise :: (body.walk ++ otherwise.walk)
  | .whileLoop position condition body => .whileLoop position condition body :: body.walk
  | .block body => .block body :: body.walk

/-- All statements inside a block, in source order. -/
def Block.walk : Block → List Statement
  | .mk _ statements _ => Statement.walkAll statements

/-- All statements of a list and inside its members, in source order. -/
def Statement.walkAll : List Statement → List Statement
  | [] => []
  | statement :: following => statement.walk ++ Statement.walkAll following

end

mutual

/-- All calls that a statement is or has inside it, in source order. -/
def Statement.calls : Statement → List Call
  | .call c => [c]
  | .repeatTimes _ _ body => body.calls
  | .ifThen _ _ body => body.calls
  | .ifElse _ _ body otherwise => body.calls ++ otherwise.calls
  | .whileLoop _ _ body => body.calls
  | .block body => body.calls

/-- All calls inside a block, in source order. -/
def Block.calls : Block → List Call
  | .mk _ statements _ => Statement.callsAll statements

/-- All calls of a list of statements, in source order. -/
def Statement.callsAll : List Statement → List Call
  | [] => []
  | statement :: following => statement.calls ++ Statement.callsAll following

end

/-- A command definition. -/
structure Command where
  /-- The position of the word that introduces the definition. -/
  introduced : Nat
  ident : Ident
  parameters : List Ident
  body : Block

namespace Command

/-- The name of a command. -/
def name (command : Command) : String :=
  command.ident.text

/-- Does a command call `word` its parameter? -/
def hasParameter (command : Command) (word : String) : Bool :=
  command.parameters.any fun parameter => parameter.text == word

end Command

/-- A program as it is written: command definitions in their order. -/
structure Script where
  commands : List Command

end KarelRobot
