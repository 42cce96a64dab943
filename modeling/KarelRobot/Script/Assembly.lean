import KarelRobot.Diagnostic
import KarelRobot.Program
import KarelRobot.Script

/-!
# From commands to machine code

The commands of a program lie behind one another.  The code of a phrase depends on the address
where it starts, because jumps name addresses; the targets of forward jumps follow from the lengths
of the codes in between.

```text
condition         its operands, then its operator
if c { b }        c; ELSE end; b; end:
if c { b } else s c; ELSE other; b; JUMP end; other: s; end:
while c { b }     start: c; ELSE end; b; JUMP start; end:
repeat n { b }    PUSH n; start: b; LOOP start
f(a, ...)         PASS a; ...; CALL f
command           its body; RET
```

Where a condition ends in negations they are left out and the branch behind it is turned around
instead.  A command of the script is called by its number until all commands have their place; then
the numbers are replaced by addresses.

* `Assembly.fold` — taking negations off the end of some code.
* `Condition.test` — the code of a condition and the branch that is taken if it fails.
* `Block.code`, `Command.code` — the code of a block and a command at an address.
* `Program.ofCommands` — the linked program of a list of commands.
-/

set_option autoImplicit false
namespace KarelRobot

namespace Assembly

/-- An instruction on its way into a program. -/
structure Line where
  instruction : Instruction
  /-- Is the operand the number of a command, to be replaced by its address? -/
  isPending : Bool
deriving Repr, DecidableEq

/-- An instruction that is complete. -/
def line (op : Op) (position : Nat) : Line :=
  ⟨.ofOp op position, false⟩

/-- An address as an operand. -/
def operand (address : Nat) : UInt16 :=
  UInt16.ofNat address

/-- What the code of a command may refer to. -/
structure Context where
  /-- The parameters of the command. -/
  parameters : List Ident
  /-- The names of the commands of the program, each at the place that is its number. -/
  names : List String

/-- The number of a command. -/
def number (names : List String) (name : String) : UInt16 :=
  UInt16.ofNat (names.idxOf name)

/-- What a name refers to: a parameter hides a built-in command, and that a command of the
script. -/
def Context.resolve (context : Context) (name : String) : Reference :=
  match context.parameters.findIdx? fun parameter => parameter.text == name with
  | some index => .parameter (UInt16.ofNat (context.parameters.length - index))
  | none =>
    match Action.ofName? name with
    | some which => .builtin which
    | none => .direct (number context.names name)

/-- The code that passes a command on. -/
def Context.argument (context : Context) (argument : Ident) : Line :=
  let reference := context.resolve argument.text
  ⟨.ofOp reference.argumentOp argument.position, reference.isPending⟩

/-- The code of a call. -/
def Context.call (context : Context) (c : Call) : List Line :=
  let reference := context.resolve c.target.text
  c.arguments.map context.argument ++
    [⟨.ofOp reference.callOp c.target.position, reference.isPending⟩]

end Assembly

open Assembly (Line Context line operand)

/-! ## Conditions -/

namespace Condition

/-- The code that pushes the truth value of a condition. -/
def code : Condition → List Line
  | literal value position => [line (.literal value) position]
  | predicate which position => [line (.query which) position]
  | not position operand => operand.code ++ [line .not position]
  | and position left right => left.code ++ right.code ++ [line .and position]
  | or position left right => left.code ++ right.code ++ [line .or position]

/-- Is this an instruction that negates? -/
def isNegation (l : Line) : Bool :=
  l.instruction.bytecode == Op.not.encode

/-- The branch that is taken if a condition fails, with this number of negations left out in front
of it.  Each of them turns the branch around. -/
def branch (negations : Nat) : UInt16 → Op :=
  if negations % 2 = 0 then .jumpUnless else .jumpIf

end Condition

/-- Takes the negations off the end of some code, and turns the branch around that comes behind. -/
def Assembly.fold (code : List Line) : List Line × (UInt16 → Op) :=
  ((code.reverse.dropWhile Condition.isNegation).reverse,
    Condition.branch (code.reverse.takeWhile Condition.isNegation).length)

/-- The code of a condition without the negations at its end, and the branch behind it that is
taken if the condition fails. -/
def Condition.test (condition : Condition) : List Line × (UInt16 → Op) :=
  Assembly.fold condition.code

/-! ## Statements -/

mutual

/-- The code of a statement that starts at an address. -/
def Statement.code (context : Context) (start : Nat) : Statement → List Line
  | .call c => context.call c
  | .block body => body.code context start
  | .repeatTimes position times body =>
    line (.push (operand times)) position ::
      (body.code context (start + 1) ++ [line (.loop (operand (start + 1))) body.closing])
  | .ifThen position condition body =>
    let (test, branch) := condition.test
    let bodyStart := start + test.length + 1
    let bodyCode := body.code context bodyStart
    test ++ line (branch (operand (bodyStart + bodyCode.length))) position :: bodyCode
  | .ifElse position condition body otherwise =>
    let (test, branch) := condition.test
    let bodyStart := start + test.length + 1
    let bodyCode := body.code context bodyStart
    let otherStart := bodyStart + bodyCode.length + 1
    let otherCode := otherwise.code context otherStart
    test ++ line (branch (operand otherStart)) position ::
      (bodyCode ++ line (.jump (operand (otherStart + otherCode.length))) body.closing :: otherCode)
  | .whileLoop position condition body =>
    let (test, branch) := condition.test
    let bodyStart := start + test.length + 1
    let bodyCode := body.code context bodyStart
    test ++ line (branch (operand (bodyStart + bodyCode.length + 1))) position ::
      (bodyCode ++ [line (.jump (operand start)) body.closing])

/-- The code of a block that starts at an address. -/
def Block.code (context : Context) (start : Nat) : Block → List Line
  | .mk _ statements _ => Statement.codeAll context start statements

/-- The code of statements behind one another that start at an address. -/
def Statement.codeAll (context : Context) (start : Nat) : List Statement → List Line
  | [] => []
  | statement :: following =>
    let first := statement.code context start
    first ++ Statement.codeAll context (start + first.length) following

end

/-! ## Commands -/

namespace Command

/-- The code of a command that starts at an address. -/
def code (names : List String) (start : Nat) (command : Command) : List Line :=
  command.body.code ⟨command.parameters, names⟩ start ++ [line .ret command.body.closing]

/-- The names that need a number in the code of a command: its own, and those that it passes on
and calls and that are neither parameters nor built in, in the order of the code. -/
def numberedNames (command : Command) : List String :=
  command.name ::
    (command.body.calls.flatMap fun c =>
      (c.arguments ++ [c.target]).map Ident.text).filter fun name =>
        !command.hasParameter name && (Action.ofName? name).isNone

end Command

namespace Assembly

/-- The names of the commands of a program, numbered in the order in which the code mentions
them. -/
def numbering (commands : List Command) : List String :=
  (commands.flatMap Command.numberedNames).eraseDups

/-- A command with its place in the program. -/
structure Placed where
  name : String
  start : Nat
  code : List Line

/-- Places commands behind one another from an address on. -/
def place (names : List String) (start : Nat) : List Command → List Placed
  | [] => []
  | command :: following =>
    let code := command.code names start
    ⟨command.name, start, code⟩ :: place names (start + code.length) following

/-- The addresses of the commands by their numbers.  The last command of a number comes first. -/
def addresses (names : List String) (placed : List Placed) : List (UInt16 × Nat) :=
  (placed.map fun p => (number names p.name, p.start)).reverse

/-- Replaces the number of a command by its address. -/
def link (addresses : List (UInt16 × Nat)) (l : Line) : Except Diagnostic Instruction :=
  if l.isPending then
    match addresses.lookup l.instruction.operand with
    | some address => .ok (l.instruction.retarget (operand address))
    | none =>
      .error ⟨l.instruction.position.getD 0, .unknownBytecode l.instruction.bytecode, none⟩
  else .ok l.instruction

end Assembly

/-- The program that consists of these commands, the first of which it starts with. -/
def Program.ofCommands (commands : List Command) : Except Diagnostic Program := do
  let names := Assembly.numbering commands
  let placed := Assembly.place names Program.entryPoint commands
  let code := placed.flatMap Assembly.Placed.code
  if Program.entryPoint + code.length > Program.maxSize then
    .error ⟨(commands.head?.map fun command => command.ident.position).getD 0, .programTooLong,
      none⟩
  else
    return Program.ofCode (← code.mapM (Assembly.link (Assembly.addresses names placed)))

end KarelRobot
