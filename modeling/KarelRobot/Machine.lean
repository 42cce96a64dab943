import KarelRobot.Program
import KarelRobot.World

/-!
# The machine

A stack machine that runs the programs of the robot.  One stack holds everything: truth values,
loop counters, commands that are passed on, and return addresses.  The commands passed to a call
lie directly below its return address, the last one on top, and leaving the command removes them.

`Machine.step` executes one instruction.  It always answers with a machine: after a failure that is
the machine as the failure left it, so that a debugger can look at it and go on.

* `Machine.Value`, `Machine.Fault`, `Machine.Event` — what the stack holds, what can go wrong, and
  what a debugger is told.
* `Machine.step` — one instruction.
-/

set_option autoImplicit false
namespace KarelRobot

open Text (hexPadded)

namespace Machine

/-- A value on the stack. -/
inductive Value where
  /-- The address of the call to go on behind. -/
  | returnAddress (address : UInt16)
  /-- How often a loop has yet to run, the current run included. -/
  | loopCounter (remaining : UInt16)
  | boolean (value : Bool)
  /-- A command that is passed on: the number of a built-in one, or an address. -/
  | command (reference : UInt16)
deriving Repr, DecidableEq

/-- Is this a return address? -/
def Value.isReturnAddress : Value → Bool
  | returnAddress _ => true
  | _ => false

/-- Is this a command that is passed on? -/
def Value.isCommand : Value → Bool
  | command _ => true
  | _ => false

/-- What can go wrong while a program runs. -/
inductive Fault where
  /-- An action or a question is impossible; the machine still stands in front of it. -/
  | world (fault : World.Fault)
  /-- The program has run for too long; `position` is where it was in the source. -/
  | infiniteLoop (position : Option Nat)
  /-- The stack holds nothing, or not what the instruction needs. -/
  | stackUnderflow (pc : Nat)
  | illegalBytecode (bytecode : UInt16) (pc : Nat)
  /-- What was passed on is no command. -/
  | notACommand (pc : Nat)
  /-- There is no instruction at the address `pc`. -/
  | outOfBounds (pc : Nat)
deriving Repr, DecidableEq

/-- A fault in words. -/
def Fault.message : Fault → String
  | world fault => fault.message
  | infiniteLoop _ => "infinite loop detected"
  | stackUnderflow pc => "stack underflow at " ++ hexPadded 3 pc
  | illegalBytecode bytecode pc =>
    "illegal bytecode " ++ hexPadded 4 bytecode.toNat ++ " at " ++ hexPadded 3 pc
  | notACommand pc => "argument at " ++ hexPadded 3 pc ++ " is not a command"
  | outOfBounds pc => "program counter " ++ hexPadded 3 pc ++ " is outside the program"

/-- What a debugger is told while a program runs. -/
inductive Event where
  /-- The instruction `site` enters a command that the instruction `closing` leaves. -/
  | entered (site closing : Instruction)
  /-- A command is left. -/
  | left
  /-- The program has run for too long. -/
  | gaveUp
deriving Repr, DecidableEq

/-- How an operation of the machine ends. -/
inductive Outcome where
  /-- There is more to do. -/
  | paused
  /-- The first command has been left. -/
  | finished
  | failed (fault : Fault)
deriving Repr, DecidableEq

end Machine

/-- The state of the machine. -/
structure Machine where
  world : World
  /-- The address of the next instruction. -/
  pc : Nat
  /-- The stack, its top first. -/
  stack : List Machine.Value
  /-- How many calls have not returned. -/
  callDepth : Nat
  finished : Bool
  /-- What the debugger has been told, the latest first. -/
  events : List Machine.Event
deriving Repr, DecidableEq

namespace Machine

/-- The machine before its first instruction. -/
def start (world : World) : Machine :=
  ⟨world, Program.entryPoint, [], 0, false, []⟩

/-- The instruction that is next. -/
def current? (p : Program) (m : Machine) : Option Instruction :=
  p.get? m.pc

/-! ## Parts of instructions -/

/-- Stops with a fault. -/
def fail (m : Machine) (fault : Fault) : Machine × Outcome :=
  (m, .failed fault)

/-- Goes on at an address. -/
def jump (m : Machine) (address : Nat) : Machine × Outcome :=
  ({ m with pc := address }, .paused)

/-- Goes on with the next instruction. -/
def advance (m : Machine) : Machine × Outcome :=
  m.jump (m.pc + 1)

/-- Pushes a value and goes on with the next instruction. -/
def push (m : Machine) (value : Value) : Machine × Outcome :=
  { m with stack := value :: m.stack }.advance

/-- Pops a truth value.  Any other value is popped too, but fails. -/
def popBoolean (m : Machine) (use : Machine → Bool → Machine × Outcome) : Machine × Outcome :=
  match m.stack with
  | .boolean value :: stack => use { m with stack := stack } value
  | _ :: stack => { m with stack := stack }.fail (.stackUnderflow m.pc)
  | [] => m.fail (.stackUnderflow m.pc)

/-- Pops two truth values, of which the upper one is the right operand, and pushes what they are
combined to. -/
def combine (m : Machine) (operation : Bool → Bool → Bool) : Machine × Outcome :=
  m.popBoolean fun m right => m.popBoolean fun m left => m.push (.boolean (operation left right))

/-- Carries out an action. -/
def perform (m : Machine) (which : Action) : Machine × Outcome :=
  match m.world.perform which with
  | .ok world => { m with world := world }.advance
  | .error fault => m.fail (.world fault)

/-- Pushes the answer to a question. -/
def query (m : Machine) (which : Predicate) : Machine × Outcome :=
  match m.world.ask which with
  | .ok answer => m.push (.boolean answer)
  | .error fault => m.fail (.world fault)

/-- A command that was passed to the current one, counted back from the return address. -/
def argument (m : Machine) (index : UInt16) : Except Fault UInt16 :=
  match m.stack.dropWhile (fun value => !value.isReturnAddress) with
  | [] => .error (.stackUnderflow m.pc)
  | frame =>
    match frame[index.toNat]? with
    | none => .error (.stackUnderflow m.pc)
    | some (.command reference) => .ok reference
    | some _ => .error (.notACommand m.pc)

/-- Enters the command at an address. -/
def enter (p : Program) (m : Machine) (site : Instruction) (address : Nat) : Machine × Outcome :=
  match p.returnFrom? address with
  | none => m.fail (.outOfBounds address)
  | some closing =>
    { m with
      events := .entered site closing :: m.events
      stack := .returnAddress (UInt16.ofNat m.pc) :: m.stack
      callDepth := m.callDepth + 1 }.jump address

/-- Carries out or enters a command that was passed on. -/
def callPassed (p : Program) (m : Machine) (site : Instruction) (reference : UInt16) :
    Machine × Outcome :=
  match Action.ofOpcode? reference with
  | some which => m.perform which
  | none =>
    if Program.entryPoint ≤ reference.toNat then m.enter p site reference.toNat
    else m.fail (.notACommand m.pc)

/-- Counts a loop down.  A value that is no loop counter is popped too, but fails. -/
def loop (m : Machine) (back : UInt16) : Machine × Outcome :=
  match m.stack with
  | .loopCounter remaining :: stack =>
    if 1 < remaining then
      { m with stack := .loopCounter (remaining - 1) :: stack }.jump back.toNat
    else { m with stack := stack }.advance
  | _ :: stack => { m with stack := stack }.fail (.stackUnderflow m.pc)
  | [] => m.fail (.stackUnderflow m.pc)

/-- Leaves the current command, with the commands that were passed to it.  With nothing on the
stack it is the first one, and the program is finished. -/
def leave (m : Machine) : Machine × Outcome :=
  match m.stack with
  | [] => ({ m with finished := true }, .finished)
  | .returnAddress caller :: stack =>
    { m with
      events := .left :: m.events
      stack := stack.dropWhile Value.isCommand
      callDepth := m.callDepth - 1 }.jump (caller.toNat + 1)
  | _ :: stack =>
    { m with events := .left :: m.events, stack := stack }.fail (.stackUnderflow m.pc)

/-! ## Instructions -/

/-- Executes an operation, which the instruction `site` stands for. -/
def execute (p : Program) (m : Machine) (site : Instruction) : Op → Machine × Outcome
  | .ret => m.leave
  | .action which => m.perform which
  | .query which => m.query which
  | .literal value => m.push (.boolean value)
  | .not => m.popBoolean fun m value => m.push (.boolean !value)
  | .and => m.combine and
  | .or => m.combine or
  | .pass reference => m.push (.command reference)
  | .forward index =>
    match m.argument index with
    | .ok reference => m.push (.command reference)
    | .error fault => m.fail fault
  | .callParameter index =>
    match m.argument index with
    | .ok reference => m.callPassed p site reference
    | .error fault => m.fail fault
  | .push times => m.push (.loopCounter times)
  | .loop target => m.loop target
  | .call target => m.enter p site target.toNat
  | .jump target => m.jump target.toNat
  | .jumpUnless target =>
    m.popBoolean fun m value => if value then m.advance else m.jump target.toNat
  | .jumpIf target =>
    m.popBoolean fun m value => if value then m.jump target.toNat else m.advance

/-- Executes the next instruction.  A machine that is finished stays as it is. -/
def step (p : Program) (m : Machine) : Machine × Outcome :=
  if m.finished then (m, .finished)
  else
    match m.current? p with
    | none => m.fail (.outOfBounds m.pc)
    | some i =>
      match i.op? with
      | none => m.fail (.illegalBytecode i.bytecode m.pc)
      | some op => m.execute p i op

end Machine
end KarelRobot
