import KarelRobot.Instruction

/-!
# Programs

A program of the machine is a sequence of instructions.  The addresses below `Program.entryPoint`
are reserved, so that an address of a command is never mistaken for the number of a built-in one;
a machine starts right behind them.

* `Program.ofCode` — a program behind the reserved addresses.
* `Program.goal` — a program that carries out a list of actions.
* `Program.listing` — the program as text.
-/

set_option autoImplicit false
namespace KarelRobot

/-- A sequence of instructions, each at the address of its place. -/
structure Program where
  instructions : Array Instruction
deriving Repr, DecidableEq

namespace Program

/-- Where every program starts.  The addresses below are reserved. -/
def entryPoint : Nat := 256

/-- How many instructions a program may have: as many as addresses fit into an operand. -/
def maxSize : Nat := 0x1000

/-- The instructions at the reserved addresses. -/
def reserved : List Instruction :=
  List.replicate entryPoint (Instruction.synthetic .ret)

/-- The program that consists of `code` behind the reserved addresses. -/
def ofCode (code : List Instruction) : Program :=
  ⟨(reserved ++ code).toArray⟩

/-- The program that carries out a list of actions.  It comes from no source. -/
def goal (actions : List Action) : Program :=
  ofCode (actions.map (fun action => .synthetic (.action action)) ++ [.synthetic .ret])

/-- The number of instructions, reserved ones included. -/
def size (p : Program) : Nat :=
  p.instructions.size

/-- The instruction at an address. -/
def get? (p : Program) (address : Nat) : Option Instruction :=
  p.instructions[address]?

/-- The instructions behind the reserved addresses. -/
def code (p : Program) : List Instruction :=
  p.instructions.toList.drop entryPoint

/-- The line of a listing for an instruction at an address. -/
def listingLine (address : Nat) (i : Instruction) : String :=
  Text.hexPadded 3 address ++ ": " ++ i.mnemonic ++ "\n"

/-- The lines of a listing for instructions from an address on. -/
def listingLines (address : Nat) : List Instruction → List String
  | [] => []
  | i :: following => listingLine address i :: listingLines (address + 1) following

/-- The program as text, without the reserved addresses: a line for each instruction. -/
def listing (p : Program) : String :=
  String.join (listingLines entryPoint p.code)

/-- The first instruction that leaves a command, from an address on. -/
def returnFrom? (p : Program) (address : Nat) : Option Instruction :=
  if h : address < p.instructions.size then
    if p.instructions[address].isReturn then some p.instructions[address]
    else p.returnFrom? (address + 1)
  else none
termination_by p.instructions.size - address

end Program
end KarelRobot
