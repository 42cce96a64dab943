import KarelRobot.Builtin
import KarelRobot.Text.Numeral

/-!
# Instructions

The machine code of the robot.  An instruction is a word of sixteen bits.  Its upper four bits are
the category.  In category zero the whole word is a number of its own; in the others the lower
twelve bits are an operand, mostly an address.

* `Op` — the operations, `Op.encode` the word of an operation and `Op.decode` the operation of a
  word.  Not every word has one.
* `Instruction` — a word, with the position of the source that it comes from if it has one.
* `Instruction.pauses` — where a debugger stops.
* `Reference` — the ways to name a command, with the operations that call it and pass it on.
-/

set_option autoImplicit false
namespace KarelRobot

open Text (hexPadded)

/-! ## Operations -/

/-- What an instruction tells the machine to do. -/
inductive Op where
  /-- Leave the current command. -/
  | ret
  | action (which : Action)
  /-- Push the answer to a question. -/
  | query (which : Predicate)
  /-- Push a truth value. -/
  | literal (value : Bool)
  | not
  | and
  | or
  /-- Push the command to pass on: a built-in command or an address. -/
  | pass (command : UInt16)
  /-- Push a command that was passed to the current command. -/
  | forward (index : UInt16)
  /-- Call a command that was passed to the current command. -/
  | callParameter (index : UInt16)
  /-- Push a loop counter. -/
  | push (times : UInt16)
  /-- Count a loop down and jump back unless it is done. -/
  | loop (target : UInt16)
  | call (target : UInt16)
  | jump (target : UInt16)
  /-- Pop a truth value and jump if it is false. -/
  | jumpUnless (target : UInt16)
  /-- Pop a truth value and jump if it is true. -/
  | jumpIf (target : UInt16)
deriving Repr, DecidableEq

namespace Op

/-- The word of an operation.  The operand should fit into twelve bits: more of them spill over
into the category. -/
def encode : Op → UInt16
  | ret => 0x0000
  | action which => which.opcode
  | query which => which.opcode
  | literal false => 0x000c
  | literal true => 0x000d
  | not => 0x000e
  | and => 0x000f
  | or => 0x0010
  | pass command => 0x1000 ||| command
  | forward index => 0x2000 ||| index
  | callParameter index => 0x3000 ||| index
  | push times => 0x8000 ||| times
  | loop target => 0x9000 ||| target
  | call target => 0xa000 ||| target
  | jump target => 0xb000 ||| target
  | jumpUnless target => 0xc000 ||| target
  | jumpIf target => 0xd000 ||| target

/-- The operation of a word of category zero. -/
def decodePlain (word : UInt16) : Option Op :=
  if word = 0x0000 then some ret
  else if word = 0x000c then some (literal false)
  else if word = 0x000d then some (literal true)
  else if word = 0x000e then some not
  else if word = 0x000f then some and
  else if word = 0x0010 then some or
  else
    match Action.ofOpcode? word with
    | some which => some (action which)
    | none => (Predicate.ofOpcode? word).map query

/-- The operation of a category other than zero. -/
def ofCategory? (category operand : UInt16) : Option Op :=
  if category = 0x1000 then some (pass operand)
  else if category = 0x2000 then some (forward operand)
  else if category = 0x3000 then some (callParameter operand)
  else if category = 0x8000 then some (push operand)
  else if category = 0x9000 then some (loop operand)
  else if category = 0xa000 then some (call operand)
  else if category = 0xb000 then some (jump operand)
  else if category = 0xc000 then some (jumpUnless operand)
  else if category = 0xd000 then some (jumpIf operand)
  else none

/-- The operation of a word, if it has one. -/
def decode (word : UInt16) : Option Op :=
  let category := word &&& 0xf000
  if category = 0 then decodePlain word else ofCategory? category (word &&& 0x0fff)

/-- An operation in a listing. -/
def mnemonic : Op → String
  | ret => "RET"
  | action which => which.mnemonic
  | query which => which.mnemonic
  | literal false => "FALS"
  | literal true => "TRUE"
  | not => "NOT"
  | and => "AND"
  | or => "OR"
  | pass command => "PASS " ++ hexPadded 3 command.toNat
  | forward index => "FWRD " ++ hexPadded 3 index.toNat
  | callParameter index => "CALP " ++ hexPadded 3 index.toNat
  | push times => "PUSH " ++ hexPadded 3 times.toNat
  | loop target => "LOOP " ++ hexPadded 3 target.toNat
  | call target => "CALL " ++ hexPadded 3 target.toNat
  | jump target => "JUMP " ++ hexPadded 3 target.toNat
  | jumpUnless target => "ELSE " ++ hexPadded 3 target.toNat
  | jumpIf target => "THEN " ++ hexPadded 3 target.toNat

/-- When a debugger stops in front of an operation. -/
inductive Pause where
  | always
  /-- Only where the instruction comes from a source. -/
  | fromSource
  | never
deriving Repr, DecidableEq

/-- When a debugger stops in front of an operation: always before the robot does something, and in
a source program wherever the reader of that source sees something happen. -/
def pause : Op → Pause
  | action _ => .always
  | ret | query _ | literal _ | push _ | loop _ | call _ | callParameter _ => .fromSource
  | not | and | or | pass _ | forward _ | jump _ | jumpUnless _ | jumpIf _ => .never

end Op

/-! ## Words in a program -/

/-- An instruction of a program. -/
structure Instruction where
  bytecode : UInt16
  /-- The position of the source that the instruction comes from. -/
  position : Option Nat
deriving Repr, DecidableEq

namespace Instruction

/-- The instruction of an operation at a position of the source. -/
def ofOp (op : Op) (position : Nat) : Instruction :=
  ⟨op.encode, some position⟩

/-- The instruction of an operation that comes from no source. -/
def synthetic (op : Op) : Instruction :=
  ⟨op.encode, none⟩

/-- The upper four bits of an instruction. -/
def category (i : Instruction) : UInt16 :=
  i.bytecode &&& 0xf000

/-- The lower twelve bits of an instruction. -/
def operand (i : Instruction) : UInt16 :=
  i.bytecode &&& 0x0fff

/-- The instruction with another operand, of which it keeps twelve bits. -/
def retarget (i : Instruction) (operand : UInt16) : Instruction :=
  ⟨i.category ||| (operand &&& 0x0fff), i.position⟩

/-- Does the instruction come from a source? -/
def isFromSource (i : Instruction) : Bool :=
  i.position.isSome

/-- The operation of an instruction, if it has one. -/
def op? (i : Instruction) : Option Op :=
  Op.decode i.bytecode

/-- Does a debugger stop in front of the instruction? -/
def pauses (i : Instruction) : Bool :=
  match i.op?.map Op.pause with
  | some .always => true
  | some .fromSource => i.isFromSource
  | some .never | none => false

/-- The instruction in a listing. -/
def mnemonic (i : Instruction) : String :=
  match i.op? with
  | some op => op.mnemonic
  | none => "?" ++ hexPadded 4 i.bytecode.toNat

/-- Is this the instruction that leaves a command? -/
def isReturn (i : Instruction) : Bool :=
  i.bytecode == Op.ret.encode

end Instruction

/-! ## References to commands -/

/-- What the name of a command refers to. -/
inductive Reference where
  /-- A command of the script, by its number. -/
  | direct (number : UInt16)
  | builtin (which : Action)
  /-- A parameter, counted back from the last one, which is number one. -/
  | parameter (index : UInt16)
deriving Repr, DecidableEq

namespace Reference

/-- The operation that calls the command. -/
def callOp : Reference → Op
  | direct number => .call number
  | builtin which => .action which
  | parameter index => .callParameter index

/-- The operation that passes the command on. -/
def argumentOp : Reference → Op
  | direct number => .pass number
  | builtin which => .pass which.opcode
  | parameter index => .forward index

/-- Is the number still to be replaced by an address? -/
def isPending : Reference → Bool
  | direct _ => true
  | builtin _ | parameter _ => false

end Reference
end KarelRobot
