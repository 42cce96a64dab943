import KarelRobot.Machine

/-!
# Stack traces

The stack as text, a line for each value.  Addresses are hexadecimal and counters decimal, both at
the right end of four columns.

* `Machine.Value.text` — one value.
* `Machine.stackTrace` — a whole stack, its top first.
-/

set_option autoImplicit false
namespace KarelRobot
namespace Machine

open Text (hex hexPadded decimal padLeft)

/-- A value as text. -/
def Value.text : Value → String
  | returnAddress address => padLeft ' ' 4 (hex address.toNat)
  | loopCounter remaining => padLeft ' ' 4 (decimal remaining.toNat)
  | boolean false => "false"
  | boolean true => "true"
  | command reference =>
    match Action.ofOpcode? reference with
    | some which => which.mnemonic
    | none => "@" ++ hexPadded 3 reference.toNat

/-- A stack as text, its top first. -/
def stackTrace (stack : List Value) : String :=
  String.join (stack.map fun value => value.text ++ "\n")

end Machine
end KarelRobot
