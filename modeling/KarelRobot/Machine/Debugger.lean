import KarelRobot.Machine

/-!
# Stepping and running

The operations of a debugger, all of them made of single instructions.  A *visible* step executes
one instruction.  A *hidden* step stops only where the reader of the source sees something happen
and runs through all other instructions silently.

A program may run forever, so running has limits.  Silent instructions are given a number of
instructions to get through; `none` says that they did not.  The operations that wait for a command
or for the whole program to end look at a clock from time to time.  What they can know of it is how
many looks it takes until the time is up, and that number is all they are given: zero looks means
that the time is up already.

* `Machine.stepInto` — one step, visible or hidden.
* `Machine.stepOver`, `Machine.stepReturn` — a step, and on to the end of a command.
* `Machine.run` — on to the end of the program.
-/

set_option autoImplicit false
namespace KarelRobot
namespace Machine

/-- Stops because the time is up. -/
def giveUp (p : Program) (m : Machine) : Machine × Outcome :=
  { m with events := .gaveUp :: m.events }.fail
    (.infiniteLoop ((m.current? p).bind Instruction.position))

/-! ## Steps -/

/-- Executes instructions until the next one is worth a pause, no more than `limit` of them. -/
def runSilently (p : Program) : (limit : Nat) → Machine → Option (Machine × Outcome)
  | 0, _ => none
  | limit + 1, m =>
    if m.finished then some (m, .finished)
    else
      match m.current? p with
      | none => some (m.fail (.outOfBounds m.pc))
      | some i =>
        if i.pauses then some (m, .paused)
        else
          match m.step p with
          | (next, .paused) => runSilently p limit next
          | stopped => some stopped

/-- Executes one instruction that is worth a pause, and the silent ones around it. -/
def stepHidden (p : Program) (limit : Nat) (m : Machine) : Option (Machine × Outcome) :=
  match runSilently p limit m with
  | some (ready, .paused) =>
    match ready.step p with
    | (next, .paused) => runSilently p limit next
    | stopped => some stopped
  | stopped => stopped

/-- Executes one step, of one instruction if the machine code is visible. -/
def stepInto (p : Program) (limit : Nat) (visible : Bool) (m : Machine) :
    Option (Machine × Outcome) :=
  if visible then some (m.step p) else m.stepHidden p limit

/-- Executes instructions until no more than `depth` calls are left, looking at the clock before
each of them. -/
def runToDepth (p : Program) (depth : Int) : (looks : Nat) → Machine → Machine × Outcome
  | 0, m => if depth < m.callDepth then m.giveUp p else (m, .paused)
  | looks + 1, m =>
    if depth < m.callDepth then
      match m.step p with
      | (next, .paused) => runToDepth p depth looks next
      | stopped => stopped
    else (m, .paused)

/-- Executes one hidden step, and then goes on until no more than `depth` calls are left. -/
def stepToDepth (p : Program) (limit looks : Nat) (depth : Int) (m : Machine) :
    Option (Machine × Outcome) :=
  match m.stepHidden p limit with
  | some (next, .paused) => some (next.runToDepth p depth looks)
  | stopped => stopped

/-- Executes one hidden step, together with the commands that it enters. -/
def stepOver (p : Program) (limit looks : Nat) (m : Machine) : Option (Machine × Outcome) :=
  m.stepToDepth p limit looks m.callDepth

/-- Goes on until the current command has been left. -/
def stepReturn (p : Program) (limit looks : Nat) (m : Machine) : Option (Machine × Outcome) :=
  m.stepToDepth p limit looks (m.callDepth - 1)

/-! ## Running -/

/-- How many instructions a program runs between two looks at the clock. -/
def sliceSize : Nat := 1000

/-- Executes a number of instructions. -/
def runSlice (p : Program) : (count : Nat) → Machine → Machine × Outcome
  | 0, m => (m, .paused)
  | count + 1, m =>
    match m.step p with
    | (next, .paused) => runSlice p count next
    | stopped => stopped

/-- Runs a program to its end, looking at the clock after each slice. -/
def run (p : Program) : (looks : Nat) → Machine → Machine × Outcome
  | 0, m =>
    match m.runSlice p sliceSize with
    | (next, .paused) => next.giveUp p
    | stopped => stopped
  | looks + 1, m =>
    match m.runSlice p sliceSize with
    | (next, .paused) => run p looks next
    | stopped => stopped

end Machine
end KarelRobot
