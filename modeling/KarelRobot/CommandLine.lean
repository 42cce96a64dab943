import KarelRobot.Compile
import KarelRobot.Console.Json
import KarelRobot.Console.Report
import KarelRobot.Machine.Debugger
import KarelRobot.World.Picture

/-!
# The command line

What the program prints for a command line, as far as it does not depend on a real clock or a real
file system.  A `Request` holds the options as they were typed; `Request.resolve` gives them a
meaning, with the environment behind them, and an `Invocation` is what is then to be done.

* `check` reports what is wrong with a program,
* `disasm` prints its machine code,
* `run` runs it in an empty room and prints the room at the end, and on demand each step.

Main definitions:

* `Request.resolve` — the invocation that a request means, unless it is a wrong one.
* `Invocation.plan` — what is to be printed, or the program that is to be run.
* `Invocation.print` — everything that an invocation prints, and its exit code.
-/

set_option autoImplicit false
namespace KarelRobot
namespace CommandLine

open Text (decimal hexPadded padRight)
open Console (Report paint bold)

/-! ## Requests -/

/-- How `check` prints its findings. -/
inductive Format where
  | text
  | json
deriving Repr, DecidableEq

/-- The format of a name. -/
def Format.ofName? (name : String) : Option Format :=
  if name = "text" then some .text
  else if name = "json" then some .json
  else none

/-- Options as they were typed. -/
structure Request where
  command : String
  entry : Option String
  level : Option String
  format : Option String
  timeout : Option String
  step : Bool

/-- Options from the environment, for those that were not typed. -/
structure Environment where
  entry : Option String
  level : Option String
  timeout : Option String

/-- What is to be done with a program. -/
inductive Task where
  | check (format : Format)
  | disasm
  /-- Run it for a number of milliseconds, perhaps step by step. -/
  | run (stepwise : Bool) (timeout : Nat)
deriving Repr, DecidableEq

/-- What is to be done with which program. -/
structure Invocation where
  task : Task
  entry : Option String
  level : Level
deriving Repr, DecidableEq

/-- The limit in milliseconds if none is given. -/
def defaultTimeout : Nat := 10000

/-- The greatest limit that can be given. -/
def maxTimeout : Nat := 0xffffffffffffffff

/-- The task of a request.  Options that do not belong to the command are wrong. -/
def Request.task? (request : Request) (environment : Environment) : Option Task :=
  match request.command with
  | "check" =>
    if request.timeout.isSome || request.step then none
    else
      match request.format with
      | none => some (.check .text)
      | some name => (Format.ofName? name).map .check
  | "disasm" =>
    if request.format.isSome || request.timeout.isSome || request.step then none
    else some .disasm
  | "run" =>
    if request.format.isSome then none
    else
      match request.timeout.or environment.timeout with
      | none => some (.run request.step defaultTimeout)
      | some text => (Text.readNat? maxTimeout text).map (.run request.step)
  | _ => none

/-- The level of a request, the highest one if none is given. -/
def Request.level? (request : Request) (environment : Environment) : Option Level :=
  match request.level.or environment.level with
  | none => some .recursion
  | some text => (Level.parse text).toOption

/-- The invocation that a request means; none if it is wrong. -/
def Request.resolve (request : Request) (environment : Environment) : Option Invocation := do
  let task ← request.task? environment
  let level ← request.level? environment
  return ⟨task, request.entry.or environment.entry, level⟩

/-! ## Printing -/

/-- What a program prints, and its exit code. -/
structure Printout where
  exit : Nat
  out : String
  err : String
deriving Repr, DecidableEq

/-- Lines of text, each with its end. -/
def unlines (lines : List String) : String :=
  String.join (lines.map fun line => line ++ "\n")

/-- What is printed if the file cannot be used. -/
def unusable (reason : String) : Printout :=
  ⟨1, "", unlines [bold (paint .red "error") ++ ": " ++ paint .red reason]⟩

/-- The text in a file.  A file that does not exist has no contents. -/
def readSource (path : String) (contents : Option ByteArray) : Except Printout String :=
  match contents with
  | none => .error (unusable ("File not found: " ++ path))
  | some bytes =>
    match String.fromUTF8? bytes with
    | some source => .ok source
    | none =>
      .error (unusable ("Failed to read " ++ path ++ ": stream did not contain valid UTF-8"))

/-- The reports of everything wrong with a source. -/
def reportLines (source : String) (problems : List Diagnostic) : List String :=
  problems.flatMap fun d => (Report.ofDiagnostic d).lines source

/-- What `check` prints. -/
def printCheck (format : Format) (path source : String)
    (result : Except (List Diagnostic) Program) : Printout :=
  match format, result with
  | .json, .ok _ => ⟨0, "[]\n", ""⟩
  | .json, .error problems => ⟨1, Console.jsonDiagnostics source problems ++ "\n", ""⟩
  | .text, .ok p =>
    ⟨0, path ++ ": " ++ paint .green "ok" ++ " (" ++ decimal p.code.length ++ " instructions)\n",
      ""⟩
  | .text, .error problems =>
    ⟨1, "", unlines (reportLines source problems ++
      [decimal problems.length ++ " error(s) in " ++ path])⟩

/-- What `run` prints at the end, behind what it has printed before. -/
def printRun (source printed : String) (p : Program) (m : Machine) (outcome : Machine.Outcome) :
    Printout :=
  match outcome with
  | .failed fault =>
    ⟨1, printed, m.world.picture ++ unlines ((Report.ofFault p m fault).lines source)⟩
  | .paused | .finished => ⟨0, printed ++ m.world.picture, ""⟩

/-! ## Running -/

/-- The line for the instruction that is next, if it is worth one. -/
def stepLine (p : Program) (source : String) (m : Machine) : String :=
  match m.current? p with
  | none => ""
  | some i =>
    if i.pauses then
      let place := Text.place source (i.position.getD 0)
      hexPadded 3 m.pc ++ "  " ++ padRight ' ' 8 i.mnemonic ++ "  line " ++ decimal place.line ++
        "\n"
    else ""

/-- The fault of a program that did not finish in time. -/
def timeUp (p : Program) (m : Machine) : Machine.Outcome :=
  .failed (.infiniteLoop ((m.current? p).bind Instruction.position))

/-- Runs a program step by step behind what has been printed before.  The clock is looked at after
each step, and the time is up after `looks` of them. -/
def stepThrough (p : Program) (source : String) (limit : Nat) :
    (looks : Nat) → (printed : String) → Machine → Option (String × Machine × Machine.Outcome)
  | looks, printed, m =>
    let printed := printed ++ stepLine p source m
    match m.stepHidden p limit with
    | none => none
    | some (next, .paused) =>
      match looks with
      | 0 => some (printed, next, timeUp p next)
      | looks + 1 => stepThrough p source limit looks printed next
    | some (next, outcome) => some (printed, next, outcome)

/-- Runs a program in the empty room and prints what there is to print. -/
def printProgram (stepwise : Bool) (source : String) (limit looks : Nat) (p : Program) :
    Option Printout :=
  let m := Machine.start World.start
  if stepwise then
    (stepThrough p source limit looks "" m).map fun (printed, m, outcome) =>
      printRun source printed p m outcome
  else
    let (m, outcome) := m.run p looks
    some (printRun source "" p m outcome)

/-- What is left to do once the file has been read and compiled. -/
inductive Plan where
  | print (printout : Printout)
  | run (stepwise : Bool) (timeout : Nat) (source : String) (p : Program)

/-- What an invocation comes to for the contents of a file. -/
def Invocation.plan (invocation : Invocation) (path : String) (contents : Option ByteArray) :
    Plan :=
  match readSource path contents with
  | .error printout => .print printout
  | .ok source =>
    match invocation.task, compile source invocation.entry invocation.level with
    | .check format, result => .print (printCheck format path source result)
    | _, .error problems => .print ⟨1, "", unlines (reportLines source problems)⟩
    | .disasm, .ok p => .print ⟨0, p.listing, ""⟩
    | .run stepwise timeout, .ok p => .run stepwise timeout source p

/-- Everything that an invocation prints.  A program runs for `looks` looks at the clock; there is
no answer if it needs more than `limit` silent instructions for a step. -/
def Invocation.print (invocation : Invocation) (path : String) (contents : Option ByteArray)
    (limit looks : Nat) : Option Printout :=
  match invocation.plan path contents with
  | .print printout => some printout
  | .run stepwise _ source p => printProgram stepwise source limit looks p

end CommandLine
end KarelRobot
