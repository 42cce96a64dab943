import KarelRobot.CommandLine.Arguments

/-!
# The program

Reads files, looks at the clock and prints.  Everything else is decided in
`KarelRobot.CommandLine`.
-/

set_option autoImplicit false
namespace KarelRobot
namespace CommandLine

/-- Printed for a wrong command line. -/
def usage : String :=
  "usage: karel <check|disasm|run> FILE [--entry NAME] [--level LEVEL]\n" ++
    "       check: [--format text|json]\n" ++
    "       run:   [--step] [--timeout-ms MILLISECONDS]\n"

/-- How many silent instructions a step may take: more than a program has time for. -/
def silentLimit : Nat := 1000000000000000

/-- Prints what there is to print and hands over the exit code. -/
def emit (printout : Printout) : IO UInt32 := do
  (← IO.getStdout).putStr printout.out
  (← IO.getStderr).putStr printout.err
  return UInt32.ofNat printout.exit

/-- The contents of a file, or why it cannot be read. -/
def readContents (path : String) : IO (Except Printout (Option ByteArray)) := do
  try
    return .ok (some (← IO.FS.readBinFile path))
  catch
    | .noFileOrDirectory .. => return .ok none
    | error => return .error (unusable ("Failed to read " ++ path ++ ": " ++ error.toString))

/-- Runs a program until the clock shows `deadline`. -/
partial def runTimed (p : Program) (deadline : Nat) (m : Machine) :
    IO (Machine × Machine.Outcome) := do
  match m.runSlice p Machine.sliceSize with
  | (next, .paused) =>
    if deadline ≤ (← IO.monoMsNow) then return next.giveUp p
    else runTimed p deadline next
  | stopped => return stopped

/-- Runs a program step by step until the clock shows `deadline`, and prints each step. -/
partial def stepTimed (p : Program) (source : String) (deadline : Nat) (m : Machine) :
    IO (Machine × Machine.Outcome) := do
  (← IO.getStdout).putStr (stepLine p source m)
  match m.stepHidden p silentLimit with
  | none => return (m, timeUp p m)
  | some (next, .paused) =>
    if deadline ≤ (← IO.monoMsNow) then return (next, timeUp p next)
    else stepTimed p source deadline next
  | some stopped => return stopped

/-- Does what an invocation asks for. -/
def Invocation.perform (invocation : Invocation) (path : String) : IO UInt32 := do
  match ← readContents path with
  | .error printout => emit printout
  | .ok contents =>
    match invocation.plan path contents with
    | .print printout => emit printout
    | .run stepwise timeout source p =>
      let deadline := (← IO.monoMsNow) + timeout
      let m := Machine.start World.start
      let (m, outcome) ←
        if stepwise then stepTimed p source deadline m else runTimed p deadline m
      emit (printRun source "" p m outcome)

/-- Runs the program for the words of a command line. -/
def perform (words : List String) : IO UInt32 := do
  let environment : Environment :=
    ⟨← IO.getEnv "KAREL_ENTRY", ← IO.getEnv "KAREL_LEVEL", ← IO.getEnv "KAREL_TIMEOUT_MS"⟩
  let invocation? := do
    let (request, path) ← Arguments.parse words
    return (← request.resolve environment, path)
  match invocation? with
  | some (invocation, path) => invocation.perform path
  | none => emit ⟨2, "", usage⟩

end CommandLine
end KarelRobot

/-- The entry point. -/
def main (words : List String) : IO UInt32 :=
  KarelRobot.CommandLine.perform words
