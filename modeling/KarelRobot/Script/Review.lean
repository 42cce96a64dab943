import KarelRobot.Diagnostic
import KarelRobot.Level
import KarelRobot.Script.CallGraph

/-!
# Reviewing a script

Before a script is compiled it is looked at as a whole: whether its names are defined once and only
once, whether the command to start with exists and takes nothing, and whether the commands that can
be reached use only what the course has introduced.  A review lists everything that it finds.

* `Script.review` — all problems of a script, in the order of their positions.
-/

set_option autoImplicit false
namespace KarelRobot

namespace Script

/-- The commands that take the name of a built-in command or of one of the commands `earlier`. -/
def redefinitionsFrom (earlier : List Command) : List Command → List Diagnostic
  | [] => []
  | command :: following =>
    let rest := redefinitionsFrom (earlier ++ [command]) following
    match earlier.find? fun other => other.name == command.name with
    | some first =>
      ⟨command.ident.position, .redefinedCommand command.name first.ident.position, none⟩ :: rest
    | none =>
      if (Action.ofName? command.name).isSome then
        ⟨command.ident.position, .redefinedBuiltin command.name, none⟩ :: rest
      else rest

/-- The commands whose name is already taken. -/
def redefinitions (script : Script) : List Diagnostic :=
  redefinitionsFrom [] script.commands

/-- Is a name defined, by the script or from the start? -/
def isDefined (script : Script) (name : String) : Bool :=
  (script.find? name).isSome || (Action.ofName? name).isSome

/-- The names that are called or passed on and that nothing is called. -/
def undefinedNames (script : Script) : List Diagnostic :=
  let candidates := script.commands.map Command.name ++ Action.names
  script.commands.flatMap fun command =>
    (command.globals.filter fun ident => !script.isDefined ident.text).map fun ident =>
      .unknownName ident.text ident.position
        (some (Problem.undefinedCommandHeadline ident.text)) candidates

/-- What is wrong with the command to start with. -/
def entryProblems (script : Script) (entry : String) : List Diagnostic :=
  match script.find? entry with
  | none => [⟨0, .undefinedEntry entry, none⟩]
  | some command =>
    if command.parameters.isEmpty then []
    else [⟨command.ident.position, .entryTakesParameters entry, none⟩]

/-- The positions of the loops with a condition inside a command, in source order. -/
def whilePositions (command : Command) : List Nat :=
  command.body.walk.filterMap fun statement =>
    match statement with
    | .whileLoop position _ _ => some position
    | _ => none

/-- The loops with a condition that can be reached before the course has introduced them. -/
def earlyLoops (script : Script) (entry : String) (level : Level) : List Diagnostic :=
  if level.allowsWhile then []
  else
    (script.reachable entry).flatMap fun command =>
      (whilePositions command).map fun position => ⟨position, .whileNotAllowed, none⟩

/-- The recursive commands that can be reached before the course has introduced recursion. -/
def earlyRecursion (script : Script) (entry : String) (level : Level) : List Diagnostic :=
  if level.allowsRecursion then []
  else
    (script.recursive entry).map fun command =>
      ⟨command.ident.position, .recursionNotAllowed, none⟩

/-- All problems of a script that is to start with the command `entry`, in the order of their
positions; problems at one position stay in the order of the checks. -/
def review (script : Script) (entry : String) (level : Level) : List Diagnostic :=
  (script.redefinitions ++ script.undefinedNames ++ script.entryProblems entry ++
    script.earlyLoops entry level ++ script.earlyRecursion entry level).mergeSort
      fun a b => decide (a.position ≤ b.position)

end Script
end KarelRobot
