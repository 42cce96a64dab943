import KarelRobot.Diagnostic
import KarelRobot.Script

/-!
# Names in scope

Every name that is called or passed on has to be known, and a call has to pass as many commands as
its target takes.  Inside a command its parameters are known too, hide everything else of the same
name and take nothing themselves.  Only commands that take nothing can be passed on.

* `Scope` — the known names with the number of commands that each of them takes.
* `Scope.callProblem?` — what is wrong with a call.
* `Script.scopeProblem?` — the first thing wrong with the names of a script, as a rule.
* `Scope.checkCallers` — the check of a script, in one table of names that changes on the way.
* `Manuscript` — a script before that check, with the calls that were recorded while it was read.
-/

set_option autoImplicit false
namespace KarelRobot

/-- The known names, each with the number of its parameters.  The first entry of a name counts. -/
abbrev Scope := List (String × Nat)

namespace Scope

/-- The built-in commands, which take nothing. -/
def builtins : Scope :=
  Action.names.map fun name => (name, 0)

/-- The built-in commands and those defined in a script. -/
def ofCommands (commands : List Command) : Scope :=
  commands.map (fun command => (command.name, command.parameters.length)) ++ builtins

/-- The scope inside a command with these parameters. -/
def inside (scope : Scope) (parameters : List Ident) : Scope :=
  parameters.map (fun parameter => (parameter.text, 0)) ++ scope

/-- The number of parameters of a known name. -/
def arity? (scope : Scope) (name : String) : Option Nat :=
  scope.lookup name

/-- The diagnostic for a name that is not known. -/
def undefined (scope : Scope) (ident : Ident) : Diagnostic :=
  .unknownName ident.text ident.position (some (Problem.undefinedCommandHeadline ident.text))
    (scope.map Prod.fst)

/-- What is wrong with a name that is passed on. -/
def argumentProblem? (scope : Scope) (argument : Ident) : Option Diagnostic :=
  match scope.arity? argument.text with
  | none => some (scope.undefined argument)
  | some 0 => none
  | some _ => some ⟨argument.position, .higherOrderArgument, none⟩

/-- What is wrong with a call: first its target, then how many commands it passes, then each of
them. -/
def callProblem? (scope : Scope) (call : Call) : Option Diagnostic :=
  match scope.arity? call.target.text with
  | none => some (scope.undefined call.target)
  | some arity =>
    if arity ≠ call.arguments.length then
      some ⟨call.target.position,
        .wrongArgumentCount call.target.text arity call.arguments.length, none⟩
    else call.arguments.findSome? scope.argumentProblem?

/-- The first parameter that repeats one of `seen` or one before it. -/
def duplicateParameter? (seen : List String) : List Ident → Option Diagnostic
  | [] => none
  | parameter :: following =>
    if parameter.text ∈ seen then
      some ⟨parameter.position, .duplicateParameter parameter.text, none⟩
    else duplicateParameter? (parameter.text :: seen) following

/-- What is wrong with the names inside a command: first its parameters, then its calls. -/
def commandProblem? (scope : Scope) (command : Command) : Option Diagnostic :=
  match duplicateParameter? [] command.parameters with
  | some problem => some problem
  | none => command.body.calls.findSome? (scope.inside command.parameters).callProblem?

/-- What is wrong with defining a command when the names in scope are already taken. -/
def definitionProblem? (scope : Scope) (command : Command) : Option Diagnostic :=
  match scope.arity? command.name with
  | none => none
  | some _ => some ⟨command.ident.position, .duplicateCommand command.name, none⟩

end Scope

/-- The first thing wrong with the names that the commands of a script call and pass on. -/
def Script.scopeProblem? (script : Script) : Option Diagnostic :=
  script.commands.findSome? (Scope.ofCommands script.commands).commandProblem?

/-! ## One table for all commands

The check keeps a single table of names.  The parameters of a command are put into it while the
calls of the command are looked at, and what they displace is put back afterwards. -/

/-- The calls that a command makes, with the parameters of the command. -/
structure Caller where
  parameters : List Ident
  calls : List Call
deriving Repr, DecidableEq

/-- The command as a caller. -/
def Command.caller (command : Command) : Caller :=
  ⟨command.parameters, command.body.calls⟩

namespace Scope

/-- Puts a name into the table.  If it is there already, its entry is overwritten. -/
def put (name : String) (arity : Nat) : Scope → Scope
  | [] => [(name, arity)]
  | entry :: scope =>
    if entry.1 = name then (name, arity) :: scope else entry :: put name arity scope

/-- Removes a name from the table. -/
def forget (name : String) (scope : Scope) : Scope :=
  scope.filter fun entry => entry.1 ≠ name

/-- The names that were put into the table, the last one first, each with the number that it had
before if it was there. -/
abbrev Displaced := List (String × Option Nat)

/-- Puts the parameters into the table, up to one that was displaced already. -/
def shadow (scope : Scope) (displaced : Displaced) :
    List Ident → Scope × Displaced × Option Diagnostic
  | [] => (scope, displaced, none)
  | parameter :: following =>
    if parameter.text ∈ displaced.map Prod.fst then
      (scope, displaced,
        some ⟨parameter.position, .duplicateParameter parameter.text, none⟩)
    else
      (scope.put parameter.text 0).shadow
        ((parameter.text, scope.arity? parameter.text) :: displaced) following

/-- Puts one name back. -/
def putBack (scope : Scope) (entry : String × Option Nat) : Scope :=
  match entry.2 with
  | some arity => scope.put entry.1 arity
  | none => scope.forget entry.1

/-- Puts back what was displaced, the last one first. -/
def restore (scope : Scope) (displaced : Displaced) : Scope :=
  displaced.foldl putBack scope

/-- Checks the parameters of a caller and then its calls.  Whatever is found, the table is
restored. -/
def checkCaller (scope : Scope) (caller : Caller) : Scope × Option Diagnostic :=
  match scope.shadow [] caller.parameters with
  | (shadowed, displaced, some problem) => (shadowed.restore displaced, some problem)
  | (shadowed, displaced, none) =>
    (shadowed.restore displaced, caller.calls.findSome? shadowed.callProblem?)

/-- Checks one caller after the other, up to the first one with which something is wrong. -/
def checkCallers (scope : Scope) : List Caller → Scope × Option Diagnostic
  | [] => (scope, none)
  | caller :: following =>
    match scope.checkCaller caller with
    | (restored, some problem) => (restored, some problem)
    | (restored, none) => restored.checkCallers following

end Scope

/-- A script whose calls have not been checked yet. -/
structure Manuscript where
  commands : List Command
  /-- The callers in the order of the commands, with the calls recorded while each was read. -/
  callers : List Caller

/-- What the check of the recorded calls comes to. -/
def Manuscript.callsProblem? (manuscript : Manuscript) : Option Diagnostic :=
  ((Scope.ofCommands manuscript.commands).checkCallers manuscript.callers).2

/-- What the check comes to with the calls that a script has. -/
def Script.callsProblem? (script : Script) : Option Diagnostic :=
  Manuscript.callsProblem? ⟨script.commands, script.commands.map Command.caller⟩

end KarelRobot
