import KarelRobot.Script.Assembly
import KarelRobot.Script.Reader
import KarelRobot.Script.Review

/-!
# Compiling

A source text becomes a program in three steps: the text is read as a script, the script is
reviewed as a whole, and the commands that can be reached from the first one to run are put into
machine code.  A step that finds problems is the last one.

* `compile` — the program of a source text, or what is wrong with it.
-/

set_option autoImplicit false
namespace KarelRobot

/-- The command that a script starts with unless another one is chosen: the first one. -/
def Script.defaultEntry (script : Script) : String :=
  match script.commands with
  | command :: _ => command.name
  | [] => "main"

/-- The program of a script that starts with the command `entry`. -/
def Script.compile (script : Script) (entry : String) (level : Level) :
    Except (List Diagnostic) Program :=
  match script.review entry level with
  | [] => (Program.ofCommands (script.reachable entry)).mapError fun d => [d]
  | problems => .error problems

/-- The program of a source text that starts with the command `entry`, or with the first command if
none is chosen. -/
def compile (source : String) (entry : Option String) (level : Level) :
    Except (List Diagnostic) Program :=
  match Script.parse source with
  | .error d => .error [d]
  | .ok script => script.compile (entry.getD script.defaultEntry) level

end KarelRobot
