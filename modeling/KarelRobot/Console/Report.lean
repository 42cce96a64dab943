import KarelRobot.Console.Paint
import KarelRobot.Diagnostic
import KarelRobot.Machine
import KarelRobot.Text.Blank
import KarelRobot.Text.Line
import KarelRobot.Text.Occurrence

/-!
# Reports for people

What is wrong, shown on a terminal: a headline, the line of the source with a mark below the place,
the rest of the message, and advice where there is some.

* `Console.Report` — a message about a place of a source.
* `Console.Report.lines` — the report as lines of text.
* `Console.advice` — what to do about a message.
-/

set_option autoImplicit false
namespace KarelRobot
namespace Console

open Text (decimal padLeft)

/-! ## Advice -/

/-- Advice on messages that contain one of some phrases. -/
structure Advice where
  phrases : List String
  headline : String
  details : List String

/-- All pieces of advice.  The first that fits a message is given. -/
def advice : List Advice :=
  [⟨["while loops are not allowed"],
    "💡 Help: repeat (n) \x7b ... \x7d covers a fixed number of steps.",
    ["Pass --level loops to allow while loops"]⟩,
   ⟨["recursion is not allowed"],
    "💡 Help: this command calls itself, directly or through other commands.",
    ["Pass --level recursion to allow it"]⟩,
   ⟨["entry command"],
    "💡 Help: choose the command to start with via --entry NAME.",
    ["Without --entry the first command in the file is used"]⟩,
   ⟨["cannot move through wall"],
    "💡 Help: check frontIsClear() before moveForward().",
    ["Example: if (frontIsClear()) \x7b moveForward(); \x7d"]⟩,
   ⟨["there is no beeper to pick"],
    "💡 Help: check onBeeper() before pickBeeper().",
    []⟩,
   ⟨["cannot drop another beeper"],
    "💡 Help: a cell holds at most one beeper; check onBeeper() first.",
    []⟩,
   ⟨["infinite loop detected"],
    "💡 Help: the program did not finish in time.",
    ["Make sure every while loop changes what its condition checks",
     "Raise the limit with --timeout-ms if the program is just slow"]⟩,
   ⟨["stack underflow", "illegal bytecode"],
    "💡 Help: Internal VM error - this might be a compiler bug.",
    ["Run `karel disasm` on the file and include the listing in a bug report"]⟩]

/-- The advice that fits a message, as lines of text. -/
def adviceLines (message : String) : List String :=
  match advice.find? fun a => a.phrases.any fun phrase => Text.occursIn phrase message with
  | none => []
  | some a =>
    paint .yellow a.headline ::
      a.details.map fun detail => "    " ++ paint .brightBlack detail

/-! ## Reports -/

/-- A message about a place of a source. -/
structure Report where
  /-- What kind of problem it is. -/
  kind : String
  position : Nat
  message : String
  /-- How many characters to mark, where that is known. -/
  highlight : Option Nat

namespace Report

/-- The report of something wrong with a source. -/
def ofDiagnostic (d : Diagnostic) : Report :=
  ⟨"Compile error", d.position, d.message, d.highlight⟩

/-- The report of a fault that stopped a machine. -/
def ofFault (p : Program) (m : Machine) (fault : Machine.Fault) : Report :=
  let here := (m.current? p).bind Instruction.position
  match fault with
  | .world _ => ⟨"Runtime error", here.getD 0, fault.message, none⟩
  | .infiniteLoop position => ⟨"Runtime error", position.getD 0, fault.message, none⟩
  | _ => ⟨"VM error", here.getD 0, fault.message, none⟩

/-- The lines of a message that say something: neither blank nor a mere bar. -/
def messageLines (message : String) : List String :=
  (Text.lines message).filter fun line =>
    let content := Text.trim line
    content != "" && content != "|"

/-- The line of the source that a report is about, with a mark below the place. -/
def snippet (report : Report) (source : String) (place : Text.Place) : List String :=
  match (Text.lines source)[place.line - 1]? with
  | none => []
  | some line =>
    let margin := padLeft ' ' 3 (decimal place.line) ++ " | "
    let indent := List.replicate (margin.length + (place.column - 1)) ' '
    let mark := List.replicate (max (report.highlight.getD 1) 1) '^'
    ["     |",
     paint .brightBlack margin ++ line,
     paint .red (String.ofList (indent ++ mark)) ++ paint .red " error here",
     "     |"]

/-- A report as lines of text. -/
def lines (report : Report) (source : String) : List String :=
  let place := Text.place source report.position
  let message := messageLines report.message
  [bold (paint .red report.kind) ++ ": " ++ paint .red (message.headD ""),
   "  --> line " ++ decimal place.line ++ ", column " ++ decimal place.column] ++
    report.snippet source place ++
    message.tail.map (fun line => "  " ++ paint .yellow line) ++
    adviceLines report.message

end Report
end Console
end KarelRobot
