import KarelRobot.Proofs.Occurrences
import KarelRobot.Proofs.Tokens

/-!
# What all stages see of a script

The calls of a script are collected twice.  The reader records them as it reads a command, and has
them checked when it has read all commands; what comes after it finds them again by walks over the
finished trees.  A call that only the walks met would be compiled without a check.  There is none:
the reader hands over what a walk meets, a walk meets every statement once, and it meets the
statements in the order in which they are written.

* `Command.caller_eq` — the calls of a command are those that a walk over it meets.
* `Grammar.Definitions.inOrder_of_mem` — the statements of a command start in the order of a walk.
* `Script.SeenAlike` — recorded calls, walks and the text agree.
* `stages_see_same_calls` — they do for every script that can be read.
-/

set_option autoImplicit false
namespace KarelRobot

theorem Command.caller_eq (c : Command) :
    c.caller = ⟨c.parameters, c.body.walk.filterMap Statement.call?⟩ := by
  rw [caller, Block.calls_eq]

theorem Grammar.Definitions.inOrder_of_mem {ts : List Token} {cs : List Command}
    (h : Grammar.Definitions ts cs) {c : Command} (hc : c ∈ cs) :
    Grammar.InOrder ts c.body.walk := by
  have horder := h.inOrder
  obtain ⟨before, behind, rfl⟩ := List.append_of_mem hc
  rw [List.flatMap_append, List.flatMap_cons] at horder
  exact horder.of_append_right.of_append_left

/-- The callers recorded of a script agree with walks over its commands, and these with the tokens
of its text. -/
structure Script.SeenAlike (script : Script) (tokens : List Token) (recorded : List Caller) :
    Prop where
  /-- The calls recorded of each command are those that a walk over it meets, in their order. -/
  callers : recorded =
    script.commands.map fun c => ⟨c.parameters, c.body.walk.filterMap Statement.call?⟩
  /-- A walk meets the statement at every path into a command, at any depth, once. -/
  once : ∀ c ∈ script.commands,
    Lists (fun path s => path ≠ [] ∧ c.at? path = some s) c.body.walk
  /-- The first tokens of the statements that it meets stand at increasing positions. -/
  increasing : ∀ c ∈ script.commands, ∃ firsts,
    List.Forall₂ (Grammar.Starts tokens) c.body.walk firsts ∧
      firsts.Pairwise fun t u => t.position < u.position

/-- **All stages see the same calls.**  If a text can be read, then the calls that the reader has
recorded and has had checked, command by command, are those that a walk over the command meets.
Such a walk meets every statement once, at increasing positions in the text. -/
theorem stages_see_same_calls {source : String} {script : Script}
    (h : Script.parse source = .ok script) :
    ∃ m, Manuscript.ofScan (Scan.ofText source) = .ok m ∧ m.commands = script.commands ∧
      script.SeenAlike (Scan.ofText source).tokens m.callers := by
  obtain ⟨m, hm, hcommands, -⟩ := Script.exists_manuscript h
  obtain ⟨-, hspells, -, -, hcallers⟩ := Manuscript.ofScan_sound hm
  rw [hcommands] at hspells hcallers
  refine ⟨m, hm, hcommands, ?_, fun c _ => c.lists_walk, fun c hc => ?_⟩
  · rw [hcallers]
    exact List.map_congr_left fun c _ => c.caller_eq
  · obtain ⟨firsts, hstarts, hsublist⟩ := hspells.inOrder_of_mem hc
    exact ⟨firsts, hstarts, (Scan.pairwise_position source).sublist hsublist⟩

/-- A script with calls in three cases inside a loop, behind the loop, and in a second command. -/
def patrol : String :=
  "void main() \x7b repeat (2) \x7b if (onBeeper()) { go(); } else if (true) { twice(go); }" ++
  " else { while (true) { go(); } } \x7d turnLeft(); \x7d" ++
  "void twice(void act()) { act(); act(); } void go() { }"

/-- Each command is handed over with its own calls. -/
theorem stages_see_same_calls_patrol :
    ∃ script m, Script.parse patrol = .ok script ∧
      Manuscript.ofScan (Scan.ofText patrol) = .ok m ∧ m.commands = script.commands ∧
      script.SeenAlike (Scan.ofText patrol).tokens m.callers ∧
      (m.callers.map fun caller => caller.calls.map fun call => call.target.text) =
        [["go", "twice", "go", "turnLeft"], ["act", "act"], []] := by
  obtain ⟨script, hscript, hwalks⟩ := exists_ok_of_any (x := Script.parse patrol)
    (f := fun script =>
      (script.commands.map fun c =>
        (c.body.walk.filterMap Statement.call?).map fun call => call.target.text) ==
          [["go", "twice", "go", "turnLeft"], ["act", "act"], []]) (by decide +kernel)
  obtain ⟨m, hm, hcommands, hseen⟩ := stages_see_same_calls hscript
  refine ⟨script, m, hscript, hm, hcommands, hseen, ?_⟩
  rw [hseen.callers, List.map_map]
  exact eq_of_beq hwalks

end KarelRobot
