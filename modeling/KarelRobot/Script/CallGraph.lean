import KarelRobot.Script

/-!
# Who calls whom

The commands of a script and the names they call or pass on form a graph.  A name stands for the
first command that is defined under it, unless it is a parameter of the command that uses it.

* `Script.callees` — the commands that a command calls or passes on.
* `Script.reachable` — the commands that can be reached from a name, in the order in which a
  depth-first search first visits them.
* `Script.recursive` — the reachable commands that lead back to themselves.
-/

set_option autoImplicit false
namespace KarelRobot

namespace Command

/-- The names that a command calls or passes on, its own parameters apart, in source order. -/
def globals (command : Command) : List Ident :=
  ((command.body.walk.filterMap Statement.call?).flatMap Call.references).filter fun ident =>
    !command.hasParameter ident.text

/-- The texts of the names that a command calls or passes on. -/
def globalNames (command : Command) : List String :=
  command.globals.map Ident.text

end Command

namespace CallGraph

/-- How much work commands can cause for a search: one step each, and one for each name they
mention. -/
def weight : List Command → Nat
  | [] => 0
  | command :: following => command.globalNames.length + 1 + weight following

/-- The commands that have another name. -/
def without (name : String) (commands : List Command) : List Command :=
  commands.filter fun command => command.name != name

theorem weight_without_le (name : String) (commands : List Command) :
    weight (without name commands) ≤ weight commands := by
  induction commands with
  | nil => exact Nat.le_refl _
  | cons command following ih =>
    simp only [without, List.filter_cons] at ih ⊢
    split
    · simp only [weight]
      omega
    · simp only [weight]
      omega

theorem weight_without_lt {commands : List Command} {command : Command}
    (hmem : command ∈ commands) :
    weight (without command.name commands) + command.globalNames.length < weight commands := by
  induction commands with
  | nil => cases hmem
  | cons first following ih =>
    have hle := weight_without_le command.name following
    simp only [without, List.filter_cons] at ih hle ⊢
    rcases List.mem_cons.1 hmem with rfl | hmem
    · simp only [bne_self_eq_false, Bool.false_eq_true, if_false, weight]
      omega
    · have := ih hmem
      split
      · simp only [weight]
        omega
      · simp only [weight]
        omega

/-- A depth-first search.  The commands of `remaining` have not been visited; the names of
`pending` are still to be visited, in this order.  Visiting a command removes all commands of its
name, and the names that it mentions come before the others. -/
def visit (remaining : List Command) : List String → List Command
  | [] => []
  | name :: pending =>
    match _h : remaining.find? fun command => command.name == name with
    | none => visit remaining pending
    | some command => command :: visit (without name remaining) (command.globalNames ++ pending)
termination_by pending => weight remaining + pending.length
decreasing_by
  · simp only [List.length_cons]
    omega
  · have hname : command.name = name := by simpa using List.find?_some _h
    have := weight_without_lt (List.mem_of_find?_eq_some _h)
    simp only [hname, List.length_append, List.length_cons] at this ⊢
    omega

end CallGraph

namespace Script

/-- The first command of a name. -/
def find? (script : Script) (name : String) : Option Command :=
  script.commands.find? fun command => command.name == name

/-- The commands that a command calls or passes on, in source order, once for each mention. -/
def callees (script : Script) (command : Command) : List Command :=
  command.globalNames.filterMap script.find?

/-- The commands that can be reached from a name, in the order in which a depth-first search first
visits them. -/
def reachable (script : Script) (name : String) : List Command :=
  CallGraph.visit script.commands [name]

/-- Can a command be reached from one that it calls or passes on? -/
def isRecursive (script : Script) (command : Command) : Bool :=
  (script.callees command).any fun callee =>
    (script.reachable callee.name).any fun reached => reached.name == command.name

/-- The commands reachable from a name that lead back to themselves, in the order of the search. -/
def recursive (script : Script) (name : String) : List Command :=
  (script.reachable name).filter script.isRecursive

end Script
end KarelRobot
