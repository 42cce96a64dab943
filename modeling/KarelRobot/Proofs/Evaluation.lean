import KarelRobot.Proofs.Grid
import KarelRobot.Proofs.Induction

/-!
# What a script means

The meaning of a script without any machine: its statements change a world one after the other,
directly as they are written.  This is what a program for the machine has to agree with.

* `Meaning`, `Bindings` — what names denote while a command runs.
* `Script.meaning?` — what a name denotes: parameters hide built-in commands, and these hide the
  commands of the script.
* `Condition.value` — conditions as formulas.
* `Script.Runs` — what a statement makes of a world: another world, or a failure at a call.
-/

set_option autoImplicit false
namespace KarelRobot

/-- What the name of a command denotes. -/
inductive Meaning where
  | action (which : Action)
  | command (c : Command)

/-- How many commands it takes to call it. -/
def Meaning.arity : Meaning → Nat
  | action _ => 0
  | command c => c.parameters.length

/-- What the parameters of a running command denote. -/
abbrev Bindings := List (String × Meaning)

/-- The parameters of a command, bound to the commands that are passed to it. -/
def Command.bind (c : Command) (meanings : List Meaning) : Bindings :=
  (c.parameters.map Ident.text).zip meanings

/-- What a name denotes where parameters are bound: a parameter hides a built-in command, and that
a command of the script. -/
def Script.meaning? (script : Script) (bindings : Bindings) (name : String) : Option Meaning :=
  match bindings.lookup name with
  | some meaning => some meaning
  | none =>
    match Action.ofName? name with
    | some which => some (.action which)
    | none => (script.find? name).map .command

/-- The truth value of a condition as a formula over the world. -/
def Condition.value (w : World) : Condition → Except World.Fault Bool
  | literal value _ => .ok value
  | predicate which _ => w.ask which
  | not _ operand => do
    let value ← operand.value w
    return !value
  | and _ left right => do
    let leftValue ← left.value w
    let rightValue ← right.value w
    return leftValue && rightValue
  | or _ left right => do
    let leftValue ← left.value w
    let rightValue ← right.value w
    return leftValue || rightValue

/-- What becomes of a world. -/
inductive Result where
  | done (world : World)
  /-- The call of `target` is impossible in this world. -/
  | failed (fault : World.Fault) (target : Ident) (world : World)

/-- What a statement makes of a world while the parameters of its command are bound. -/
inductive Script.Runs (script : Script) : Bindings → Statement → World → Result → Prop
  | act {b : Bindings} {call : Call} {which : Action} {w w' : World}
      (hmeaning : script.meaning? b call.target.text = some (.action which))
      (hperform : w.perform which = .ok w') : Runs script b (.call call) w (.done w')
  | actFails {b : Bindings} {call : Call} {which : Action} {w : World} {fault : World.Fault}
      (hmeaning : script.meaning? b call.target.text = some (.action which))
      (hperform : w.perform which = .error fault) :
      Runs script b (.call call) w (.failed fault call.target w)
  /-- A command runs with its parameters bound to what the arguments denote for the caller. -/
  | enter {b : Bindings} {call : Call} {c : Command} {meanings : List Meaning} {w : World}
      {r : Result} (hmeaning : script.meaning? b call.target.text = some (.command c))
      (harguments : call.arguments.mapM (fun argument => script.meaning? b argument.text) =
        some meanings)
      (hbody : Runs script (c.bind meanings) (.block c.body) w r) : Runs script b (.call call) w r
  | skip {b : Bindings} {opening closing : Nat} {w : World} :
      Runs script b (.block (.mk opening [] closing)) w (.done w)
  | next {b : Bindings} {opening closing : Nat} {first : Statement} {following : List Statement}
      {w w' : World} {r : Result} (hfirst : Runs script b first w (.done w'))
      (hfollowing : Runs script b (.block (.mk opening following closing)) w' r) :
      Runs script b (.block (.mk opening (first :: following) closing)) w r
  | nextFails {b : Bindings} {opening closing : Nat} {first : Statement}
      {following : List Statement} {w w' : World} {fault : World.Fault} {target : Ident}
      (hfirst : Runs script b first w (.failed fault target w')) :
      Runs script b (.block (.mk opening (first :: following) closing)) w
        (.failed fault target w')
  | repeatDone {b : Bindings} {position : Nat} {body : Block} {w : World} :
      Runs script b (.repeatTimes position 0 body) w (.done w)
  | repeatMore {b : Bindings} {position times : Nat} {body : Block} {w w' : World} {r : Result}
      (hbody : Runs script b (.block body) w (.done w'))
      (hmore : Runs script b (.repeatTimes position times body) w' r) :
      Runs script b (.repeatTimes position (times + 1) body) w r
  | repeatFails {b : Bindings} {position times : Nat} {body : Block} {w w' : World}
      {fault : World.Fault} {target : Ident}
      (hbody : Runs script b (.block body) w (.failed fault target w')) :
      Runs script b (.repeatTimes position (times + 1) body) w (.failed fault target w')
  | ifThen {b : Bindings} {position : Nat} {condition : Condition} {body : Block} {w : World}
      {r : Result} (hvalue : condition.value w = .ok true)
      (hbody : Runs script b (.block body) w r) :
      Runs script b (.ifThen position condition body) w r
  | ifThenSkips {b : Bindings} {position : Nat} {condition : Condition} {body : Block} {w : World}
      (hvalue : condition.value w = .ok false) :
      Runs script b (.ifThen position condition body) w (.done w)
  | ifElse {b : Bindings} {position : Nat} {condition : Condition} {body : Block}
      {otherwise : Statement} {w : World} {r : Result} (hvalue : condition.value w = .ok true)
      (hbody : Runs script b (.block body) w r) :
      Runs script b (.ifElse position condition body otherwise) w r
  | ifElseSkips {b : Bindings} {position : Nat} {condition : Condition} {body : Block}
      {otherwise : Statement} {w : World} {r : Result} (hvalue : condition.value w = .ok false)
      (hother : Runs script b otherwise w r) :
      Runs script b (.ifElse position condition body otherwise) w r
  | whileMore {b : Bindings} {position : Nat} {condition : Condition} {body : Block}
      {w w' : World} {r : Result} (hvalue : condition.value w = .ok true)
      (hbody : Runs script b (.block body) w (.done w'))
      (hmore : Runs script b (.whileLoop position condition body) w' r) :
      Runs script b (.whileLoop position condition body) w r
  | whileFails {b : Bindings} {position : Nat} {condition : Condition} {body : Block}
      {w w' : World} {fault : World.Fault} {target : Ident}
      (hvalue : condition.value w = .ok true)
      (hbody : Runs script b (.block body) w (.failed fault target w')) :
      Runs script b (.whileLoop position condition body) w (.failed fault target w')
  | whileDone {b : Bindings} {position : Nat} {condition : Condition} {body : Block} {w : World}
      (hvalue : condition.value w = .ok false) :
      Runs script b (.whileLoop position condition body) w (.done w)

/-- A call of an action has a result in any world. -/
theorem Script.exists_runs_action {script : Script} {b : Bindings} {call : Call} {which : Action}
    (hmeaning : script.meaning? b call.target.text = some (.action which)) (w : World) :
    ∃ r, script.Runs b (.call call) w r := by
  cases hperform : w.perform which with
  | ok w' => exact ⟨_, .act hmeaning hperform⟩
  | error fault => exact ⟨_, .actFails hmeaning hperform⟩

/-! ## On the grid -/

/-- A robot on the grid can tell whether a condition holds. -/
theorem Condition.exists_value {w : World} (h : w.robot.OnGrid) (condition : Condition) :
    ∃ value, condition.value w = .ok value := by
  induction condition with
  | literal value position => exact ⟨value, rfl⟩
  | predicate which position => exact World.exists_ask h which
  | not position operand ih =>
    obtain ⟨value, hvalue⟩ := ih
    exact ⟨!value, by rw [Condition.value, hvalue]; rfl⟩
  | and position left right ihleft ihright =>
    obtain ⟨leftValue, hleft⟩ := ihleft
    obtain ⟨rightValue, hright⟩ := ihright
    exact ⟨leftValue && rightValue, by rw [Condition.value, hleft, hright]; rfl⟩
  | or position left right ihleft ihright =>
    obtain ⟨leftValue, hleft⟩ := ihleft
    obtain ⟨rightValue, hright⟩ := ihright
    exact ⟨leftValue || rightValue, by rw [Condition.value, hleft, hright]; rfl⟩

/-- The world that a result leaves behind. -/
def Result.world : Result → World
  | done world => world
  | failed _ _ world => world

/-- **A script never leads off the grid.** -/
theorem Script.Runs.onGrid {script : Script} {b : Bindings} {s : Statement} {w : World}
    {r : Result} (h : script.Runs b s w r) (hgrid : w.robot.OnGrid) : r.world.robot.OnGrid := by
  induction h with
  | act _ hperform => exact World.onGrid_of_perform hgrid hperform
  | actFails | skip | repeatDone | ifThenSkips | whileDone => exact hgrid
  | next _ _ ihfirst ihfollowing => exact ihfollowing (ihfirst hgrid)
  | repeatMore _ _ ihbody ihmore => exact ihmore (ihbody hgrid)
  | whileMore _ _ _ ihbody ihmore => exact ihmore (ihbody hgrid)
  | enter _ _ _ ih | nextFails _ ih | repeatFails _ ih | ifThen _ _ ih | ifElse _ _ ih
  | ifElseSkips _ _ ih | whileFails _ _ ih => exact ih hgrid

end KarelRobot
