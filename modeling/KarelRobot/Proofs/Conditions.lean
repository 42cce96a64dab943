import KarelRobot.Proofs.Effects
import KarelRobot.Proofs.Evaluation
import KarelRobot.Proofs.Execution
import KarelRobot.Proofs.Linking

/-!
# Conditions on the machine

The code of a condition is a straight line.  Its instructions push truth values and combine those on
top of the stack, so what they do can be said without the machine: each of them makes other truth
values of some truth values.  What lies below on the stack does not matter, and nothing else
changes.

* `Op.combine?`, `Assembly.combine?` — what an operation and a straight line of instructions make of
  some truth values.
* `Condition.combine?_code` — the code of a condition adds its value.
* `Program.Carries` — some lines stand in a program as they are.
* `Machine.Weighs` — some instructions push a truth value, and touch nothing else on their way.
* `conditions_evaluate` — the code of a condition, and the code that decides it.
-/

set_option autoImplicit false
namespace KarelRobot

open Assembly

/-! ## Truth values -/

/-- What an operation makes of some truth values, the latest first.  It makes nothing of them if
there are too few, or if it has nothing to do with truth values. -/
def Op.combine? (w : World) : Op → List Bool → Option (List Bool)
  | literal value, truths => some (value :: truths)
  | query which, truths => (w.ask which).toOption.map (· :: truths)
  | not, value :: truths => some ((!value) :: truths)
  | and, right :: left :: truths => some ((left && right) :: truths)
  | or, right :: left :: truths => some ((left || right) :: truths)
  | _, _ => none

namespace Assembly

variable {w : World}

/-- What a straight line of instructions makes of some truth values. -/
def combine? (w : World) (code : List Line) (truths : List Bool) : Option (List Bool) :=
  code.foldlM (fun truths l => l.instruction.op?.bind fun op => op.combine? w truths) truths

theorem combine?_append (xs ys : List Line) (truths : List Bool) :
    combine? w (xs ++ ys) truths = (combine? w xs truths).bind (combine? w ys) :=
  List.foldlM_append

theorem combine?_cons (l : Line) (ls : List Line) (truths : List Bool) :
    combine? w (l :: ls) truths =
      (l.instruction.op?.bind fun op => op.combine? w truths).bind (combine? w ls) :=
  List.foldlM_cons

theorem combine?_line {op : Op} (h : op.operand? = none) (position : Nat) (truths : List Bool) :
    combine? w [line op position] truths = op.combine? w truths := by
  rw [combine?_cons, line, Instruction.op?_ofOp (Op.fits_of_none h), Option.bind_some]
  exact Option.bind_fun_some _

/-- The first instructions of a straight line make something of some truth values if all of them
do. -/
theorem exists_combine?_take {code : List Line} {truths last : List Bool}
    (h : combine? w code truths = some last) (k : Nat) :
    ∃ reached, combine? w (code.take k) truths = some reached := by
  rw [← List.take_append_drop k code, combine?_append] at h
  obtain ⟨reached, hreached, -⟩ := Option.bind_eq_some_iff.1 h
  exact ⟨reached, hreached⟩

end Assembly

/-- **The code of a condition adds its value** to the truth values that are there. -/
theorem Condition.combine?_code {w : World} {condition : Condition} {value : Bool}
    (h : condition.value w = .ok value) (truths : List Bool) :
    combine? w condition.code truths = some (value :: truths) := by
  induction condition generalizing value truths with
  | literal value position =>
    cases h
    exact combine?_line rfl position truths
  | predicate which position =>
    have hask : w.ask which = .ok value := h
    refine (combine?_line rfl position truths).trans ?_
    rw [Op.combine?, hask]
    rfl
  | not position operand ih =>
    obtain ⟨value, hoperand, hnot⟩ := bind_eq_ok.1 h
    rw [pure_eq_ok] at hnot
    rw [code, combine?_append, ih hoperand, ← hnot]
    exact combine?_line rfl position _
  | and position left right ihleft ihright | or position left right ihleft ihright =>
    obtain ⟨leftValue, hleft, h⟩ := bind_eq_ok.1 h
    obtain ⟨rightValue, hright, hboth⟩ := bind_eq_ok.1 h
    rw [pure_eq_ok] at hboth
    rw [code, combine?_append, combine?_append, ihleft hleft, Option.bind_some, ihright hright,
      ← hboth]
    exact combine?_line rfl position _

/-- The negations around a condition turn its value around, or do not. -/
theorem Condition.value_core {w : World} {condition : Condition} {value : Bool}
    (h : condition.value w = .ok value) :
    condition.core.value w = .ok (if condition.negations % 2 = 0 then value else !value) := by
  induction condition generalizing value with
  | literal | predicate | and | or => exact h
  | not position operand ih =>
    obtain ⟨inner, hinner, hnot⟩ := bind_eq_ok.1 h
    rw [pure_eq_ok] at hnot
    subst hnot
    rw [core, negations, ih hinner]
    rcases Nat.mod_two_eq_zero_or_one operand.negations with heven | hodd
    · rw [if_pos heven, if_neg (by omega), Bool.not_not]
    · rw [if_neg (by omega), if_pos (by omega)]

/-! ## Straight lines -/

/-- From the address `start` on, these lines stand in the program as they are. -/
def Program.Carries (p : Program) (start : Nat) (ls : List Line) : Prop :=
  ∀ (i : Nat) (l : Line), ls[i]? = some l → p.get? (start + i) = some l.instruction

namespace Program.Carries

variable {p : Program} {start : Nat}

theorem head {l : Line} {ls : List Line} (h : p.Carries start (l :: ls)) :
    p.get? start = some l.instruction :=
  h 0 l rfl

theorem tail {l : Line} {ls : List Line} (h : p.Carries start (l :: ls)) :
    p.Carries (start + 1) ls := by
  intro i l hl
  rw [Nat.add_assoc, Nat.add_comm 1]
  exact h (i + 1) l hl

theorem take {ls : List Line} (h : p.Carries start ls) (k : Nat) :
    p.Carries start (ls.take k) := by
  intro i l hl
  rw [List.getElem?_take, Option.ite_none_right_eq_some] at hl
  exact h i l hl.2

/-- A program made of some lines carries each part of them. -/
theorem ofCode (before ls behind : List Line) :
    (Program.ofCode ((before ++ ls ++ behind).map Line.instruction)).Carries
      (entryPoint + before.length) ls := by
  intro i l hl
  have hi := (List.getElem?_eq_some_iff.1 hl).1
  rw [Nat.add_assoc, Assembles.get?_ofCode, List.getElem?_map, List.append_assoc,
    List.getElem?_append_right (Nat.le_add_right _ _), Nat.add_sub_cancel_left,
    List.getElem?_append_left hi, hl]
  rfl

end Program.Carries

/-- The lines of a condition are complete, so a linked program carries them. -/
theorem Program.Holds.carries {p : Program} {commands : List Command} {start : Nat}
    {condition : Condition} (h : p.Holds commands start condition.code) :
    p.Carries start condition.code := by
  intro i l hl
  obtain ⟨instruction, hlink, hget⟩ := h i l hl
  obtain ⟨op, position, rfl⟩ := Condition.exists_line (List.mem_of_getElem? hl)
  cases hlink
  exact hget

namespace Machine

variable {p : Program} {w : World} {start : Nat}

/-- A machine with some truth values on top of its stack. -/
def weighing (w : World) (pc : Nat) (truths : List Bool) (stack : List Value) (depth : Nat)
    (events : List Event) : Machine :=
  ⟨w, pc, truths.map Value.boolean ++ stack, depth, false, events⟩

/-- **One instruction** makes of the truth values what its operation makes of them. -/
theorem step_weighing {op : Op} {truths truths' : List Bool}
    (hget : (p.get? start).bind Instruction.op? = some op)
    (hcombine : op.combine? w truths = some truths') (stack : List Value) (depth : Nat)
    (events : List Event) :
    (weighing w start truths stack depth events).step p =
      (weighing w (start + 1) truths' stack depth events, .paused) := by
  obtain ⟨site, hsite, hop⟩ := Option.bind_eq_some_iff.1 hget
  have hexecutes : (weighing w start truths stack depth events).Executes p site op :=
    ⟨rfl, hsite, hop⟩
  rw [hexecutes.step_eq]
  cases op with
  | literal value =>
    cases hcombine
    rfl
  | query which =>
    rw [Op.combine?] at hcombine
    cases hask : w.ask which with
    | ok answer =>
      rw [hask] at hcombine
      cases hcombine
      simp only [execute, query, weighing, hask]
      rfl
    | error fault =>
      rw [hask] at hcombine
      cases hcombine
  | not =>
    rcases truths with _ | ⟨value, truths⟩ <;> cases hcombine
    rfl
  | and | or =>
    rcases truths with _ | ⟨right, _ | ⟨left, truths⟩⟩ <;> cases hcombine
    rfl
  | ret | action | pass | forward | callParameter | push | loop | call | jump | jumpUnless
  | jumpIf => cases hcombine

/-- **A straight line of instructions** makes of the truth values what their operations make of
them. -/
theorem runSlice_weighing {code : List Line} {truths truths' : List Bool}
    (hcode : p.Carries start code) (hcombine : combine? w code truths = some truths')
    (stack : List Value) (depth : Nat) (events : List Event) :
    (weighing w start truths stack depth events).runSlice p code.length =
      (weighing w (start + code.length) truths' stack depth events, .paused) := by
  induction code generalizing start truths with
  | nil =>
    cases hcombine
    rfl
  | cons l ls ih =>
    rw [combine?_cons] at hcombine
    obtain ⟨middle, hmiddle, hlast⟩ := Option.bind_eq_some_iff.1 hcombine
    obtain ⟨op, hop, hmiddle⟩ := Option.bind_eq_some_iff.1 hmiddle
    have hget : (p.get? start).bind Instruction.op? = some op := by
      rw [hcode.head, Option.bind_some, hop]
    rw [List.length_cons, runSlice_succ_of_step (step_weighing hget hmiddle stack depth events),
      ih hcode.tail hlast, Nat.add_assoc, Nat.add_comm 1]

/-- From the address `start` on, `count` instructions push a truth value.  On their way the machine
goes from each instruction to the next one, and it has nothing but some truth values more on its
stack, whatever lies below them. -/
def Weighs (p : Program) (w : World) (start count : Nat) (value : Bool) : Prop :=
  ∃ truths : Nat → List Bool, truths count = [value] ∧
    ∀ (stack : List Value) (depth : Nat) (events : List Event), ∀ k ≤ count,
      runSlice p k ⟨w, start, stack, depth, false, events⟩ =
        (⟨w, start + k, (truths k).map .boolean ++ stack, depth, false, events⟩, .paused)

/-- **The code of a condition pushes its value.** -/
theorem weighs_of_carries {condition : Condition} {value : Bool}
    (hcode : p.Carries start condition.code) (hvalue : condition.value w = .ok value) :
    Weighs p w start condition.code.length value := by
  have hall := Condition.combine?_code hvalue []
  choose truths htruths using exists_combine?_take hall
  refine ⟨truths, ?_, fun stack depth events k hk => ?_⟩
  · have hlast := htruths condition.code.length
    rw [List.take_length, hall] at hlast
    exact (Option.some.inj hlast).symm
  · have hslice := runSlice_weighing (hcode.take k) (htruths k) stack depth events
    rw [List.length_take_of_le hk] at hslice
    exact hslice

/-- The end of the way. -/
theorem Weighs.runSlice {count : Nat} {value : Bool} (h : Weighs p w start count value)
    (stack : List Value) (depth : Nat) (events : List Event) :
    Machine.runSlice p count ⟨w, start, stack, depth, false, events⟩ =
      (⟨w, start + count, .boolean value :: stack, depth, false, events⟩, .paused) := by
  obtain ⟨truths, hlast, hway⟩ := h
  have hend := hway stack depth events count (Nat.le_refl _)
  rw [hlast] at hend
  exact hend

/-- A branch pops the truth value on top of the stack.  It is taken if the condition, from which
some negations have been taken off, is false. -/
theorem step_branch {negations : Nat} {target : UInt16}
    (hget : (p.get? start).bind Instruction.op? = some (Condition.branch negations target))
    (value : Bool) (stack : List Value) (depth : Nat) (events : List Event) :
    step p ⟨w, start, .boolean (if negations % 2 = 0 then value else !value) :: stack, depth,
        false, events⟩ =
      (⟨w, if value then start + 1 else target.toNat, stack, depth, false, events⟩, .paused) := by
  obtain ⟨site, hsite, hop⟩ := Option.bind_eq_some_iff.1 hget
  have hexecutes : Executes p ⟨w, start, .boolean (if negations % 2 = 0 then value else !value) ::
      stack, depth, false, events⟩ site (Condition.branch negations target) := ⟨rfl, hsite, hop⟩
  rw [hexecutes.step_eq, Condition.branch]
  split <;> cases value <;> rfl

end Machine

open Machine

/-- **The code that decides a condition** goes on behind itself if the condition holds, and at its
target if not. -/
theorem Condition.runSlice_core {p : Program} {w : World} {start : Nat} {condition : Condition}
    {value : Bool} {target : UInt16} (hcode : p.Carries start condition.core.code)
    (hbranch : (p.get? (start + condition.core.code.length)).bind Instruction.op? =
      some (branch condition.negations target)) (hvalue : condition.value w = .ok value)
    (stack : List Value) (depth : Nat) (events : List Event) :
    runSlice p (condition.core.code.length + 1) ⟨w, start, stack, depth, false, events⟩ =
      (⟨w, if value then start + condition.core.code.length + 1 else target.toNat, stack, depth,
        false, events⟩, .paused) := by
  have hweighs := weighs_of_carries hcode (value_core hvalue)
  rw [runSlice_add (hweighs.runSlice stack depth events) 1]
  exact runSlice_succ_of_step (step_branch hbranch value stack depth events) 0

/-- **Compiled conditions evaluate correctly.**  On the grid every condition has a value.  Wherever
its code stands in a program, the machine pushes that value and goes on behind the code; wherever
the code stands that decides it, the machine goes on behind that code if the value is true and at
the target of the branch if not, with the stack it started with.  On the way nothing on the stack is
touched but the truth values that the code itself has pushed, nor the world, the number of calls or
what the debugger has been told. -/
theorem conditions_evaluate {w : World} (h : w.robot.OnGrid) (condition : Condition) (p : Program)
    (start : Nat) :
    ∃ value, condition.value w = .ok value ∧
      (p.Carries start condition.code → Weighs p w start condition.code.length value) ∧
      ∀ target : UInt16, p.Carries start condition.test.1 →
        (p.get? (start + condition.test.1.length)).bind Instruction.op? =
          some (condition.test.2 target) →
        (∃ core, Weighs p w start condition.test.1.length core) ∧
        ∀ stack depth events,
          runSlice p (condition.test.1.length + 1) ⟨w, start, stack, depth, false, events⟩ =
            (⟨w, if value then start + condition.test.1.length + 1 else target.toNat, stack, depth,
              false, events⟩, .paused) := by
  obtain ⟨value, hvalue⟩ := condition.exists_value h
  refine ⟨value, hvalue, fun hcode => weighs_of_carries hcode hvalue, ?_⟩
  rw [Condition.test_eq]
  intro target hcode hbranch
  exact ⟨⟨_, weighs_of_carries hcode (Condition.value_core hvalue)⟩,
    Condition.runSlice_core hcode hbranch hvalue⟩

/-- A condition with negations around it and inside it. -/
def doubt : Condition :=
  .not 4 (.or 17 (.predicate .onBeeper 6) (.not 20 (.literal true 21)))

/-- The code of the doubt, and behind it the code that decides it. -/
def doubtful : List Line :=
  doubt.code ++ doubt.test.1 ++ [line (doubt.test.2 0x200) 0]

/-- At the start the doubt is justified, also in the middle of a loop. -/
theorem conditions_evaluate_doubt :
    Weighs (.ofCode (doubtful.map Line.instruction)) World.start 0x100 5 true ∧
      runSlice (.ofCode (doubtful.map Line.instruction)) 5
          ⟨World.start, 0x105, [.loopCounter 3], 0, false, []⟩ =
        (⟨World.start, 0x10a, [.loopCounter 3], 0, false, []⟩, .paused) := by
  have hgrid : World.start.robot.OnGrid := by decide
  have htrue : doubt.value World.start = .ok true := by decide +kernel
  have hcode := Program.Carries.ofCode [] doubt.code (doubt.test.1 ++ [line (doubt.test.2 0x200) 0])
  have htest := Program.Carries.ofCode doubt.code doubt.test.1 [line (doubt.test.2 0x200) 0]
  rw [List.nil_append, ← List.append_assoc] at hcode
  obtain ⟨value, hvalue, hpush, -⟩ :=
    conditions_evaluate hgrid doubt (.ofCode (doubtful.map Line.instruction)) 0x100
  obtain ⟨value', hvalue', -, hdecide⟩ :=
    conditions_evaluate hgrid doubt (.ofCode (doubtful.map Line.instruction)) 0x105
  rw [htrue, Except.ok.injEq] at hvalue hvalue'
  subst hvalue hvalue'
  exact ⟨hpush hcode, (hdecide 0x200 htest (by decide +kernel)).2 [.loopCounter 3] 0 []⟩

end KarelRobot
