import KarelRobot.Proofs.Board
import KarelRobot.Proofs.Failures
import KarelRobot.Proofs.Linking

/-!
# Replaying a script of actions

The program of a goal is a list of actions with the end of a command behind them.  It may be longer
than the addresses that fit into an operand: no instruction of it names an address, and the machine
only ever goes on with the next one.  So its run is the run of the actions themselves, and it makes
no difference whether it is taken in slices or in hidden steps, of which each one takes exactly one
action.

* `Machine.poised` — the machine in front of one of the actions.
* `Machine.step_goal`, `Machine.step_goal_end` — one instruction of the program.
* `Machine.runSlice_goal` — a number of instructions carries out as many actions.
* `Machine.stepInto_goal`, `Machine.hiddenSteps_goal` — one hidden step, and any number of them.
* `Program.Replays` — what replaying a script means.
* `goal_replays_script` — the program of a goal does.
-/

set_option autoImplicit false
namespace KarelRobot

open Program (goal entryPoint)

/-! ## The program -/

theorem Program.get?_goal_action {actions : List Action} {k : Nat} {a : Action}
    (h : actions[k]? = some a) :
    (goal actions).get? (entryPoint + k) = some (.synthetic (.action a)) := by
  have hlt : k < (actions.map fun a => Instruction.synthetic (.action a)).length := by
    rw [List.length_map]
    exact (List.getElem?_eq_some_iff.1 h).1
  rw [goal, Assembles.get?_ofCode, List.getElem?_append_left hlt, List.getElem?_map, h]
  rfl

theorem Program.get?_goal_end (actions : List Action) :
    (goal actions).get? (entryPoint + actions.length) = some (.synthetic .ret) := by
  rw [goal, Assembles.get?_ofCode, List.getElem?_append_right (by simp), List.length_map,
    Nat.sub_self]
  rfl

/-! ## Performing actions -/

namespace World

variable {w w' : World}

/-- The world behind one more action. -/
theorem foldlM_perform_take_succ {actions : List Action} {k : Nat} {a : Action}
    (ha : actions[k]? = some a) :
    (actions.take (k + 1)).foldlM World.perform w = .ok w' ↔
      ∃ v, (actions.take k).foldlM World.perform w = .ok v ∧ v.perform a = .ok w' := by
  rw [List.take_add_one, ha, Option.toList_some, List.foldlM_append, bind_eq_ok]
  simp only [List.foldlM_cons, List.foldlM_nil, bind_pure]

/-- Actions that can all be performed can be performed up to any of them. -/
theorem exists_foldlM_perform_take {actions : List Action}
    (h : actions.foldlM World.perform w = .ok w') (k : Nat) :
    ∃ v, (actions.take k).foldlM World.perform w = .ok v := by
  rw [← List.take_append_drop k actions, List.foldlM_append, bind_eq_ok] at h
  obtain ⟨v, hv, -⟩ := h
  exact ⟨v, hv⟩

/-- Actions that cannot all be performed can be performed up to the first that is refused. -/
theorem exists_refused {actions : List Action} {reason : Fault}
    (h : actions.foldlM World.perform w = .error reason) :
    ∃ i v a, actions[i]? = some a ∧ (actions.take i).foldlM World.perform w = .ok v ∧
      v.perform a = .error reason := by
  induction actions generalizing w with
  | nil => cases h
  | cons a following ih =>
    cases hperform : w.perform a with
    | error other =>
      rw [List.foldlM_cons, hperform] at h
      cases h
      exact ⟨0, w, a, rfl, rfl, hperform⟩
    | ok next =>
      rw [List.foldlM_cons, hperform] at h
      obtain ⟨i, v, b, hb, hv, hrefused⟩ := ih h
      refine ⟨i + 1, v, b, hb, ?_, hrefused⟩
      rw [List.take_succ_cons, List.foldlM_cons, hperform]
      exact hv

theorem onGrid_of_foldlM_perform (hgrid : w.robot.OnGrid) {actions : List Action}
    (h : actions.foldlM World.perform w = .ok w') : w'.robot.OnGrid := by
  induction actions generalizing w with
  | nil =>
    cases h
    exact hgrid
  | cons a following ih =>
    rw [List.foldlM_cons, bind_eq_ok] at h
    obtain ⟨next, hnext, hfollowing⟩ := h
    exact ih (onGrid_of_perform hgrid hnext) hfollowing

end World

namespace Machine

variable {actions : List Action} {w v v' : World} {m : Machine} {k : Nat} {a : Action}

/-! ## Single instructions -/

/-- The machine in front of the action with the number `k`: it has not entered any command. -/
def poised (w : World) (k : Nat) : Machine :=
  { start w with pc := entryPoint + k }

theorem finished_poised (w : World) (k : Nat) : (poised w k).finished = false := rfl

/-- The machine that has come to the end of a script. -/
def completed (w : World) (k : Nat) : Machine :=
  { poised w k with finished := true }

theorem step_goal (hpc : m.pc = entryPoint + k) (hfinished : m.finished = false)
    (ha : actions[k]? = some a) : m.step (goal actions) = m.perform a := by
  have hcurrent : m.current? (goal actions) = some (.synthetic (.action a)) := by
    rw [current?, hpc, Program.get?_goal_action ha]
  exact Executes.step_of_performs
    ⟨hfinished, hcurrent, Op.decode_encode _ (Op.fits_of_none rfl)⟩ .direct

theorem step_goal_end (hpc : m.pc = entryPoint + actions.length) (hfinished : m.finished = false) :
    m.step (goal actions) = m.leave := by
  have hcurrent : m.current? (goal actions) = some (.synthetic .ret) := by
    rw [current?, hpc, Program.get?_goal_end]
  exact Executes.step_eq ⟨hfinished, hcurrent, Op.decode_encode _ (Op.fits_of_none rfl)⟩

theorem step_poised (ha : actions[k]? = some a) (hv : v.perform a = .ok v') :
    (poised v k).step (goal actions) = (poised v' (k + 1), .paused) := by
  have hworld : (poised v k).world.perform a = .ok v' := hv
  rw [step_goal rfl rfl ha, perform, hworld]
  rfl

theorem step_poised_refused {reason : World.Fault} (ha : actions[k]? = some a)
    (hv : v.perform a = .error reason) :
    (poised v k).step (goal actions) = (poised v k, .failed (.world reason)) := by
  have hworld : (poised v k).world.perform a = .error reason := hv
  rw [step_goal rfl rfl ha, perform, hworld]
  rfl

theorem step_poised_end (v : World) (actions : List Action) :
    (poised v actions.length).step (goal actions) =
      (completed v actions.length, .finished) := by
  rw [step_goal_end rfl rfl]
  rfl

/-! ## Runs -/

/-- **A number of instructions carries out as many actions.** -/
theorem runSlice_goal (hk : k ≤ actions.length)
    (h : (actions.take k).foldlM World.perform w = .ok v) :
    (start w).runSlice (goal actions) k = (poised v k, .paused) := by
  induction k generalizing v with
  | zero =>
    cases h
    rfl
  | succ k ih =>
    have ha : actions[k]? = some actions[k] := List.getElem?_eq_getElem hk
    obtain ⟨u, hu, hv⟩ := (World.foldlM_perform_take_succ ha).1 h
    rw [runSlice_add (ih (Nat.le_of_lt hk) hu) 1]
    exact runSlice_succ_of_step (step_poised ha hv) 0

theorem run_goal_of_ok (h : actions.foldlM World.perform w = .ok v) {looks : Nat}
    (hlooks : actions.length < (looks + 1) * sliceSize) :
    (start w).run (goal actions) looks = (completed v actions.length, .finished) := by
  have hslice := runSlice_goal (Nat.le_refl _) (by rw [List.take_length]; exact h)
  refine run_of_runSlice (n := actions.length + 1) ?_ nofun hlooks
  rw [runSlice_add hslice 1]
  exact runSlice_succ_of_stop (step_poised_end v actions) nofun 0

theorem run_goal_of_refused {reason : World.Fault} (ha : actions[k]? = some a)
    (h : (actions.take k).foldlM World.perform w = .ok v) (hv : v.perform a = .error reason)
    {looks : Nat} (hlooks : k < (looks + 1) * sliceSize) :
    (start w).run (goal actions) looks = (poised v k, .failed (.world reason)) := by
  have hk : k ≤ actions.length := Nat.le_of_lt (List.getElem?_eq_some_iff.1 ha).1
  refine run_of_runSlice (n := k + 1) ?_ nofun hlooks
  rw [runSlice_add (runSlice_goal hk h) 1]
  exact runSlice_succ_of_stop (step_poised_refused ha hv) nofun 0

/-! ## Hidden steps -/

/-- In front of an action there is nothing to run silently. -/
theorem runSilently_poised (ha : actions[k]? = some a) (v : World) (limit : Nat) :
    (poised v k).runSilently (goal actions) (limit + 1) = some (poised v k, .paused) := by
  have hcurrent : (poised v k).current? (goal actions) = some (.synthetic (.action a)) :=
    Program.get?_goal_action ha
  have hpauses : (Instruction.synthetic (.action a)).pauses = true := by cases a <;> rfl
  simp [runSilently, finished_poised, hcurrent, hpauses]

/-- The end of the script comes from no source, so it is run silently. -/
theorem runSilently_poised_end (v : World) (actions : List Action) (limit : Nat) :
    (poised v actions.length).runSilently (goal actions) (limit + 1) =
      some (completed v actions.length, .finished) := by
  have hcurrent : (poised v actions.length).current? (goal actions) = some (.synthetic .ret) :=
    Program.get?_goal_end actions
  have hpauses : (Instruction.synthetic .ret).pauses = false := rfl
  simp [runSilently, finished_poised, hcurrent, hpauses, step_poised_end]

/-- **A hidden step takes one action,** and the last one finds the end behind it. -/
theorem stepInto_goal (ha : actions[k]? = some a) (hv : v.perform a = .ok v') (limit : Nat) :
    (poised v k).stepInto (goal actions) (limit + 1) false =
      some (if k + 1 < actions.length then (poised v' (k + 1), .paused)
        else (completed v' (k + 1), .finished)) := by
  have hhidden : (poised v k).stepInto (goal actions) (limit + 1) false =
      (poised v' (k + 1)).runSilently (goal actions) (limit + 1) := by
    simp only [stepInto, stepHidden, runSilently_poised ha, step_poised ha hv]
    rfl
  rw [hhidden]
  split
  next hlt => exact runSilently_poised (List.getElem?_eq_getElem hlt) v' limit
  next hge =>
    have hk : k < actions.length := (List.getElem?_eq_some_iff.1 ha).1
    have hlength : k + 1 = actions.length := by omega
    rw [hlength]
    exact runSilently_poised_end v' actions limit

/-- What a number of hidden steps leads to, with the outcome of the last one. -/
def hiddenSteps (p : Program) (limit : Nat) : (count : Nat) → Machine → Option (Machine × Outcome)
  | 0, m => some (m, .paused)
  | count + 1, m => (hiddenSteps p limit count m).bind fun r => r.1.stepInto p limit false

/-- Hidden steps short of the end have taken as many actions. -/
theorem hiddenSteps_goal (hk : k < actions.length)
    (h : (actions.take k).foldlM World.perform w = .ok v) (limit : Nat) :
    hiddenSteps (goal actions) (limit + 1) k (start w) = some (poised v k, .paused) := by
  induction k generalizing v with
  | zero =>
    cases h
    rfl
  | succ k ih =>
    have ha : actions[k]? = some actions[k] := List.getElem?_eq_getElem (Nat.lt_of_succ_lt hk)
    obtain ⟨u, hu, hv⟩ := (World.foldlM_perform_take_succ ha).1 h
    rw [hiddenSteps, ih (Nat.lt_of_succ_lt hk) hu, Option.bind_some, stepInto_goal ha hv,
      if_pos hk]

theorem hiddenSteps_goal_end (hne : actions ≠ []) (h : actions.foldlM World.perform w = .ok v)
    (limit : Nat) :
    hiddenSteps (goal actions) (limit + 1) actions.length (start w) =
      some (completed v actions.length, .finished) := by
  obtain ⟨k, hk⟩ := Nat.exists_eq_succ_of_ne_zero (mt List.length_eq_zero_iff.1 hne)
  have hlt : k < actions.length := by omega
  have ha : actions[k]? = some actions[k] := List.getElem?_eq_getElem hlt
  have hall : (actions.take (k + 1)).foldlM World.perform w = .ok v := by
    rw [← Nat.succ_eq_add_one, ← hk, List.take_length, h]
  obtain ⟨u, hu, hv⟩ := (World.foldlM_perform_take_succ ha).1 hall
  have hlast : ¬ k + 1 < actions.length := by omega
  rw [hk, hiddenSteps, hiddenSteps_goal hlt hu, Option.bind_some, stepInto_goal ha hv,
    if_neg hlast]

/-! ## No calls -/

/-- The machine has entered no command, and stands in front of an action or of the end. -/
structure Plain (actions : List Action) (m : Machine) : Prop where
  callDepth : m.callDepth = 0
  stack : m.stack = []
  pc : ∃ k, k ≤ actions.length ∧ m.pc = entryPoint + k

theorem Plain.step (h : Plain actions m) : Plain actions (m.step (goal actions)).1 := by
  obtain ⟨hdepth, hstack, k, hk, hpc⟩ := h
  cases hfinished : m.finished with
  | true =>
    rw [Machine.step, if_pos hfinished]
    exact ⟨hdepth, hstack, k, hk, hpc⟩
  | false =>
    rcases Nat.lt_or_eq_of_le hk with hlt | rfl
    · rw [step_goal hpc hfinished (List.getElem?_eq_getElem hlt), perform]
      split
      · refine ⟨hdepth, hstack, k + 1, hlt, ?_⟩
        rw [← Nat.add_assoc, ← hpc]
        rfl
      · exact ⟨hdepth, hstack, k, hk, hpc⟩
    · simp only [step_goal_end hpc hfinished, leave, hstack]
      exact ⟨hdepth, rfl, _, Nat.le_refl _, hpc⟩

theorem kept_plain (actions : List Action) : Kept (goal actions) (Plain actions) fun _ => True where
  step _ h := ⟨h.step, trivial⟩
  giveUp _ h := ⟨⟨h.callDepth, h.stack, h.pc⟩, trivial⟩
  paused := trivial

end Machine

/-- Whatever a debugger does with the program of a script, no command is ever entered. -/
theorem Session.plain {actions : List Action} {m : Machine} (h : Session (goal actions) m) :
    m.Plain actions :=
  h.kept (Machine.kept_plain actions) (fun _ _ => ⟨rfl, rfl, 0, Nat.zero_le _, rfl⟩)
    fun _ _ hm _ => ⟨hm.callDepth, hm.stack, hm.pc⟩

open Machine

/-- What it means that a program replays the actions in a world. -/
structure Program.Replays (p : Program) (actions : List Action) (w : World) : Prop where
  /-- If all actions can be performed, the program finishes in the world that they lead to. -/
  finishes : ∀ w', actions.foldlM World.perform w = .ok w' →
    ∀ looks, actions.length < (looks + 1) * sliceSize →
      (start w).run p looks = (completed w' actions.length, .finished)
  /-- Otherwise it fails at the first that is refused, in the world before it. -/
  fails : ∀ reason, actions.foldlM World.perform w = .error reason →
    reason ≠ .offPlan ∧ ∃ i v a, actions[i]? = some a ∧
      (actions.take i).foldlM World.perform w = .ok v ∧ v.perform a = .error reason ∧
      ∀ looks, i < (looks + 1) * sliceSize →
        (start w).run p looks = (poised v i, .failed (.world reason))
  /-- There are no calls and no values, whatever a debugger does. -/
  plain : ∀ m, Session p m → m.callDepth = 0 ∧ m.stack = []
  /-- Hidden steps pause behind each action but the last one, and finish behind that. -/
  steps : ∀ w', actions.foldlM World.perform w = .ok w' → actions ≠ [] → ∀ limit,
    (∀ k < actions.length, ∃ v, (actions.take k).foldlM World.perform w = .ok v ∧
      hiddenSteps p (limit + 1) k (start w) = some (poised v k, .paused)) ∧
    hiddenSteps p (limit + 1) actions.length (start w) =
      some (completed w' actions.length, .finished)

/-- **The program of a goal replays its script,** however long it is. -/
theorem goal_replays_script (actions : List Action) {w : World} (hgrid : w.robot.OnGrid) :
    (goal actions).Replays actions w where
  finishes _ h _ hlooks := run_goal_of_ok h hlooks
  fails := by
    intro reason h
    obtain ⟨i, v, a, ha, hv, hrefused⟩ := World.exists_refused h
    refine ⟨?_, i, v, a, ha, hv, hrefused, fun looks => run_goal_of_refused ha hv hrefused⟩
    rcases World.perform_cases (World.onGrid_of_foldlM_perform hgrid hv) a with
      ⟨u, hu, -⟩ | ⟨other, hother, hne⟩
    · cases hu.symm.trans hrefused
    · cases hother.symm.trans hrefused
      exact hne
  plain _ h := ⟨h.plain.callDepth, h.plain.stack⟩
  steps := by
    intro w' h hne limit
    refine ⟨fun k hk => ?_, hiddenSteps_goal_end hne h limit⟩
    obtain ⟨v, hv⟩ := World.exists_foldlM_perform_take h k
    exact ⟨v, hv, hiddenSteps_goal hk hv limit⟩

/-- The robot leaves a beeper and takes the one that should lie in the next cell. -/
def exchange : List Action := [.dropBeeper, .moveForward, .pickBeeper]

/-- In the alcove the exchange can be performed, and in the empty room its last action is
refused. -/
theorem goal_replays_script_exchange :
    (alcove.robot.OnGrid ∧ (∃ w, exchange.foldlM World.perform alcove = .ok w) ∧
      (goal exchange).Replays exchange alcove) ∧
    World.start.robot.OnGrid ∧ exchange.foldlM World.perform .start = .error .cellIsEmpty ∧
      (goal exchange).Replays exchange .start :=
  ⟨⟨by decide, ⟨_, rfl⟩, goal_replays_script exchange (by decide)⟩,
    World.onGrid_start, rfl, goal_replays_script exchange World.onGrid_start⟩

end KarelRobot
