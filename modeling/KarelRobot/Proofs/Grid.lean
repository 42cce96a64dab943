import KarelRobot.World

/-!
# Robots on the grid

A robot on the grid stays on it, and its world can answer every question: there is room for the
walls and the beepers of each cell of the grid.

* `World.exists_ask` — every question has an answer.
* `World.perform_cases`, `World.onGrid_of_perform` — what an action can do on the grid.
-/

set_option autoImplicit false
namespace KarelRobot

theorem Cell.OnGrid.index_lt {cell : Cell} (h : cell.OnGrid) : cell.index < 100 := by
  obtain ⟨hx, hy⟩ := h
  simp only [Cell.width, Cell.height] at hx hy
  simp only [Cell.index, Cell.width]
  omega

theorem Cell.onGrid_of_neighbour? {cell next : Cell} {d : Direction}
    (h : cell.neighbour? d = some next) : next.OnGrid := by
  rw [neighbour?, Option.filter_eq_some_iff] at h
  exact of_decide_eq_true h.2

namespace World

variable {w : World}

theorem onGrid_start : World.start.robot.OnGrid := by decide

theorem exists_beeperAt? (w : World) {cell : Cell} (h : cell.OnGrid) :
    ∃ answer, w.beeperAt? cell = some answer := by
  have hindex := h.index_lt
  exact ⟨_, if_pos (by omega)⟩

theorem exists_onBeeper (h : w.robot.OnGrid) : ∃ answer, w.onBeeper = .ok answer := by
  obtain ⟨answer, hanswer⟩ := w.exists_beeperAt? h
  exact ⟨answer, by rw [onBeeper, hanswer]⟩

/-- A robot on the grid knows what it can reach, and that is on the grid. -/
theorem exists_clearTowards (h : w.robot.OnGrid) (d : Direction) :
    ∃ next, w.clearTowards d = .ok next ∧ ∀ cell, next = some cell → cell.OnGrid := by
  have hclear : ∃ clear, w.plan.isClear? w.robot d = some clear := by
    rw [FloorPlan.isClear?, FloorPlan.wallsAt?, getElem?_pos w.plan.walls w.robot.index h.index_lt]
    exact ⟨_, rfl⟩
  obtain ⟨clear, hclear⟩ := hclear
  unfold clearTowards
  rw [hclear]
  cases clear with
  | true => exact ⟨_, rfl, fun cell hcell => Cell.onGrid_of_neighbour? hcell⟩
  | false => exact ⟨_, rfl, fun cell hcell => by cases hcell⟩

theorem exists_isClear (h : w.robot.OnGrid) (d : Direction) :
    ∃ answer, w.isClear d = .ok answer := by
  obtain ⟨next, hnext, -⟩ := exists_clearTowards h d
  exact ⟨next.isSome, by rw [isClear, hnext]; rfl⟩

/-- **A robot on the grid can answer every question.** -/
theorem exists_ask (h : w.robot.OnGrid) (which : Predicate) :
    ∃ answer, w.ask which = .ok answer := by
  cases which with
  | onBeeper => exact exists_onBeeper h
  | beeperAhead =>
    rw [ask, beeperAhead]
    cases hnext : w.robot.neighbour? w.heading with
    | none => exact ⟨false, rfl⟩
    | some next =>
      obtain ⟨answer, hanswer⟩ := w.exists_beeperAt? (Cell.onGrid_of_neighbour? hnext)
      exact ⟨answer, by simp only [hanswer]⟩
  | leftIsClear => exact exists_isClear h _
  | frontIsClear => exact exists_isClear h _
  | rightIsClear => exact exists_isClear h _

/-- What an action does to a robot on the grid: it stays there, or something in the world is in
the way. -/
theorem perform_cases (h : w.robot.OnGrid) (which : Action) :
    (∃ w', w.perform which = .ok w' ∧ w'.robot.OnGrid) ∨
      ∃ fault, w.perform which = .error fault ∧ fault ≠ .offPlan := by
  obtain ⟨answer, hanswer⟩ := exists_onBeeper h
  cases which with
  | moveForward =>
    obtain ⟨next, hnext, hgrid⟩ := exists_clearTowards h w.heading
    rw [perform, moveForward, hnext]
    cases next with
    | none => exact .inr ⟨_, rfl, by decide⟩
    | some cell => exact .inl ⟨_, rfl, hgrid cell rfl⟩
  | turnLeft => exact .inl ⟨_, rfl, h⟩
  | turnAround => exact .inl ⟨_, rfl, h⟩
  | turnRight => exact .inl ⟨_, rfl, h⟩
  | pickBeeper =>
    rw [perform, pickBeeper, hanswer]
    cases answer with
    | true => exact .inl ⟨_, rfl, h⟩
    | false => exact .inr ⟨_, rfl, by decide⟩
  | dropBeeper =>
    rw [perform, dropBeeper, hanswer]
    cases answer with
    | true => exact .inr ⟨_, rfl, by decide⟩
    | false => exact .inl ⟨_, rfl, h⟩

/-- **No action leaves the grid.** -/
theorem onGrid_of_perform (h : w.robot.OnGrid) {which : Action} {w' : World}
    (hw : w.perform which = .ok w') : w'.robot.OnGrid := by
  rcases perform_cases h which with ⟨w'', hw'', hgrid⟩ | ⟨fault, hfault, -⟩
  · rw [hw] at hw''
    cases hw''
    exact hgrid
  · rw [hw] at hfault
    cases hfault

end World
end KarelRobot
