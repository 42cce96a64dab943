import KarelRobot.Proofs.Board

/-!
# Walls have two sides

A wall stands on an edge, which is the side of a cell and, unless it is on the border, the opposite
side of its neighbour; a floor plan stores it with both cells.  Building a plan wall by wall keeps
the two in step, so a robot that has moved can always go back.

* `Side`, `Side.Joins` — the sides of cells, and when two of them are the same edge.
* `FloorPlan.withWalls?` — the plan with some more walls.
* `FloorPlan.Marked` — the bits of a plan, `FloorPlan.exists_withWalls?` and
  `FloorPlan.marked_empty`, which of them are set.
* `FloorPlan.TwoSided` — both cells know of the walls between them.
* `walls_have_two_sides` — so it is with every plan that is built from the empty one.
-/

set_option autoImplicit false
namespace KarelRobot

/-! ## Edges -/

/-- A side of a cell. -/
structure Side where
  cell : Cell
  direction : Direction
deriving DecidableEq

/-- Two sides are the same edge: they are the same side, or they face each other. -/
def Side.Joins (s t : Side) : Prop :=
  t = s ∨ s.cell.neighbour? s.direction = some t.cell ∧ t.direction = s.direction.around

instance (s t : Side) : Decidable (s.Joins t) :=
  inferInstanceAs (Decidable (_ ∨ _))

@[simp] theorem Direction.around_around (d : Direction) : d.around.around = d := by
  cases d <;> rfl

theorem Direction.quarters_injective : Function.Injective Direction.quarters := by
  intro d e h
  cases d <;> cases e <;> first | rfl | cases h

/-- One square further and back. -/
theorem Square.ahead_ahead (s : Square) (side : Fin 4) : (s.ahead side).ahead (side + 2) = s := by
  match side with
  | 0 | 1 | 2 | 3 => ext <;> simp [ahead]

/-- The neighbour of a neighbour, on the way back, is the cell itself. -/
theorem Cell.neighbour?_around {cell next : Cell} {d : Direction} (h : cell.OnGrid)
    (hnext : cell.neighbour? d = some next) : next.neighbour? d.around = some cell := by
  rw [neighbour?, Option.filter_eq_some_iff] at hnext ⊢
  refine ⟨step?_eq_some_iff.2 ?_, decide_eq_true h⟩
  rw [step?_eq_some_iff.1 hnext.1, Direction.quarters_around, Square.ahead_ahead]

/-- A cell of the grid has no neighbour on the sides that lie on the border. -/
theorem Cell.neighbour?_eq_none_iff {cell : Cell} (h : cell.OnGrid) (d : Direction) :
    cell.neighbour? d = none ↔ match d with
      | .east => cell.x + 1 = width
      | .north => cell.y = 0
      | .west => cell.x = 0
      | .south => cell.y + 1 = height := by
  have hgrid : cell.neighbour? d = none ↔ cell.square.ahead d.quarters ∉ Square.grid := by
    rw [neighbour?_eq]
    split <;> simp_all
  obtain ⟨hx, hy⟩ := h
  rw [hgrid, Square.mem_grid_iff]
  simp only [width, height] at hx hy ⊢
  cases d <;> simp only [Direction.quarters, Square.ahead, square, Prod.mk_add_mk] <;> omega

/-- An edge can be named by either of its sides. -/
theorem Side.Joins.symm {s t : Side} (h : s.Joins t) (hs : s.cell.OnGrid) : t.Joins s := by
  obtain ⟨cell, d⟩ := s
  obtain ⟨cell', d'⟩ := t
  rcases h with h | ⟨hcell, hdirection⟩
  · exact .inl h.symm
  · dsimp only at hcell hdirection
    subst hdirection
    exact .inr ⟨Cell.neighbour?_around hs hcell, (Direction.around_around d).symm⟩

/-- Two sides and no more are the same edge. -/
theorem Side.Joins.trans {s t u : Side} (h : s.Joins t) (h' : t.Joins u) (hs : s.cell.OnGrid) :
    s.Joins u := by
  obtain ⟨cell, d⟩ := s
  obtain ⟨cell', d'⟩ := t
  obtain ⟨cell'', d''⟩ := u
  rcases h with h | ⟨hcell, hdirection⟩
  · rwa [← h]
  · rcases h' with h' | ⟨hcell', hdirection'⟩
    · rw [h']
      exact .inr ⟨hcell, hdirection⟩
    · dsimp only at hs hcell hdirection hcell' hdirection'
      rw [hdirection, Cell.neighbour?_around hs hcell, Option.some.injEq] at hcell'
      rw [hdirection, Direction.around_around] at hdirection'
      rw [hcell', hdirection']
      exact .inl rfl

/-- A wall on this edge needs bit `k` in the walls of the cell with number `i`. -/
def Side.Marks (s : Side) (i k : Nat) : Prop :=
  ∃ t, s.Joins t ∧ t.cell.index = i ∧ t.direction.quarters = k

theorem Side.marks_of_border {s : Side} (h : s.cell.neighbour? s.direction = none) {i k : Nat} :
    s.Marks i k ↔ s.cell.index = i ∧ s.direction.quarters = k := by
  simp [Marks, Joins, h]

theorem Side.marks_of_inner {s : Side} {next : Cell}
    (h : s.cell.neighbour? s.direction = some next) {i k : Nat} :
    s.Marks i k ↔ (s.cell.index = i ∧ s.direction.quarters = k) ∨
      (next.index = i ∧ s.direction.around.quarters = k) := by
  constructor
  · rintro ⟨t, rfl | ⟨hcell, hdirection⟩, ht⟩
    · exact .inl ht
    · rw [h, Option.some.injEq] at hcell
      rw [hcell, ← hdirection]
      exact .inr ht
  · rintro (hs | hnext)
    · exact ⟨s, .inl rfl, hs⟩
    · exact ⟨⟨next, s.direction.around⟩, .inr ⟨h, rfl⟩, hnext⟩

theorem Side.Joins.onGrid {s t : Side} (h : s.Joins t) (hs : s.cell.OnGrid) : t.cell.OnGrid := by
  rcases h with rfl | ⟨hcell, -⟩
  · exact hs
  · exact Cell.onGrid_of_neighbour? hcell

/-- The bits of a side of the grid are those of no other side. -/
theorem Side.marks_iff_joins {s t : Side} (hs : s.cell.OnGrid) (ht : t.cell.OnGrid) :
    s.Marks t.cell.index t.direction.quarters ↔ s.Joins t := by
  constructor
  · rintro ⟨⟨cell, direction⟩, hjoins, hindex, hquarters⟩
    have hcell := (Cell.index_inj (hjoins.onGrid hs) ht).1 hindex
    have hdirection := Direction.quarters_injective (Fin.ext hquarters)
    dsimp only at hcell hdirection
    rwa [hcell, hdirection] at hjoins
  · exact fun hjoins => ⟨t, hjoins, rfl, rfl⟩

/-! ## The bits of a plan -/

namespace FloorPlan

variable {plan plan' : FloorPlan}

/-- Bit `k` is set in the walls of the cell with number `i`. -/
def Marked (plan : FloorPlan) (i k : Nat) : Prop :=
  (plan.walls[i]?.getD 0).toNat.testBit k = true

instance (i k : Nat) : Decidable (plan.Marked i k) :=
  inferInstanceAs (Decidable (_ = true))

/-- The bits make up the plan. -/
theorem ext_marked (h : ∀ i k, plan.Marked i k ↔ plan'.Marked i k) : plan = plan' := by
  obtain ⟨walls⟩ := plan
  obtain ⟨walls'⟩ := plan'
  congr 1
  ext i hi : 1
  rw [← UInt8.toNat_inj]
  refine Nat.eq_of_testBit_eq fun k => ?_
  have hbit := h i k
  simp only [Marked, Vector.getElem?_eq_getElem hi, Option.getD_some] at hbit
  exact Bool.eq_iff_iff.2 hbit

theorem isClear?_eq_not_marked (plan : FloorPlan) {cell : Cell} (h : cell.OnGrid)
    (d : Direction) : plan.isClear? cell d = some (decide ¬ plan.Marked cell.index d.quarters) := by
  rw [isClear?_eq plan h]
  simp [Marked]

/-- A wall on one side sets one bit. -/
theorem exists_addWall? (plan : FloorPlan) {cell : Cell} (h : cell.OnGrid) (d : Direction) :
    ∃ plan', plan.addWall? cell d = some plan' ∧
      ∀ i k, plan'.Marked i k ↔ plan.Marked i k ∨ cell.index = i ∧ d.quarters = k := by
  refine ⟨_, dif_pos h.index_lt, fun i k => ?_⟩
  rw [Marked, Vector.getElem?_set]
  split
  next hi =>
    subst hi
    rw [Marked, getElem?_pos plan.walls cell.index h.index_lt]
    simp [UInt8.toNat_or, Nat.testBit_or, Direction.toNat_wall, Nat.testBit_two_pow]
  next hi => simp [Marked, hi]

/-- **A wall sets the bits of the two sides of its edge.** -/
theorem exists_withWall? (plan : FloorPlan) {s : Side} (h : s.cell.OnGrid) :
    ∃ plan', plan.withWall? s.cell s.direction = some plan' ∧
      ∀ i k, plan'.Marked i k ↔ plan.Marked i k ∨ s.Marks i k := by
  obtain ⟨near, hnear, hmarked⟩ := plan.exists_addWall? h s.direction
  rw [withWall?, hnear]
  cases hnext : s.cell.neighbour? s.direction with
  | none => exact ⟨near, rfl, fun i k => by rw [hmarked, Side.marks_of_border hnext]⟩
  | some next =>
    obtain ⟨far, hfar, hmarked'⟩ :=
      near.exists_addWall? (Cell.onGrid_of_neighbour? hnext) s.direction.around
    exact ⟨far, hfar, fun i k => by rw [hmarked', hmarked, Side.marks_of_inner hnext, or_assoc]⟩

/-- The plan with some more walls, if there is room for them. -/
def withWalls? (plan : FloorPlan) (sides : List Side) : Option FloorPlan :=
  sides.foldlM (fun plan s => plan.withWall? s.cell s.direction) plan

/-- Walls set the bits of their edges and no others. -/
theorem exists_withWalls? (plan : FloorPlan) {sides : List Side}
    (h : ∀ s ∈ sides, s.cell.OnGrid) :
    ∃ plan', plan.withWalls? sides = some plan' ∧
      ∀ i k, plan'.Marked i k ↔ plan.Marked i k ∨ ∃ s ∈ sides, s.Marks i k := by
  induction sides generalizing plan with
  | nil => exact ⟨plan, rfl, by simp⟩
  | cons s sides ih =>
    obtain ⟨hs, hsides⟩ := List.forall_mem_cons.1 h
    obtain ⟨next, hnext, hmarked⟩ := plan.exists_withWall? hs
    obtain ⟨last, hlast, hmarked'⟩ := ih next hsides
    refine ⟨last, ?_, fun i k => ?_⟩
    · rw [withWalls?, List.foldlM_cons, hnext]
      exact hlast
    · rw [hmarked', hmarked, or_assoc]
      simp only [List.mem_cons, exists_eq_or_imp]

/-! ### The empty room -/

/-- The bit of a direction is set by the wall in that direction. -/
theorem testBit_wall_ite (condition : Prop) [Decidable condition] (d side : Direction) :
    (if condition then d.wall else 0).toNat.testBit side.quarters =
      decide (condition ∧ d = side) := by
  have hquarters : (d.quarters.val = side.quarters.val) = (d = side) := by
    rw [Fin.val_inj, Direction.quarters_injective.eq_iff]
  by_cases h : condition <;> simp [h, Direction.toNat_wall, Nat.testBit_two_pow, hquarters]

/-- The empty room has walls where a cell has no neighbour. -/
theorem marked_empty {cell : Cell} (h : cell.OnGrid) (d : Direction) :
    empty.Marked cell.index d.quarters ↔ cell.neighbour? d = none := by
  have hcell : (⟨cell.index % Cell.width, cell.index / Cell.width⟩ : Cell) = cell := by
    obtain ⟨x, y⟩ := cell
    obtain ⟨hx, hy⟩ := h
    simp only [Cell.index, Cell.width, Cell.mk.injEq] at hx ⊢
    omega
  have hwalls : empty.walls[cell.index]? = some (borderWalls cell) := by
    rw [getElem?_pos empty.walls cell.index h.index_lt, empty, Vector.getElem_ofFn, hcell]
  rw [Marked, hwalls, Option.getD_some, borderWalls, Cell.neighbour?_eq_none_iff h]
  simp only [UInt8.toNat_or, Nat.testBit_or, testBit_wall_ite]
  cases d <;> simp

/-! ## Both sides of a wall -/

/-- Nothing is clear across the border, and a cell and its neighbour agree on whether the edge
between them is clear. -/
structure TwoSided (plan : FloorPlan) : Prop where
  border : ∀ {cell : Cell} {d : Direction}, cell.OnGrid → cell.neighbour? d = none →
    plan.isClear? cell d = some false
  inner : ∀ {cell next : Cell} {d : Direction}, cell.OnGrid → cell.neighbour? d = some next →
    ∃ clear, plan.isClear? cell d = some clear ∧ plan.isClear? next d.around = some clear

section Built

variable {sides : List Side} (h : ∀ s ∈ sides, s.cell.OnGrid)
  (hplan : empty.withWalls? sides = some plan)
include h hplan

/-- A side of a plan that was built in the empty room is blocked on the border and where a wall was
built. -/
theorem marked_iff_of_built {t : Side} (ht : t.cell.OnGrid) :
    plan.Marked t.cell.index t.direction.quarters ↔
      t.cell.neighbour? t.direction = none ∨ ∃ s ∈ sides, s.Joins t := by
  obtain ⟨built, hbuilt, hmarked⟩ := empty.exists_withWalls? h
  rw [hplan, Option.some.injEq] at hbuilt
  rw [hbuilt, hmarked, marked_empty ht]
  refine or_congr_right (exists_congr fun s => and_congr_right fun hs => ?_)
  exact Side.marks_iff_joins (h s hs) ht

/-- The two sides of an edge are blocked together. -/
theorem marked_iff_of_joins {s t : Side} (hs : s.cell.OnGrid) (hjoins : s.Joins t) :
    plan.Marked s.cell.index s.direction.quarters ↔
      plan.Marked t.cell.index t.direction.quarters := by
  have hborder : s.cell.neighbour? s.direction = none ↔ t.cell.neighbour? t.direction = none := by
    rcases hjoins with rfl | ⟨hnext, hdirection⟩
    · rfl
    · rw [hnext, hdirection, Cell.neighbour?_around hs hnext]
      simp
  rw [marked_iff_of_built h hplan hs, marked_iff_of_built h hplan (hjoins.onGrid hs), hborder]
  refine or_congr_right (exists_congr fun u => and_congr_right fun hu => ?_)
  exact ⟨fun hus => hus.trans hjoins (h u hu), fun hut => hut.trans (hjoins.symm hs) (h u hu)⟩

/-- **A plan that was built in the empty room is two-sided.** -/
theorem twoSided_of_built : plan.TwoSided where
  border {cell d} hcell hnone := by
    have hmarked := (marked_iff_of_built h hplan (t := ⟨cell, d⟩) hcell).2 (.inl hnone)
    rw [isClear?_eq_not_marked plan hcell, decide_eq_false (not_not.2 hmarked)]
  inner {cell next d} hcell hnext := by
    have hjoins : Side.Joins ⟨cell, d⟩ ⟨next, d.around⟩ := .inr ⟨hnext, rfl⟩
    have hsame := marked_iff_of_joins h hplan hcell hjoins
    refine ⟨_, isClear?_eq_not_marked plan hcell d, ?_⟩
    rw [isClear?_eq_not_marked plan (Cell.onGrid_of_neighbour? hnext)]
    simp only [hsame]

/-- The order and the repetitions of the walls do not matter. -/
theorem withWalls?_congr {sides' : List Side} (hsame : ∀ s, s ∈ sides' ↔ s ∈ sides) :
    empty.withWalls? sides' = some plan := by
  obtain ⟨built, hbuilt, hmarked⟩ := empty.exists_withWalls? h
  obtain ⟨built', hbuilt', hmarked'⟩ :=
    empty.exists_withWalls? fun s hs => h s ((hsame s).1 hs)
  have heq : built' = built := ext_marked fun i k => by
    rw [hmarked, hmarked']
    simp only [hsame]
  rw [hbuilt', heq, ← hbuilt, hplan]

end Built

/-- **A wall blocks its edge and nothing else.** -/
theorem exists_withWall?_isClear? (plan : FloorPlan) {s : Side} (h : s.cell.OnGrid) :
    ∃ plan', plan.withWall? s.cell s.direction = some plan' ∧
      ∀ t : Side, t.cell.OnGrid → plan'.isClear? t.cell t.direction =
        if s.Joins t then some false else plan.isClear? t.cell t.direction := by
  obtain ⟨plan', hplan', hmarked⟩ := plan.exists_withWall? h
  refine ⟨plan', hplan', fun t ht => ?_⟩
  rw [isClear?_eq_not_marked plan' ht, isClear?_eq_not_marked plan ht]
  simp only [hmarked, Side.marks_iff_joins h ht]
  split <;> simp_all

end FloorPlan

/-! ## Moving back -/

/-- The robot moves to the neighbour in front of it if its cell is clear there. -/
theorem World.moveForward_eq_ok_iff {w w' : World} :
    w.moveForward = .ok w' ↔ ∃ next, w.plan.isClear? w.robot w.heading = some true ∧
      w.robot.neighbour? w.heading = some next ∧ { w with robot := next } = w' := by
  rw [moveForward, clearTowards]
  rcases w.plan.isClear? w.robot w.heading with _ | _ | _
  · simp
  · simp
  · cases w.robot.neighbour? w.heading <;> simp

/-- **A robot that has moved can go back**, and then nothing has changed. -/
theorem World.moveForward_back {w w' : World} (hplan : w.plan.TwoSided) (h : w.robot.OnGrid)
    (hw : w.perform .moveForward = .ok w') :
    [.turnAround, .moveForward, .turnAround].foldlM World.perform w' = .ok w := by
  obtain ⟨next, hclear, hnext, rfl⟩ := moveForward_eq_ok_iff.1 hw
  obtain ⟨clear, hnear, hfar⟩ := hplan.inner h hnext
  rw [hclear, Option.some.injEq] at hnear
  subst hnear
  have hback : { w with robot := next, heading := w.heading.around }.moveForward =
      .ok { w with heading := w.heading.around } :=
    moveForward_eq_ok_iff.2 ⟨w.robot, hfar, Cell.neighbour?_around h hnext, rfl⟩
  calc [.turnAround, .moveForward, .turnAround].foldlM World.perform { w with robot := next }
      = [.moveForward, .turnAround].foldlM World.perform
          { w with robot := next, heading := w.heading.around } := rfl
    _ = [.turnAround].foldlM World.perform { w with heading := w.heading.around } := by
        rw [List.foldlM_cons, perform, hback]
        rfl
    _ = .ok { w with heading := w.heading.around.around } := rfl
    _ = .ok w := by rw [Direction.around_around]

/-- **Walls have two sides.**  Some walls on the grid can be built in the empty room one after the
other.  Then nothing is clear across the border, and two neighbours agree on the edge between them;
one more wall blocks its own edge only; the same walls in another order, or some of them again, make
the same plan; and a robot that can move can go back, and then nothing has changed. -/
theorem walls_have_two_sides {sides : List Side} (h : ∀ s ∈ sides, s.cell.OnGrid) :
    ∃ plan, FloorPlan.empty.withWalls? sides = some plan ∧ plan.TwoSided ∧
      (∀ s : Side, s.cell.OnGrid → ∃ plan', plan.withWall? s.cell s.direction = some plan' ∧
        ∀ t : Side, t.cell.OnGrid → plan'.isClear? t.cell t.direction =
          if s.Joins t then some false else plan.isClear? t.cell t.direction) ∧
      (∀ sides' : List Side, (∀ s, s ∈ sides' ↔ s ∈ sides) →
        FloorPlan.empty.withWalls? sides' = some plan) ∧
      ∀ w w' : World, w.plan = plan → w.robot.OnGrid → w.perform .moveForward = .ok w' →
        [.turnAround, .moveForward, .turnAround].foldlM World.perform w' = .ok w := by
  obtain ⟨plan, hplan, -⟩ := FloorPlan.empty.exists_withWalls? h
  have htwoSided := FloorPlan.twoSided_of_built h hplan
  refine ⟨plan, hplan, htwoSided, fun s hs => plan.exists_withWall?_isClear? hs,
    fun sides' => FloorPlan.withWalls?_congr h hplan, ?_⟩
  rintro w w' rfl
  exact World.moveForward_back htwoSided

/-- A wall behind the second cell, built from both of its sides, and one on the border. -/
def nook : List Side :=
  [⟨⟨1, 0⟩, .east⟩, ⟨⟨0, 0⟩, .west⟩, ⟨⟨2, 0⟩, .west⟩]

/-- In front of the nook there is a way in and back. -/
theorem walls_have_two_sides_nook :
    (∀ s ∈ nook, s.cell.OnGrid) ∧
      ∃ plan w', FloorPlan.empty.withWalls? nook = some plan ∧ plan.TwoSided ∧
        FloorPlan.empty.withWalls? nook.reverse = some plan ∧
        (World.ofPlan plan).perform .moveForward = .ok w' ∧
        [.turnAround, .moveForward, .turnAround].foldlM World.perform w' =
          .ok (World.ofPlan plan) := by
  have hgrid : ∀ s ∈ nook, s.cell.OnGrid := by decide
  have horigin : (⟨0, 0⟩ : Cell).OnGrid := by decide
  obtain ⟨plan, hplan, htwoSided, -, hsame, hback⟩ := walls_have_two_sides hgrid
  have hclear : plan.isClear? ⟨0, 0⟩ .east = some true := by
    have heval : (FloorPlan.empty.withWalls? nook).bind (·.isClear? ⟨0, 0⟩ .east) = some true := by
      decide +kernel
    rwa [hplan] at heval
  have hmove : (World.ofPlan plan).perform .moveForward =
      .ok { World.ofPlan plan with robot := ⟨1, 0⟩ } :=
    World.moveForward_eq_ok_iff.2 ⟨⟨1, 0⟩, hclear, rfl, rfl⟩
  exact ⟨hgrid, plan, _, hplan, htwoSided, hsame _ fun s => List.mem_reverse, hmove,
    hback _ _ rfl horigin hmove⟩

end KarelRobot
