import KarelRobot.Proofs.Walls
import KarelRobot.World.Picture

/-!
# What a picture shows

A picture has one character for each edge and one for each cell.  All lines of two worlds are of the
same length, so equal pictures are equal character by character.  An edge is drawn once, whichever
of its two sides has the wall; where both cells know of every wall, nothing is lost by that.  The
robot hides whether there is a beeper under it, and everything else can be read off the picture.

* `World.picture_eq_iff` — what is equal in equal pictures.
* `FloorPlan.Built`, `FloorPlan.Built.ext` — plans built in the empty room, and what makes them up.
* `FloorPlan.TwoSided.forall_hasWall_iff` — the edges that are drawn are all edges.
* `World.forall_cellChar_iff` — what the characters for the cells show.
* `picture_determines_world` — what a picture shows of a world.
-/

set_option autoImplicit false
namespace KarelRobot

/-! ## Equal pictures -/

/-- Pieces of the same lengths, with something behind them, make up the same list if they are the
same. -/
theorem flatMap_range_append_inj {α : Type} {f g : Nat → List α} {n : Nat} {xs ys : List α}
    (hpieces : ∀ i, (f i).length = (g i).length) (hlast : xs.length = ys.length) :
    (List.range n).flatMap f ++ xs = (List.range n).flatMap g ++ ys ↔
      (∀ i < n, f i = g i) ∧ xs = ys := by
  have hlengths : ((List.range n).map f).map List.length =
      ((List.range n).map g).map List.length := by
    simp [hpieces]
  constructor
  · intro h
    obtain ⟨hflat, rfl⟩ := List.append_inj' h hlast
    rw [List.flatMap_def, List.flatMap_def] at hflat
    have hmap := List.eq_iff_flatten_eq.2 ⟨hflat, hlengths⟩
    exact ⟨by simpa using hmap, rfl⟩
  · rintro ⟨hsame, rfl⟩
    rw [List.flatMap_congr fun i hi => hsame i (List.mem_range.1 hi)]

/-- A mark or a blank says whether there is something to mark. -/
theorem mark_inj {mark : Char} (h : mark ≠ ' ') {a b : Bool} :
    (if a then mark else ' ') = (if b then mark else ' ') ↔ a = b := by
  cases a <;> cases b <;> simp [h, h.symm]

namespace World

variable {w w' : World}

theorem lineAbove_eq_iff {y : Nat} :
    w.lineAbove y = w'.lineAbove y ↔
      ∀ x < Cell.width, w.plan.hasWallAbove ⟨x, y⟩ = w'.plan.hasWallAbove ⟨x, y⟩ := by
  rw [lineAbove, lineAbove, flatMap_range_append_inj (by simp) (by simp)]
  simp [mark_inj]

theorem rowLine_eq_iff {y : Nat} :
    w.rowLine y = w'.rowLine y ↔
      (∀ x < Cell.width, w.plan.hasWallBefore ⟨x, y⟩ = w'.plan.hasWallBefore ⟨x, y⟩ ∧
        w.cellChar ⟨x, y⟩ = w'.cellChar ⟨x, y⟩) ∧
      w.plan.hasWall ⟨Cell.width - 1, y⟩ .east = w'.plan.hasWall ⟨Cell.width - 1, y⟩ .east := by
  rw [rowLine, rowLine, flatMap_range_append_inj (by simp) (by simp)]
  simp [mark_inj]

theorem lineBelow_eq_iff :
    w.lineBelow = w'.lineBelow ↔
      ∀ x < Cell.width, w.plan.hasWall ⟨x, Cell.height - 1⟩ .south =
        w'.plan.hasWall ⟨x, Cell.height - 1⟩ .south := by
  rw [lineBelow, lineBelow, flatMap_range_append_inj (by simp) (by simp)]
  simp [mark_inj]

/-- **Pictures are equal if every edge and every cell is drawn in the same way.** -/
theorem picture_eq_iff :
    w.picture = w'.picture ↔
      (∀ cell : Cell, cell.OnGrid → w.plan.hasWallAbove cell = w'.plan.hasWallAbove cell ∧
        w.plan.hasWallBefore cell = w'.plan.hasWallBefore cell ∧
        w.cellChar cell = w'.cellChar cell) ∧
      (∀ y < Cell.height, w.plan.hasWall ⟨Cell.width - 1, y⟩ .east =
        w'.plan.hasWall ⟨Cell.width - 1, y⟩ .east) ∧
      ∀ x < Cell.width, w.plan.hasWall ⟨x, Cell.height - 1⟩ .south =
        w'.plan.hasWall ⟨x, Cell.height - 1⟩ .south := by
  have hline (w : World) (y : Nat) : (w.lineAbove y).length = 22 := by
    simp [lineAbove, Cell.width]
  have hrow (w : World) (y : Nat) : (w.rowLine y).length = 22 := by
    simp [rowLine, Cell.width]
  have hlast (w : World) : w.lineBelow.length = 22 := by
    simp [lineBelow, Cell.width]
  have hpair (y : Nat) : w.lineAbove y ++ w.rowLine y = w'.lineAbove y ++ w'.rowLine y ↔
      w.lineAbove y = w'.lineAbove y ∧ w.rowLine y = w'.rowLine y :=
    ⟨fun h => List.append_inj h (by rw [hline, hline]), fun h => by rw [h.1, h.2]⟩
  rw [picture, picture, String.ofList_inj,
    flatMap_range_append_inj (by simp [hline, hrow]) (by simp [hlast])]
  simp only [hpair, lineAbove_eq_iff, rowLine_eq_iff, lineBelow_eq_iff]
  constructor
  · rintro ⟨hrows, hsouth⟩
    exact ⟨fun cell hcell => ⟨(hrows cell.y hcell.2).1 cell.x hcell.1,
      (hrows cell.y hcell.2).2.1 cell.x hcell.1⟩, fun y hy => (hrows y hy).2.2, hsouth⟩
  · rintro ⟨hcells, heast, hsouth⟩
    exact ⟨fun y hy => ⟨fun x hx => (hcells ⟨x, y⟩ ⟨hx, hy⟩).1,
      fun x hx => (hcells ⟨x, y⟩ ⟨hx, hy⟩).2, heast y hy⟩, hsouth⟩

end World

/-! ## Edges -/

namespace FloorPlan

variable {plan plan' : FloorPlan}

theorem hasWall_iff (plan : FloorPlan) {cell : Cell} (h : cell.OnGrid) (d : Direction) :
    plan.hasWall cell d = true ↔ plan.Marked cell.index d.quarters := by
  rw [hasWall, isClear?_eq_not_marked plan h]
  simp

namespace TwoSided

theorem hasWall_around (h : plan.TwoSided) {cell next : Cell} {d : Direction}
    (hcell : cell.OnGrid) (hnext : cell.neighbour? d = some next) :
    plan.hasWall next d.around = plan.hasWall cell d := by
  obtain ⟨clear, hnear, hfar⟩ := h.inner hcell hnext
  rw [hasWall, hasWall, hnear, hfar]

/-- What is drawn above a cell is the wall of that cell. -/
theorem hasWallAbove_eq (h : plan.TwoSided) {cell : Cell} (hcell : cell.OnGrid) :
    plan.hasWallAbove cell = plan.hasWall cell .north := by
  obtain ⟨x, y⟩ := cell
  cases y with
  | zero => simp [hasWallAbove]
  | succ y =>
    have hnext : (⟨x, y + 1⟩ : Cell).neighbour? .north = some ⟨x, y⟩ := by
      obtain ⟨hx, hy⟩ := hcell
      exact Option.filter_eq_some_iff.2 ⟨rfl, decide_eq_true ⟨hx, Nat.lt_of_succ_lt hy⟩⟩
    have hsame : plan.hasWall ⟨x, y⟩ .south = plan.hasWall ⟨x, y + 1⟩ .north :=
      h.hasWall_around (d := .north) hcell hnext
    simp [hasWallAbove, hsame]

/-- What is drawn to the left of a cell is the wall of that cell. -/
theorem hasWallBefore_eq (h : plan.TwoSided) {cell : Cell} (hcell : cell.OnGrid) :
    plan.hasWallBefore cell = plan.hasWall cell .west := by
  obtain ⟨x, y⟩ := cell
  cases x with
  | zero => simp [hasWallBefore]
  | succ x =>
    have hnext : (⟨x + 1, y⟩ : Cell).neighbour? .west = some ⟨x, y⟩ := by
      obtain ⟨hx, hy⟩ := hcell
      exact Option.filter_eq_some_iff.2 ⟨rfl, decide_eq_true ⟨Nat.lt_of_succ_lt hx, hy⟩⟩
    have hsame : plan.hasWall ⟨x, y⟩ .east = plan.hasWall ⟨x + 1, y⟩ .west :=
      h.hasWall_around (d := .west) hcell hnext
    simp [hasWallBefore, hsame]

/-- Plans that agree on one side of all cells agree on the opposite side too: an edge that is not on
the border is the first side of the neighbour. -/
theorem hasWall_congr (h : plan.TwoSided) (h' : plan'.TwoSided) {d : Direction}
    (hsame : ∀ cell : Cell, cell.OnGrid → plan.hasWall cell d = plan'.hasWall cell d) {cell : Cell}
    (hcell : cell.OnGrid) : plan.hasWall cell d.around = plan'.hasWall cell d.around := by
  cases hnext : cell.neighbour? d.around with
  | none => rw [hasWall, hasWall, h.border hcell hnext, h'.border hcell hnext]
  | some next =>
    have hedge := hsame next (Cell.onGrid_of_neighbour? hnext)
    rw [← d.around_around] at hedge
    rw [← h.hasWall_around hcell hnext, ← h'.hasWall_around hcell hnext, hedge]

/-- **Above and to the left of the cells all walls are drawn** but those on the far border, which
are always there. -/
theorem forall_hasWall_iff (h : plan.TwoSided) (h' : plan'.TwoSided) :
    (∀ cell : Cell, cell.OnGrid → ∀ d, plan.hasWall cell d = plan'.hasWall cell d) ↔
      ∀ cell : Cell, cell.OnGrid → plan.hasWallAbove cell = plan'.hasWallAbove cell ∧
        plan.hasWallBefore cell = plan'.hasWallBefore cell := by
  constructor
  · intro hsame cell hcell
    rw [h.hasWallAbove_eq hcell, h'.hasWallAbove_eq hcell, h.hasWallBefore_eq hcell,
      h'.hasWallBefore_eq hcell]
    exact ⟨hsame cell hcell .north, hsame cell hcell .west⟩
  · intro hdrawn
    have hnorth (cell : Cell) (hcell : cell.OnGrid) :
        plan.hasWall cell .north = plan'.hasWall cell .north := by
      rw [← h.hasWallAbove_eq hcell, ← h'.hasWallAbove_eq hcell, (hdrawn cell hcell).1]
    have hwest (cell : Cell) (hcell : cell.OnGrid) :
        plan.hasWall cell .west = plan'.hasWall cell .west := by
      rw [← h.hasWallBefore_eq hcell, ← h'.hasWallBefore_eq hcell, (hdrawn cell hcell).2]
    intro cell hcell d
    cases d with
    | north => exact hnorth cell hcell
    | west => exact hwest cell hcell
    | south => exact h.hasWall_congr h' hnorth hcell
    | east => exact h.hasWall_congr h' hwest hcell

end TwoSided

/-! ## Plans built in the empty room -/

/-- The plan was built in the empty room by walls on the grid. -/
def Built (plan : FloorPlan) : Prop :=
  ∃ sides : List Side, (∀ s ∈ sides, s.cell.OnGrid) ∧ empty.withWalls? sides = some plan

namespace Built

theorem twoSided (h : plan.Built) : plan.TwoSided := by
  obtain ⟨sides, hsides, hplan⟩ := h
  exact twoSided_of_built hsides hplan

/-- The bits that are set in the empty room belong to sides of the grid. -/
theorem exists_side_of_marked_empty {i k : Nat} (h : empty.Marked i k) :
    ∃ s : Side, s.cell.OnGrid ∧ s.cell.index = i ∧ s.direction.quarters = k := by
  rw [Marked] at h
  by_cases hi : i < 100
  · have hcell : (⟨i % Cell.width, i / Cell.width⟩ : Cell).OnGrid := by
      simp only [Cell.OnGrid, Cell.width, Cell.height]
      omega
    have hindex : (⟨i % Cell.width, i / Cell.width⟩ : Cell).index = i := Nat.div_add_mod' i _
    rw [getElem?_pos empty.walls i hi, Option.getD_some, empty, Vector.getElem_ofFn,
      borderWalls] at h
    have hwall (condition : Prop) [Decidable condition] (d : Direction)
        (hbit : (if condition then d.wall else 0).toNat.testBit k = true) : d.quarters = k := by
      split at hbit
      · rw [d.toNat_wall, Nat.testBit_two_pow] at hbit
        exact of_decide_eq_true hbit
      · simp at hbit
    simp only [UInt8.toNat_or, Nat.testBit_or, Bool.or_eq_true] at h
    rcases h with ((h | h) | h) | h
    all_goals exact ⟨⟨_, _⟩, hcell, hindex, hwall _ _ h⟩
  · rw [getElem?_neg empty.walls i hi] at h
    simp at h

/-- Only sides of the grid have their bits set. -/
theorem exists_side_of_marked (h : plan.Built) {i k : Nat} (hmarked : plan.Marked i k) :
    ∃ s : Side, s.cell.OnGrid ∧ s.cell.index = i ∧ s.direction.quarters = k := by
  obtain ⟨sides, hsides, hplan⟩ := h
  obtain ⟨built, hbuilt, hbits⟩ := empty.exists_withWalls? hsides
  rw [hplan, Option.some.injEq] at hbuilt
  rw [hbuilt, hbits] at hmarked
  rcases hmarked with hempty | ⟨s, hs, t, hjoins, hindex, hquarters⟩
  · exact exists_side_of_marked_empty hempty
  · exact ⟨t, hjoins.onGrid (hsides s hs), hindex, hquarters⟩

/-- **The walls on the grid make up a plan** that was built in the empty room. -/
theorem ext (h : plan.Built) (h' : plan'.Built)
    (hwalls : ∀ cell : Cell, cell.OnGrid → ∀ d, plan.hasWall cell d = plan'.hasWall cell d) :
    plan = plan' := by
  have hside (s : Side) (hs : s.cell.OnGrid) :
      plan.Marked s.cell.index s.direction.quarters ↔
        plan'.Marked s.cell.index s.direction.quarters := by
    rw [← plan.hasWall_iff hs, ← plan'.hasWall_iff hs, hwalls s.cell hs]
  refine ext_marked fun i k => ⟨fun hmarked => ?_, fun hmarked => ?_⟩
  · obtain ⟨s, hs, rfl, rfl⟩ := h.exists_side_of_marked hmarked
    exact (hside s hs).1 hmarked
  · obtain ⟨s, hs, rfl, rfl⟩ := h'.exists_side_of_marked hmarked
    exact (hside s hs).2 hmarked

end Built
end FloorPlan

/-! ## Cells -/

theorem Direction.arrow_injective : Function.Injective Direction.arrow := by
  intro d e h
  cases d <;> cases e <;> first | rfl | cases h

namespace World

variable {w w' : World}

/-- An arrow is drawn where the robot is and nowhere else. -/
theorem cellChar_eq_arrow_iff {cell : Cell} {d : Direction} :
    w.cellChar cell = d.arrow ↔ cell = w.robot ∧ w.heading = d := by
  have hother : 'o' ≠ d.arrow ∧ '.' ≠ d.arrow := by cases d <;> decide
  rw [cellChar]
  split
  next hrobot => simp [hrobot, Direction.arrow_injective.eq_iff]
  next hrobot => split <;> simp [hrobot, hother]

/-- On the other cells beepers are drawn. -/
theorem cellChar_eq_cellChar_iff {cell : Cell} (h : cell.OnGrid) (hw : cell ≠ w.robot)
    (hw' : cell ≠ w'.robot) :
    w.cellChar cell = w'.cellChar cell ↔ w.beeperAt? cell = w'.beeperAt? cell := by
  obtain ⟨answer, hanswer⟩ := w.exists_beeperAt? h
  obtain ⟨answer', hanswer'⟩ := w'.exists_beeperAt? h
  rw [cellChar, cellChar, if_neg hw, if_neg hw', hanswer, hanswer']
  cases answer <;> cases answer' <;> simp

/-- **The characters for the cells show the robot and the beepers** that are not under it. -/
theorem forall_cellChar_iff (h : w.robot.OnGrid) (w' : World) :
    (∀ cell : Cell, cell.OnGrid → w.cellChar cell = w'.cellChar cell) ↔
      w.robot = w'.robot ∧ w.heading = w'.heading ∧
        ∀ cell : Cell, cell.OnGrid → cell ≠ w.robot → w.beeperAt? cell = w'.beeperAt? cell := by
  constructor
  · intro hsame
    have harrow : w'.cellChar w.robot = w.heading.arrow := by
      rw [← hsame _ h]
      exact cellChar_eq_arrow_iff.2 ⟨rfl, rfl⟩
    obtain ⟨hrobot, hheading⟩ := cellChar_eq_arrow_iff.1 harrow
    refine ⟨hrobot, hheading.symm, fun cell hcell hne => ?_⟩
    exact (cellChar_eq_cellChar_iff hcell hne (hrobot ▸ hne)).1 (hsame cell hcell)
  · rintro ⟨hrobot, hheading, hbeepers⟩ cell hcell
    by_cases hne : cell = w.robot
    · rw [cellChar, if_pos hne, eq_comm, cellChar_eq_arrow_iff, hne]
      exact ⟨hrobot, hheading.symm⟩
    · exact (cellChar_eq_cellChar_iff hcell hne (hrobot ▸ hne)).2 (hbeepers cell hcell hne)

/-- A cell that is not on the grid is not looked at, but it shares its number with a cell that is,
or there is no beeper. -/
theorem OnGrid.forall_beeperAt?_iff (h : w.OnGrid) (h' : w'.OnGrid) :
    (∀ cell : Cell, cell.OnGrid → cell ≠ w.robot → w.beeperAt? cell = w'.beeperAt? cell) ↔
      ∀ cell : Cell, cell.index ≠ w.robot.index → w.beeperAt? cell = w'.beeperAt? cell := by
  constructor
  · intro hsame cell hcell
    by_cases hgrid : ∃ other : Cell, other.OnGrid ∧ other.index = cell.index
    · obtain ⟨other, hother, hindex⟩ := hgrid
      have hbeeper (v : World) : v.beeperAt? cell = v.beeperAt? other := by
        rw [beeperAt?, beeperAt?, hindex]
      rw [hbeeper, hbeeper]
      exact hsame other hother fun heq => hcell (by rw [← hindex, heq])
    · have hnone (v : World) (hv : v.OnGrid) : v.beepers.getLsbD cell.index = false :=
        Bool.eq_false_iff.2 fun hbit => hgrid (hv.beepers _ hbit)
      rw [beeperAt?, beeperAt?, hnone w h, hnone w' h']
  · intro hsame cell hcell hne
    exact hsame cell fun hindex => hne ((Cell.index_inj hcell h.robot).1 hindex)

end World

/-- **A picture determines the world** but for the beeper under the robot.  The pictures of two
worlds with everything on the grid, in rooms that were built wall by wall, are the same just if the
walls are the same, the robot is at the same place and looks into the same direction, and there are
the same beepers elsewhere. -/
theorem picture_determines_world {w w' : World} (h : w.OnGrid) (h' : w'.OnGrid)
    (hplan : w.plan.Built) (hplan' : w'.plan.Built) :
    w.picture = w'.picture ↔
      w.plan = w'.plan ∧ w.robot = w'.robot ∧ w.heading = w'.heading ∧
        ∀ cell : Cell, cell.index ≠ w.robot.index → w.beeperAt? cell = w'.beeperAt? cell := by
  have hedges := hplan.twoSided.forall_hasWall_iff hplan'.twoSided
  have hcells := World.forall_cellChar_iff h.robot w'
  rw [h.forall_beeperAt?_iff h'] at hcells
  rw [World.picture_eq_iff, ← hcells]
  constructor
  · rintro ⟨hdrawn, -, -⟩
    have hwalls := hedges.2 fun cell hcell =>
      ⟨(hdrawn cell hcell).1, (hdrawn cell hcell).2.1⟩
    exact ⟨hplan.ext hplan' hwalls, fun cell hcell => (hdrawn cell hcell).2.2⟩
  · rintro ⟨hsame, hchars⟩
    rw [hsame]
    exact ⟨fun cell hcell => ⟨rfl, rfl, hchars cell hcell⟩, fun _ _ => rfl, fun _ _ => rfl⟩

/-- A robot at the end of the nook that looks back, and some beepers. -/
def nookWorld (plan : FloorPlan) (beepers : BitVec 128) : World :=
  ⟨beepers, ⟨1, 0⟩, .west, plan⟩

/-- In the nook a beeper under the robot does not show, and one behind the wall does. -/
theorem picture_determines_world_nook :
    ∃ plan, FloorPlan.empty.withWalls? nook = some plan ∧
      (nookWorld plan (.twoPow 128 1)).picture = (nookWorld plan 0).picture ∧
      (nookWorld plan (.twoPow 128 2)).picture ≠ (nookWorld plan 0).picture := by
  have hsides : ∀ s ∈ nook, s.cell.OnGrid := by decide
  obtain ⟨plan, hplan, -⟩ := FloorPlan.empty.exists_withWalls? hsides
  have hbuilt : plan.Built := ⟨nook, hsides, hplan⟩
  have hrobot : (⟨1, 0⟩ : Cell).OnGrid := by decide
  have hbare : (nookWorld plan 0).OnGrid := ⟨hrobot, fun i hi => by simp [nookWorld] at hi⟩
  have hgrid (x : Nat) (hx : x < 10) : (nookWorld plan (.twoPow 128 x)).OnGrid := by
    refine ⟨hrobot, fun i hi => ⟨⟨x, 0⟩, ⟨hx, Nat.zero_lt_succ 9⟩, ?_⟩⟩
    simp only [nookWorld, BitVec.getLsbD_twoPow, Bool.and_eq_true, decide_eq_true_eq] at hi
    simp [Cell.index, hi.2]
  refine ⟨plan, hplan, ?_, fun hsame => ?_⟩
  · refine (picture_determines_world (hgrid 1 (by decide)) hbare hbuilt hbuilt).2
      ⟨rfl, rfl, rfl, fun cell hcell => ?_⟩
    have hne : ¬ 1 = cell.index := fun hindex => hcell hindex.symm
    simp [World.beeperAt?, nookWorld, BitVec.getLsbD_twoPow, hne]
  · obtain ⟨-, -, -, hbeepers⟩ :=
      (picture_determines_world (hgrid 2 (by decide)) hbare hbuilt hbuilt).1 hsame
    have hbeeper := hbeepers ⟨2, 0⟩ (by simp [nookWorld, Cell.index])
    simp [World.beeperAt?, nookWorld, Cell.index] at hbeeper

end KarelRobot
