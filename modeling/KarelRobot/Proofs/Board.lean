import KarelRobot.Proofs.Grid
import Mathlib.Data.Finset.Card
import Mathlib.Data.Finset.Prod
import Mathlib.Data.Nat.Bitwise

/-!
# The world as a set of squares

A world packs its beepers into one word and the walls of a cell into another, and looks at a cell
through its number.  A board has none of that: its beepers are a set of squares of the plane, the
robot goes one square further by adding a vector, and it turns by adding quarter turns.  A world on
the grid does what its board does, action by action, and answers as its board does.

* `Board`, `Board.perform`, `Board.ask` — the board and what happens on it.
* `World.OnGrid`, `World.board` — worlds with everything on the grid, and the board of a world.
* `Cell.neighbour?_eq`, `FloorPlan.isClear?_eq` — cells and walls by squares and quarter turns.
* `World.board_perform`, `World.ask_eq` — one action, and one question.
* `world_refines_board` — any number of actions.
-/

set_option autoImplicit false
namespace KarelRobot

/-! ## Boards -/

/-- A square of the plane by its column and its row, of which the grid has some only. -/
abbrev Square := ℤ × ℤ

/-- The squares of the grid. -/
def Square.grid : Finset Square :=
  (Finset.range 10 ×ˢ Finset.range 10).image fun place => (↑place.1, ↑place.2)

theorem Square.mem_grid_iff {s : Square} :
    s ∈ grid ↔ 0 ≤ s.1 ∧ s.1 < 10 ∧ 0 ≤ s.2 ∧ s.2 < 10 := by
  simp only [grid, Finset.mem_image, Finset.mem_product, Finset.mem_range]
  constructor
  · rintro ⟨place, hplace, rfl⟩
    omega
  · intro h
    refine ⟨(s.1.toNat, s.2.toNat), by omega, ?_⟩
    ext <;> simp [h]

/-- One square further, by the number of quarter turns to the left from looking east.  Rows are
counted downwards. -/
def Square.ahead (s : Square) : Fin 4 → Square
  | 0 => s + (1, 0)
  | 1 => s + (0, -1)
  | 2 => s + (-1, 0)
  | 3 => s + (0, 1)

/-- Beepers, a robot and walls. -/
structure Board where
  /-- The squares with a beeper. -/
  beepers : Finset Square
  robot : Square
  /-- How many quarter turns to the left the robot is from looking east. -/
  heading : Fin 4
  /-- The walls of each square, a bit for each side in the order of the quarter turns. -/
  walls : Square → ℕ

namespace Board

variable (b : Board)

/-- The robot cannot leave its square on a side: there is a wall, or the grid ends there. -/
def Blocked (side : Fin 4) : Prop :=
  (b.walls b.robot).testBit side = true ∨ b.robot.ahead side ∉ Square.grid

instance (side : Fin 4) : Decidable (b.Blocked side) :=
  inferInstanceAs (Decidable (_ ∨ _))

/-- What an action does on a board. -/
def perform : Action → Except World.Fault Board
  | .moveForward =>
    if b.Blocked b.heading then .error .blockedByWall
    else .ok { b with robot := b.robot.ahead b.heading }
  | .turnLeft => .ok { b with heading := b.heading + 1 }
  | .turnAround => .ok { b with heading := b.heading + 2 }
  | .turnRight => .ok { b with heading := b.heading + 3 }
  | .pickBeeper =>
    if b.robot ∈ b.beepers then .ok { b with beepers := b.beepers.erase b.robot }
    else .error .cellIsEmpty
  | .dropBeeper =>
    if b.robot ∈ b.beepers then .error .cellIsFull
    else .ok { b with beepers := insert b.robot b.beepers }

/-- The answer to a question on a board. -/
def ask : Predicate → Bool
  | .onBeeper => decide (b.robot ∈ b.beepers)
  | .beeperAhead => decide (b.robot.ahead b.heading ∈ b.beepers)
  | .leftIsClear => decide (¬b.Blocked (b.heading + 1))
  | .frontIsClear => decide (¬b.Blocked b.heading)
  | .rightIsClear => decide (¬b.Blocked (b.heading + 3))

/-- The board after some actions.  Those that are impossible change nothing. -/
def after (actions : List Action) : Board :=
  actions.foldl (fun b a => (b.perform a).toOption.getD b) b

end Board

/-! ## The board of a world -/

/-- How many quarter turns to the left a direction is from east. -/
def Direction.quarters : Direction → Fin 4
  | east => 0
  | north => 1
  | west => 2
  | south => 3

/-- The square of a cell. -/
def Cell.square (cell : Cell) : Square :=
  (cell.x, cell.y)

/-- The cell of a square that has no negative coordinate. -/
def Cell.ofSquare (s : Square) : Cell :=
  ⟨s.1.toNat, s.2.toNat⟩

namespace World

/-- The robot and all beepers are on the grid. -/
structure OnGrid (w : World) : Prop where
  robot : w.robot.OnGrid
  beepers : ∀ i, w.beepers.getLsbD i = true → ∃ cell : Cell, cell.OnGrid ∧ cell.index = i

/-- The board of a world. -/
def board (w : World) : Board where
  beepers := Square.grid.filter fun s => w.beepers.getLsbD (Cell.ofSquare s).index = true
  robot := w.robot.square
  heading := w.heading.quarters
  walls := fun s => (w.plan.walls[(Cell.ofSquare s).index]?.getD 0).toNat

/-- The world after some actions.  Those that are impossible change nothing. -/
def after (w : World) (actions : List Action) : World :=
  actions.foldl (fun w a => (w.perform a).toOption.getD w) w

end World

/-! ## Directions, cells and walls -/

namespace Direction

@[simp] theorem quarters_left (d : Direction) : d.left.quarters = d.quarters + 1 := by
  cases d <;> rfl

@[simp] theorem quarters_around (d : Direction) : d.around.quarters = d.quarters + 2 := by
  cases d <;> rfl

@[simp] theorem quarters_right (d : Direction) : d.right.quarters = d.quarters + 3 := by
  cases d <;> rfl

theorem toNat_wall (d : Direction) : d.wall.toNat = 2 ^ d.quarters.val := by
  cases d <;> rfl

end Direction

namespace Cell

@[simp] theorem ofSquare_square (cell : Cell) : ofSquare cell.square = cell := by
  simp [ofSquare, square]

theorem square_mem_grid_iff {cell : Cell} : cell.square ∈ Square.grid ↔ cell.OnGrid := by
  simp only [Square.mem_grid_iff, square, OnGrid, width, height]
  omega

theorem square_ofSquare {s : Square} (h : s ∈ Square.grid) : (ofSquare s).square = s := by
  rw [Square.mem_grid_iff] at h
  ext <;> simp [ofSquare, square, h]

theorem onGrid_ofSquare {s : Square} (h : s ∈ Square.grid) : (ofSquare s).OnGrid := by
  rw [← square_mem_grid_iff, square_ofSquare h]
  exact h

/-- The number of a cell of the grid identifies it. -/
theorem index_inj {cell other : Cell} (h : cell.OnGrid) (hother : other.OnGrid) :
    cell.index = other.index ↔ cell = other := by
  obtain ⟨x, y⟩ := cell
  obtain ⟨x', y'⟩ := other
  simp only [OnGrid, index, width, height, mk.injEq] at h hother ⊢
  omega

theorem square_eq_iff {cell other : Cell} : cell.square = other.square ↔ cell = other :=
  ⟨fun h => by rw [← ofSquare_square cell, h, ofSquare_square], congrArg square⟩

/-- The bit of a cell says something about that cell only. -/
theorem getLsbD_twoPow_index {cell other : Cell} (h : cell.OnGrid) (hother : other.OnGrid) :
    (BitVec.twoPow 128 cell.index).getLsbD other.index = decide (other = cell) := by
  have hindex := h.index_lt
  rw [BitVec.getLsbD_twoPow, Bool.eq_iff_iff]
  simp only [Bool.and_eq_true, decide_eq_true_eq, index_inj h hother]
  exact ⟨fun hbit => hbit.2.symm, fun heq => ⟨by omega, heq.symm⟩⟩

/-- A step leads one square further, and there is none to a negative coordinate. -/
theorem step?_eq_some_iff {cell next : Cell} {d : Direction} :
    cell.step? d = some next ↔ next.square = cell.square.ahead d.quarters := by
  obtain ⟨x, y⟩ := cell
  obtain ⟨x', y'⟩ := next
  cases d with
  | east | south =>
    simp only [step?, square, Direction.quarters, Square.ahead, Option.some.injEq, mk.injEq,
      Prod.mk_add_mk, Prod.mk.injEq]
    omega
  | north | west =>
    simp only [step?, square, Direction.quarters, Square.ahead, Option.ite_none_left_eq_some,
      Option.some.injEq, mk.injEq, Prod.mk_add_mk, Prod.mk.injEq]
    omega

/-- **A neighbour is one square further, if that is on the grid.** -/
theorem neighbour?_eq (cell : Cell) (d : Direction) :
    cell.neighbour? d =
      if cell.square.ahead d.quarters ∈ Square.grid
      then some (ofSquare (cell.square.ahead d.quarters)) else none := by
  ext next
  rw [neighbour?, Option.filter_eq_some_iff, step?_eq_some_iff, decide_eq_true_eq,
    ← square_mem_grid_iff, Option.ite_none_right_eq_some, Option.some.injEq]
  constructor
  · rintro ⟨hnext, hgrid⟩
    rw [← hnext]
    exact ⟨hgrid, ofSquare_square next⟩
  · rintro ⟨hgrid, rfl⟩
    rw [square_ofSquare hgrid]
    exact ⟨rfl, hgrid⟩

end Cell

/-- **A cell is clear on a side if the bit of that side is not set.** -/
theorem FloorPlan.isClear?_eq (plan : FloorPlan) {cell : Cell} (h : cell.OnGrid) (d : Direction) :
    plan.isClear? cell d =
      some (!(plan.walls[cell.index]?.getD 0).toNat.testBit d.quarters) := by
  have hbits : (15 : ℕ).testBit d.quarters = true := by cases d <;> rfl
  have hmask (walls : UInt8) :
      (walls &&& wallBits &&& d.wall == 0) = !walls.toNat.testBit d.quarters := by
    rw [Bool.eq_iff_iff, beq_iff_eq, ← UInt8.toNat_inj, UInt8.toNat_and, UInt8.toNat_and,
      d.toNat_wall, Nat.and_two_pow]
    simp [wallBits, Nat.testBit_and, hbits]
  rw [isClear?, wallsAt?, getElem?_pos plan.walls cell.index h.index_lt]
  exact congrArg some (hmask _)

/-! ## Questions -/

namespace World

variable {w : World}

theorem mem_beepers_iff {s : Square} :
    s ∈ w.board.beepers ↔
      s ∈ Square.grid ∧ w.beepers.getLsbD (Cell.ofSquare s).index = true :=
  Finset.mem_filter

theorem square_mem_beepers_iff {cell : Cell} (h : cell.OnGrid) :
    cell.square ∈ w.board.beepers ↔ w.beepers.getLsbD cell.index = true := by
  simp [mem_beepers_iff, Cell.square_mem_grid_iff, h]

/-- A cell of the grid has a beeper if its square is one of the set. -/
theorem beeperAt?_eq (w : World) {cell : Cell} (h : cell.OnGrid) :
    w.beeperAt? cell = some (decide (cell.square ∈ w.board.beepers)) := by
  have hindex := h.index_lt
  rw [beeperAt?, if_pos (by omega)]
  simp [square_mem_beepers_iff h]

theorem onBeeper_eq (h : w.robot.OnGrid) :
    w.onBeeper = .ok (decide (w.board.robot ∈ w.board.beepers)) := by
  rw [onBeeper, beeperAt?_eq w h]
  rfl

/-- What the robot can reach is one square further, unless it is blocked. -/
theorem clearTowards_eq (h : w.robot.OnGrid) (d : Direction) :
    w.clearTowards d =
      .ok (if w.board.Blocked d.quarters then none
        else some (Cell.ofSquare (w.board.robot.ahead d.quarters))) := by
  have hwalls : w.board.walls w.board.robot = (w.plan.walls[w.robot.index]?.getD 0).toNat := by
    simp [board]
  have hrobot : w.board.robot = w.robot.square := rfl
  rw [clearTowards, FloorPlan.isClear?_eq w.plan h, Cell.neighbour?_eq, ← hwalls, ← hrobot]
  by_cases hwall : (w.board.walls w.board.robot).testBit d.quarters = true
  · simp [hwall, Board.Blocked]
  · by_cases hgrid : w.board.robot.ahead d.quarters ∈ Square.grid <;>
      simp [hwall, hgrid, Board.Blocked]

theorem isClear_eq (h : w.robot.OnGrid) (d : Direction) :
    w.isClear d = .ok (decide (¬w.board.Blocked d.quarters)) := by
  rw [isClear, clearTowards_eq h]
  by_cases hblocked : w.board.Blocked d.quarters <;> simp [hblocked, Except.map]

/-- **A world answers as its board does.** -/
theorem ask_eq (h : w.robot.OnGrid) (which : Predicate) :
    w.ask which = .ok (w.board.ask which) := by
  cases which with
  | onBeeper => exact onBeeper_eq h
  | beeperAhead =>
    have hahead : w.board.robot.ahead w.board.heading =
        w.robot.square.ahead w.heading.quarters := rfl
    rw [ask, beeperAhead, Cell.neighbour?_eq, Board.ask, hahead]
    by_cases hgrid : w.robot.square.ahead w.heading.quarters ∈ Square.grid
    · simp [hgrid, beeperAt?_eq w (Cell.onGrid_ofSquare hgrid), Cell.square_ofSquare hgrid]
    · simp [hgrid, mem_beepers_iff]
  | leftIsClear => rw [ask, isClear_eq h, Direction.quarters_left]; rfl
  | frontIsClear => exact isClear_eq h _
  | rightIsClear => rw [ask, isClear_eq h, Direction.quarters_right]; rfl

/-! ## Actions -/

/-- Moving to a square of the grid moves the robot of the board. -/
theorem board_withRobot {s : Square} (h : s ∈ Square.grid) :
    { w with robot := Cell.ofSquare s }.board = { w.board with robot := s } := by
  simp only [board, Cell.square_ofSquare h]

/-- Replacing the word of the beepers replaces the set, if the two agree on the grid. -/
theorem board_withBeepers {word : BitVec 128} {beepers : Finset Square}
    (hsubset : beepers ⊆ Square.grid)
    (hbits : ∀ cell : Cell, cell.OnGrid →
      (word.getLsbD cell.index = true ↔ cell.square ∈ beepers)) :
    { w with beepers := word }.board = { w.board with beepers := beepers } := by
  have hset : (Square.grid.filter fun s => word.getLsbD (Cell.ofSquare s).index = true) =
      beepers := by
    ext s
    rw [Finset.mem_filter]
    constructor
    · rintro ⟨hgrid, hbit⟩
      rw [← Cell.square_ofSquare hgrid]
      exact (hbits _ (Cell.onGrid_ofSquare hgrid)).1 hbit
    · intro hs
      have hgrid := hsubset hs
      rw [← Cell.square_ofSquare hgrid] at hs
      exact ⟨hgrid, (hbits _ (Cell.onGrid_ofSquare hgrid)).2 hs⟩
  simp only [board, hset]

theorem beepers_subset_grid (w : World) : w.board.beepers ⊆ Square.grid :=
  Finset.filter_subset _ _

/-- Clearing the bit of a cell takes its square out of the set. -/
theorem board_erase {cell : Cell} (h : cell.OnGrid) :
    { w with beepers := w.beepers &&& ~~~(BitVec.twoPow 128 cell.index) }.board =
      { w.board with beepers := w.board.beepers.erase cell.square } := by
  refine board_withBeepers ((Finset.erase_subset _ _).trans w.beepers_subset_grid) ?_
  intro other hother
  have hroom : other.index < 128 := hother.index_lt.trans (by decide)
  rw [Finset.mem_erase, square_mem_beepers_iff hother, Ne, Cell.square_eq_iff, BitVec.getLsbD_and,
    BitVec.getLsbD_not, Cell.getLsbD_twoPow_index h hother]
  simp [hroom, and_comm]

/-- Setting the bit of a cell puts its square into the set. -/
theorem board_insert {cell : Cell} (h : cell.OnGrid) :
    { w with beepers := w.beepers ||| BitVec.twoPow 128 cell.index }.board =
      { w.board with beepers := insert cell.square w.board.beepers } := by
  refine board_withBeepers
    (Finset.insert_subset (Cell.square_mem_grid_iff.2 h) w.beepers_subset_grid) ?_
  intro other hother
  rw [Finset.mem_insert, square_mem_beepers_iff hother, Cell.square_eq_iff, BitVec.getLsbD_or,
    Cell.getLsbD_twoPow_index h hother]
  simp [or_comm]

/-- **An action does to a world what it does to its board.** -/
theorem board_perform (h : w.robot.OnGrid) (a : Action) :
    (w.perform a).map World.board = w.board.perform a := by
  cases a with
  | moveForward =>
    rw [perform, moveForward, clearTowards_eq h, Board.perform]
    have hheading : w.board.heading = w.heading.quarters := rfl
    rw [hheading]
    by_cases hblocked : w.board.Blocked w.heading.quarters
    · simp [hblocked, Except.map]
    · simp only [hblocked, if_false, Except.map]
      exact congrArg _ (board_withRobot (not_not.1 (not_or.1 hblocked).2))
  | turnLeft => simp [perform, Board.perform, Except.map, board]
  | turnAround => simp [perform, Board.perform, Except.map, board]
  | turnRight => simp [perform, Board.perform, Except.map, board]
  | pickBeeper =>
    rw [perform, pickBeeper, onBeeper_eq h, Board.perform]
    by_cases hmem : w.board.robot ∈ w.board.beepers
    · simp only [hmem, decide_true, if_true, Except.map]
      exact congrArg _ (board_erase h)
    · simp [hmem, Except.map]
  | dropBeeper =>
    rw [perform, dropBeeper, onBeeper_eq h, Board.perform]
    by_cases hmem : w.board.robot ∈ w.board.beepers
    · simp [hmem, Except.map]
    · simp only [hmem, decide_false, if_false, Except.map]
      exact congrArg _ (board_insert h)

/-- An action keeps the walls, and a beeper that is new lies where the robot stands. -/
theorem kept_of_perform {a : Action} {w' : World} (h : w.perform a = .ok w') :
    w'.plan = w.plan ∧
      ∀ i, w'.beepers.getLsbD i = true → w.beepers.getLsbD i = true ∨ i = w.robot.index := by
  cases a with
  | moveForward =>
    rw [perform, moveForward] at h
    split at h <;> cases h
    exact ⟨rfl, fun i => Or.inl⟩
  | turnLeft | turnAround | turnRight =>
    cases h
    exact ⟨rfl, fun i => Or.inl⟩
  | pickBeeper =>
    rw [perform, pickBeeper] at h
    split at h <;> cases h
    refine ⟨rfl, fun i hi => .inl ?_⟩
    rw [BitVec.getLsbD_and, Bool.and_eq_true] at hi
    exact hi.1
  | dropBeeper =>
    rw [perform, dropBeeper] at h
    split at h <;> cases h
    refine ⟨rfl, fun i hi => ?_⟩
    rw [BitVec.getLsbD_or, Bool.or_eq_true, BitVec.getLsbD_twoPow] at hi
    exact hi.imp id fun hi => by simpa [eq_comm] using (Bool.and_eq_true_iff.1 hi).2

/-- **No action takes anything off the grid.** -/
theorem OnGrid.perform (h : w.OnGrid) {a : Action} {w' : World} (hw : w.perform a = .ok w') :
    w'.OnGrid where
  robot := onGrid_of_perform h.robot hw
  beepers := by
    intro i hi
    rcases (kept_of_perform hw).2 i hi with hi | rfl
    · exact h.beepers i hi
    · exact ⟨w.robot, h.robot, rfl⟩

/-! ## Counting -/

/-- There are as many beepers as squares in the set. -/
theorem countBeepers_eq (h : w.OnGrid) : w.countBeepers = w.board.beepers.card := by
  have hindices : w.beeperIndices.toFinset =
      w.board.beepers.image fun s => (Cell.ofSquare s).index := by
    ext i
    simp only [beeperIndices, List.mem_toFinset, List.mem_filter, List.mem_range, Finset.mem_image]
    constructor
    · rintro ⟨-, hi⟩
      obtain ⟨cell, hcell, rfl⟩ := h.beepers i hi
      exact ⟨cell.square, (square_mem_beepers_iff hcell).2 hi, by rw [Cell.ofSquare_square]⟩
    · rintro ⟨s, hs, rfl⟩
      obtain ⟨hgrid, hbit⟩ := mem_beepers_iff.1 hs
      have hindex := (Cell.onGrid_ofSquare hgrid).index_lt
      exact ⟨by omega, hbit⟩
  have hinj : Set.InjOn (fun s => (Cell.ofSquare s).index) w.board.beepers := by
    intro s hs t ht heq
    have hs := w.beepers_subset_grid hs
    have ht := w.beepers_subset_grid ht
    have hcell := (Cell.index_inj (Cell.onGrid_ofSquare hs) (Cell.onGrid_ofSquare ht)).1 heq
    rw [← Cell.square_ofSquare hs, hcell, Cell.square_ofSquare ht]
  have hnodup : w.beeperIndices.Nodup := List.nodup_range.filter _
  rw [countBeepers, ← List.toFinset_card_of_nodup hnodup, hindices,
    Finset.card_image_of_injOn hinj]

/-! ## Clear sides and moves -/

/-- A side is clear exactly if a robot that looks that way can move. -/
theorem isClear_eq_true_iff (w : World) (d : Direction) :
    w.isClear d = .ok true ↔ ∃ u, { w with heading := d }.perform .moveForward = .ok u := by
  have hsame : { w with heading := d }.clearTowards d = w.clearTowards d := rfl
  rw [isClear, perform, moveForward, hsame]
  rcases w.clearTowards d with fault | _ | next <;> simp [Except.map]

/-- A side is clear exactly if the robot can move after an action that turns it that way. -/
theorem isClear_iff_of_turn {d : Direction} {a : Action}
    (ha : w.perform a = .ok { w with heading := d }) :
    w.isClear d = .ok true ↔ ∃ t u, w.perform a = .ok t ∧ t.perform .moveForward = .ok u := by
  simp only [isClear_eq_true_iff, ha, Except.ok.injEq, exists_and_left, exists_eq_left']

/-! ## Any number of actions -/

/-- A world and a board agree: on where everything is, on what each action does next, and on every
question. -/
structure Agrees (v : World) (b : Board) : Prop where
  onGrid : v.OnGrid
  board : v.board = b
  perform : ∀ a, (v.perform a).map World.board = b.perform a
  onPlan : ∀ a, v.perform a ≠ .error .offPlan
  ask : ∀ which, v.ask which = .ok (b.ask which)
  beeperAt : ∀ cell : Cell, cell.OnGrid →
    v.beeperAt? cell = some (decide (cell.square ∈ b.beepers))
  count : v.countBeepers = b.beepers.card
  front : v.ask .frontIsClear = .ok true ↔ ∃ u, v.perform .moveForward = .ok u
  left : v.ask .leftIsClear = .ok true ↔
    ∃ t u, v.perform .turnLeft = .ok t ∧ t.perform .moveForward = .ok u
  right : v.ask .rightIsClear = .ok true ↔
    ∃ t u, v.perform .turnRight = .ok t ∧ t.perform .moveForward = .ok u

/-- A world on the grid agrees with its board. -/
theorem OnGrid.agrees (h : w.OnGrid) : w.Agrees w.board where
  onGrid := h
  board := rfl
  perform := board_perform h.robot
  onPlan := by
    intro a ha
    rcases perform_cases h.robot a with ⟨w', hw', -⟩ | ⟨fault, hfault, hne⟩
    · cases hw'.symm.trans ha
    · cases hfault.symm.trans ha
      exact hne rfl
  ask := ask_eq h.robot
  beeperAt := fun _ hcell => beeperAt?_eq w hcell
  count := countBeepers_eq h
  front := isClear_eq_true_iff w _
  left := isClear_iff_of_turn rfl
  right := isClear_iff_of_turn rfl

/-- What an action makes of a world, possible or not, is on the grid, has the same walls, and has
the board that the action makes of the board. -/
theorem OnGrid.attempt (h : w.OnGrid) (a : Action) :
    ((w.perform a).toOption.getD w).OnGrid ∧ ((w.perform a).toOption.getD w).plan = w.plan ∧
      ((w.perform a).toOption.getD w).board = (w.board.perform a).toOption.getD w.board := by
  rw [← board_perform h.robot]
  cases hw : w.perform a with
  | error fault => exact ⟨h, rfl, rfl⟩
  | ok w' => exact ⟨h.perform hw, (kept_of_perform hw).1, rfl⟩

theorem OnGrid.after (h : w.OnGrid) (actions : List Action) :
    (w.after actions).OnGrid ∧ (w.after actions).plan = w.plan ∧
      (w.after actions).board = w.board.after actions := by
  induction actions generalizing w with
  | nil => exact ⟨h, rfl, rfl⟩
  | cons a actions ih =>
    obtain ⟨hgrid, hplan, hboard⟩ := h.attempt a
    obtain ⟨hgrid', hplan', hboard'⟩ := ih hgrid
    refine ⟨hgrid', hplan'.trans hplan, hboard'.trans ?_⟩
    rw [hboard]
    rfl

end World

/-- **The world refines its board.**  After any actions, of which the impossible ones change
nothing, a world that started with everything on the grid has the walls that it started with and
agrees with the board after the same actions. -/
theorem world_refines_board {w : World} (h : w.OnGrid) (actions : List Action) :
    (w.after actions).plan = w.plan ∧ (w.after actions).Agrees (w.board.after actions) := by
  obtain ⟨hgrid, hplan, hboard⟩ := h.after actions
  rw [← hboard]
  exact ⟨hplan, hgrid.agrees⟩

/-- A world with a beeper in the second cell, behind which there is a wall. -/
def alcove : World where
  beepers := BitVec.twoPow 128 1
  robot := ⟨0, 0⟩
  heading := .east
  plan := (FloorPlan.empty.withWall? ⟨1, 0⟩ .east).getD .empty

/-- The robot takes the beeper in the alcove and turns around in front of the wall. -/
theorem world_refines_board_alcove :
    alcove.OnGrid ∧
      (alcove.after [.moveForward, .pickBeeper, .moveForward, .turnAround]).plan = alcove.plan ∧
      (alcove.after [.moveForward, .pickBeeper, .moveForward, .turnAround]).Agrees
        (alcove.board.after [.moveForward, .pickBeeper, .moveForward, .turnAround]) := by
  have hgrid : alcove.OnGrid := by
    refine ⟨by decide, fun i hi => ⟨⟨1, 0⟩, by decide, ?_⟩⟩
    rw [alcove, BitVec.getLsbD_twoPow] at hi
    exact of_decide_eq_true (Bool.and_eq_true_iff.1 hi).2
  exact ⟨hgrid, world_refines_board hgrid _⟩

end KarelRobot
