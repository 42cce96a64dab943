import KarelRobot.Builtin

/-!
# The world of the robot

The robot lives on a grid of ten by ten cells.  A cell may hold a beeper, and there may be walls
between cells; the border of the grid cannot be crossed in any case.  A world is a value: an action
gives a new world, or says why it is impossible.

Cells are stored by their index, row after row.  Nothing keeps a robot from being put on a cell
that is not on the grid, and then the world may have nothing to look at: there is room for the walls
of a hundred cells and for the beepers of a hundred and twenty-eight.

* `Direction`, `Cell`, `FloorPlan` — where things are.
* `World` — the floor plan, the beepers and the robot.
* `World.perform` — what an action does.
* `World.ask` — the answer to a question.
-/

set_option autoImplicit false
namespace KarelRobot

/-! ## Directions and cells -/

/-- The directions, each of them a quarter turn to the left of the one before. -/
inductive Direction where
  | east
  | north
  | west
  | south
deriving Repr, DecidableEq

namespace Direction

/-- A quarter turn to the left. -/
def left : Direction → Direction
  | east => north
  | north => west
  | west => south
  | south => east

/-- Half a turn. -/
def around (d : Direction) : Direction :=
  d.left.left

/-- A quarter turn to the right. -/
def right (d : Direction) : Direction :=
  d.left.left.left

/-- The bit that stands for a wall in this direction. -/
def wall : Direction → UInt8
  | east => 1
  | north => 2
  | west => 4
  | south => 8

end Direction

/-- A cell by its column and its row, both counted from the upper left corner. -/
structure Cell where
  x : Nat
  y : Nat
deriving Repr, DecidableEq

namespace Cell

/-- How many columns the grid has. -/
def width : Nat := 10

/-- How many rows the grid has. -/
def height : Nat := 10

/-- The number of a cell, row after row. -/
def index (cell : Cell) : Nat :=
  cell.y * width + cell.x

/-- Is a cell on the grid? -/
def OnGrid (cell : Cell) : Prop :=
  cell.x < width ∧ cell.y < height

instance (cell : Cell) : Decidable cell.OnGrid :=
  inferInstanceAs (Decidable (_ ∧ _))

/-- The cell one step further, be it on the grid or not; none in front of the first row and the
first column. -/
def step? (cell : Cell) : Direction → Option Cell
  | .east => some ⟨cell.x + 1, cell.y⟩
  | .north => if cell.y = 0 then none else some ⟨cell.x, cell.y - 1⟩
  | .west => if cell.x = 0 then none else some ⟨cell.x - 1, cell.y⟩
  | .south => some ⟨cell.x, cell.y + 1⟩

/-- The cell of the grid one step further, if there is one. -/
def neighbour? (cell : Cell) (d : Direction) : Option Cell :=
  (cell.step? d).filter fun next => decide next.OnGrid

end Cell

/-! ## Walls -/

/-- The walls around each cell of the grid, four bits for each. -/
structure FloorPlan where
  walls : Vector UInt8 100
deriving Repr, DecidableEq

namespace FloorPlan

/-- The four bits for walls. -/
def wallBits : UInt8 := 15

/-- The walls of a cell on the border that follow from its place. -/
def borderWalls (cell : Cell) : UInt8 :=
  (if cell.x + 1 = Cell.width then Direction.east.wall else 0) |||
    (if cell.y = 0 then Direction.north.wall else 0) |||
    (if cell.x = 0 then Direction.west.wall else 0) |||
    (if cell.y + 1 = Cell.height then Direction.south.wall else 0)

/-- The room with walls along its border and nowhere else. -/
def empty : FloorPlan :=
  ⟨Vector.ofFn fun index => borderWalls ⟨index.val % Cell.width, index.val / Cell.width⟩⟩

/-- The walls around a cell, if there is room for them. -/
def wallsAt? (plan : FloorPlan) (cell : Cell) : Option UInt8 :=
  plan.walls[cell.index]?.map fun walls => walls &&& wallBits

/-- Is a cell free of a wall in a direction? -/
def isClear? (plan : FloorPlan) (cell : Cell) (d : Direction) : Option Bool :=
  (plan.wallsAt? cell).map fun walls => walls &&& d.wall == 0

/-- The plan with one more wall on one side of a cell, if there is room for it. -/
def addWall? (plan : FloorPlan) (cell : Cell) (d : Direction) : Option FloorPlan :=
  if h : cell.index < 100 then
    some ⟨plan.walls.set cell.index (plan.walls[cell.index] ||| d.wall)⟩
  else none

/-- The plan with a wall between a cell and its neighbour, which both of them have. -/
def withWall? (plan : FloorPlan) (cell : Cell) (d : Direction) : Option FloorPlan := do
  let plan ← plan.addWall? cell d
  match cell.neighbour? d with
  | some next => plan.addWall? next d.around
  | none => return plan

end FloorPlan

/-! ## Worlds -/

/-- A floor plan with beepers and a robot. -/
structure World where
  /-- The cells with a beeper, one bit for each index. -/
  beepers : BitVec 128
  robot : Cell
  heading : Direction
  plan : FloorPlan
deriving Repr, DecidableEq

namespace World

/-- Why an action or an answer is impossible. -/
inductive Fault where
  | blockedByWall
  | cellIsEmpty
  | cellIsFull
  /-- The robot is on a cell that there is no room for. -/
  | offPlan
deriving Repr, DecidableEq

/-- A fault in words. -/
def Fault.message : Fault → String
  | blockedByWall => "cannot move through wall"
  | cellIsEmpty => "there is no beeper to pick"
  | cellIsFull => "cannot drop another beeper"
  | offPlan => "the robot is off the plan"

/-- The world of a floor plan at the start: no beepers, and the robot in the upper left corner
looking east. -/
def ofPlan (plan : FloorPlan) : World :=
  ⟨0, ⟨0, 0⟩, .east, plan⟩

/-- The world of the empty room at the start. -/
def start : World :=
  ofPlan .empty

/-- The world with the robot somewhere else. -/
def withRobot (w : World) (cell : Cell) (heading : Direction) : World :=
  { w with robot := cell, heading := heading }

/-! ### Beepers -/

/-- Is there a beeper on a cell? -/
def beeperAt? (w : World) (cell : Cell) : Option Bool :=
  if cell.index < 128 then some (w.beepers.getLsbD cell.index) else none

/-- The world with a beeper on a cell, if there is room for it. -/
def withBeeper? (w : World) (cell : Cell) : Option World :=
  if cell.index < 128 then
    some { w with beepers := w.beepers ||| BitVec.twoPow 128 cell.index }
  else none

/-- The indices of the cells with a beeper, in order. -/
def beeperIndices (w : World) : List Nat :=
  (List.range 128).filter w.beepers.getLsbD

/-- How many beepers there are. -/
def countBeepers (w : World) : Nat :=
  w.beeperIndices.length

/-! ### Questions -/

/-- Is there a beeper where the robot stands? -/
def onBeeper (w : World) : Except Fault Bool :=
  match w.beeperAt? w.robot with
  | some answer => .ok answer
  | none => .error .offPlan

/-- Is there a beeper in front of the robot?  A wall in between does not matter. -/
def beeperAhead (w : World) : Except Fault Bool :=
  match w.robot.neighbour? w.heading with
  | none => .ok false
  | some next =>
    match w.beeperAt? next with
    | some answer => .ok answer
    | none => .error .offPlan

/-- The cell that the robot would reach in a direction, unless a wall or the border is in its
way. -/
def clearTowards (w : World) (d : Direction) : Except Fault (Option Cell) :=
  match w.plan.isClear? w.robot d with
  | some true => .ok (w.robot.neighbour? d)
  | some false => .ok none
  | none => .error .offPlan

/-- Can the robot go in a direction? -/
def isClear (w : World) (d : Direction) : Except Fault Bool :=
  (w.clearTowards d).map Option.isSome

/-- The answer to a question. -/
def ask (w : World) : Predicate → Except Fault Bool
  | .onBeeper => w.onBeeper
  | .beeperAhead => w.beeperAhead
  | .leftIsClear => w.isClear w.heading.left
  | .frontIsClear => w.isClear w.heading
  | .rightIsClear => w.isClear w.heading.right

/-! ### Actions -/

/-- One step forward. -/
def moveForward (w : World) : Except Fault World :=
  match w.clearTowards w.heading with
  | .ok (some next) => .ok { w with robot := next }
  | .ok none => .error .blockedByWall
  | .error fault => .error fault

/-- Takes the beeper where the robot stands. -/
def pickBeeper (w : World) : Except Fault World :=
  match w.onBeeper with
  | .ok true =>
    .ok { w with beepers := w.beepers &&& ~~~(BitVec.twoPow 128 w.robot.index) }
  | .ok false => .error .cellIsEmpty
  | .error fault => .error fault

/-- Leaves a beeper where the robot stands. -/
def dropBeeper (w : World) : Except Fault World :=
  match w.onBeeper with
  | .ok false => .ok { w with beepers := w.beepers ||| BitVec.twoPow 128 w.robot.index }
  | .ok true => .error .cellIsFull
  | .error fault => .error fault

/-- What an action does. -/
def perform (w : World) : Action → Except Fault World
  | .moveForward => w.moveForward
  | .turnLeft => .ok { w with heading := w.heading.left }
  | .turnAround => .ok { w with heading := w.heading.around }
  | .turnRight => .ok { w with heading := w.heading.right }
  | .pickBeeper => w.pickBeeper
  | .dropBeeper => w.dropBeeper

end World
end KarelRobot
