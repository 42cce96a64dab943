import KarelRobot.World

/-!
# Pictures of a world

A world drawn with characters.  Every cell is one character wide: the robot is an arrow, a beeper
is `o` and an empty cell is `.`.  Between the cells there are walls, `-` and `|`, or blanks, and
`+` where four cells meet.

* `World.picture` — the drawing, line by line.
-/

set_option autoImplicit false
namespace KarelRobot

/-- The robot as seen from above. -/
def Direction.arrow : Direction → Char
  | east => '>'
  | north => '^'
  | west => '<'
  | south => 'v'

namespace FloorPlan

/-- Does a cell have a wall in a direction? -/
def hasWall (plan : FloorPlan) (cell : Cell) (d : Direction) : Bool :=
  plan.isClear? cell d == some false

/-- Is there a wall above a cell, on either side of the edge? -/
def hasWallAbove (plan : FloorPlan) (cell : Cell) : Bool :=
  plan.hasWall cell .north || (0 < cell.y && plan.hasWall ⟨cell.x, cell.y - 1⟩ .south)

/-- Is there a wall to the left of a cell, on either side of the edge? -/
def hasWallBefore (plan : FloorPlan) (cell : Cell) : Bool :=
  plan.hasWall cell .west || (0 < cell.x && plan.hasWall ⟨cell.x - 1, cell.y⟩ .east)

end FloorPlan

namespace World

/-- What is drawn for a cell. -/
def cellChar (w : World) (cell : Cell) : Char :=
  if cell = w.robot then w.heading.arrow
  else if w.beeperAt? cell = some true then 'o'
  else '.'

/-- The line with the walls above a row. -/
def lineAbove (w : World) (y : Nat) : List Char :=
  (List.range Cell.width).flatMap (fun x =>
    ['+', if w.plan.hasWallAbove ⟨x, y⟩ then '-' else ' ']) ++ ['+', '\n']

/-- The line with the cells of a row and the walls between them. -/
def rowLine (w : World) (y : Nat) : List Char :=
  (List.range Cell.width).flatMap (fun x =>
    [if w.plan.hasWallBefore ⟨x, y⟩ then '|' else ' ', w.cellChar ⟨x, y⟩]) ++
    [if w.plan.hasWall ⟨Cell.width - 1, y⟩ .east then '|' else ' ', '\n']

/-- The line with the walls below the last row. -/
def lineBelow (w : World) : List Char :=
  (List.range Cell.width).flatMap (fun x =>
    ['+', if w.plan.hasWall ⟨x, Cell.height - 1⟩ .south then '-' else ' ']) ++ ['+', '\n']

/-- The drawing of a world. -/
def picture (w : World) : String :=
  String.ofList
    ((List.range Cell.height).flatMap (fun y => w.lineAbove y ++ w.rowLine y) ++ w.lineBelow)

end World
end KarelRobot
