import KarelRobot.Proofs.Compilation

/-!
# Where statements stand

The code of a statement contains the codes of its parts, and around them the instructions that hold
them together.  Here this is said construct by construct, so that nothing else has to look at codes
as lists.

* `Program.Contains` — the code of a statement of a command stands at an address.
* `Program.Tests` — the code that decides a condition stands at an address.
* `Program.Contains.ifThen` and its like — what this means for the parts of the statement.
-/

set_option autoImplicit false
namespace KarelRobot

open Assembly

/-! ## Statements in a program -/

/-- A part of the body of a command: a loop is in range, and a call is one of the command's. -/
def Statement.PartOf (c : Command) (part : Statement) : Prop :=
  part.InRange ∧ ∀ call, part = .call call → call ∈ c.body.calls

theorem Statement.partOf_block (c : Command) (b : Block) : (Statement.block b).PartOf c :=
  ⟨trivial, fun _ h => by cases h⟩

namespace Program

/-- An operation stands at an address. -/
def Has (p : Program) (address : Nat) (op : Op) : Prop :=
  ∃ position, p.get? address = some (.ofOp op position)

/-- The code of the statement `s` of the command `c` stands at the address `start`, and something
stands behind it. -/
structure Contains (p : Program) (commands : List Command) (c : Command) (s : Statement)
    (start : Nat) : Prop where
  holds : p.Holds commands start (s.code (contextOf commands c) start)
  bound : start + s.size < maxSize
  parts : s.Everywhere (Statement.PartOf c)

/-- The code that decides a condition stands at the address `start`.  If the condition fails it goes
on at `target`. -/
structure Tests (p : Program) (commands : List Command) (condition : Condition)
    (start target : Nat) : Prop where
  holds : p.Holds commands start condition.core.code
  branch : p.Has (start + condition.core.code.length)
    (Condition.branch condition.negations (operand target))
  bound : target < maxSize

theorem Holds.has {p : Program} {commands : List Command} {start : Nat} {op : Op}
    {position : Nat} {ls : List Line} (h : p.Holds commands start (line op position :: ls)) :
    p.Has start op :=
  ⟨position, h.get?_of_line⟩

namespace Contains

variable {p : Program} {commands : List Command} {c : Command} {start : Nat}

theorem first {opening closing : Nat} {first : Statement} {following : List Statement}
    (h : p.Contains commands c (.block (.mk opening (first :: following) closing)) start) :
    p.Contains commands c first start := by
  have hholds := h.holds
  have hbound := h.bound
  rw [Statement.code_cons] at hholds
  rw [Statement.size_cons] at hbound
  exact ⟨hholds.append_left, by omega, fun part hpart =>
    h.parts part (List.mem_cons_of_mem _ (List.mem_append_left _ hpart))⟩

theorem following {opening closing : Nat} {first : Statement} {following : List Statement}
    (h : p.Contains commands c (.block (.mk opening (first :: following) closing)) start) :
    p.Contains commands c (.block (.mk opening following closing)) (start + first.size) := by
  have hholds := h.holds
  have hbound := h.bound
  rw [Statement.code_cons] at hholds
  rw [Statement.size_cons] at hbound
  have hright := hholds.append_right
  rw [Statement.length_code] at hright
  exact ⟨hright, by omega, h.parts.block (Statement.partOf_block c) fun _ hpart =>
    List.mem_cons_of_mem _ (List.mem_append_right _ hpart)⟩

theorem call_mem {call : Call} (h : p.Contains commands c (.call call) start) :
    call ∈ c.body.calls :=
  (Statement.everywhere_call.1 h.parts).2 call rfl

/-- A loop: its counter is pushed, and counted down behind its body. -/
theorem repeatTimes {position times : Nat} {body : Block}
    (h : p.Contains commands c (.repeatTimes position times body) start) :
    p.Has start (.push (operand times)) ∧ p.Contains commands c (.block body) (start + 1) ∧
      p.Has (start + 1 + (Statement.block body).size) (.loop (operand (start + 1))) ∧
      (Statement.repeatTimes position times body).InRange := by
  have hholds := h.holds
  have hbound := h.bound
  rw [Statement.code_repeatTimes] at hholds
  rw [Statement.size_repeatTimes] at hbound
  have hloop := hholds.tail.append_right
  rw [Statement.length_code] at hloop
  exact ⟨hholds.has,
    ⟨hholds.tail.append_left, by omega, h.parts.block (Statement.partOf_block c)
      (List.subset_cons_self _ _)⟩,
    hloop.has, (h.parts _ List.mem_cons_self).1⟩

theorem ifThen {position : Nat} {condition : Condition} {body : Block}
    (h : p.Contains commands c (.ifThen position condition body) start) :
    let bodyStart := start + condition.core.code.length + 1
    p.Tests commands condition start (bodyStart + (Statement.block body).size) ∧
      p.Contains commands c (.block body) bodyStart := by
  have hholds := h.holds
  have hbound := h.bound
  simp only [Statement.code_ifThen, Condition.test_eq, Statement.length_code] at hholds
  rw [Statement.size_ifThen] at hbound
  exact ⟨⟨hholds.append_left, hholds.append_right.has, by omega⟩,
    hholds.append_right.tail, by omega, h.parts.block (Statement.partOf_block c)
      (List.subset_cons_self _ _)⟩

theorem ifElse {position : Nat} {condition : Condition} {body : Block} {otherwise : Statement}
    (h : p.Contains commands c (.ifElse position condition body otherwise) start) :
    let bodyStart := start + condition.core.code.length + 1
    let otherStart := bodyStart + (Statement.block body).size + 1
    p.Tests commands condition start otherStart ∧
      p.Contains commands c (.block body) bodyStart ∧
      p.Has (bodyStart + (Statement.block body).size)
        (.jump (operand (otherStart + otherwise.size))) ∧
      p.Contains commands c otherwise otherStart := by
  have hholds := h.holds
  have hbound := h.bound
  simp only [Statement.code_ifElse, Condition.test_eq, Statement.length_code] at hholds
  rw [Statement.size_ifElse] at hbound
  have hjump := hholds.append_right.tail.append_right
  rw [Statement.length_code] at hjump
  exact ⟨⟨hholds.append_left, hholds.append_right.has, by omega⟩,
    ⟨hholds.append_right.tail.append_left, by omega, h.parts.block (Statement.partOf_block c)
      fun _ hpart => List.mem_cons_of_mem _ (List.mem_append_left _ hpart)⟩,
    hjump.has, hjump.tail, by omega,
    fun part hpart => h.parts part (List.mem_cons_of_mem _ (List.mem_append_right _ hpart))⟩

theorem whileLoop {position : Nat} {condition : Condition} {body : Block}
    (h : p.Contains commands c (.whileLoop position condition body) start) :
    let bodyStart := start + condition.core.code.length + 1
    p.Tests commands condition start (bodyStart + (Statement.block body).size + 1) ∧
      p.Contains commands c (.block body) bodyStart ∧
      p.Has (bodyStart + (Statement.block body).size) (.jump (operand start)) := by
  have hholds := h.holds
  have hbound := h.bound
  simp only [Statement.code_whileLoop, Condition.test_eq, Statement.length_code] at hholds
  rw [Statement.size_whileLoop] at hbound
  have hjump := hholds.append_right.tail.append_right
  rw [Statement.length_code] at hjump
  exact ⟨⟨hholds.append_left, hholds.append_right.has, by omega⟩,
    ⟨hholds.append_right.tail.append_left, by omega, h.parts.block (Statement.partOf_block c)
      (List.subset_cons_self _ _)⟩,
    hjump.has⟩

end Contains

end Program

/-! ## Commands in a program -/

namespace Script.Compiles

variable {script : Script} {main c : Command} {p : Program}

/-- **The body of every command stands at its address.** -/
theorem contains_body (h : script.Compiles main p) (hc : c ∈ script.reachable main.name) :
    p.Contains (script.reachable main.name) c (.block c.body)
      (address (script.reachable main.name) c.name) := by
  have hholds := h.assembles.holds_command hc
  rw [Command.code_eq] at hholds
  refine ⟨hholds.append_left, (h.assembles.address_bounds hc).2, ?_⟩
  intro part hpart
  rcases List.mem_cons.1 hpart with rfl | hpart
  · exact Statement.partOf_block c _
  · refine ⟨h.wellScoped.inRange c (mem_commands_of_mem_reachable hc) part hpart, ?_⟩
    rintro call rfl
    rw [Block.calls_eq]
    exact List.mem_filterMap.2 ⟨_, hpart, rfl⟩

/-- Behind its body a command is left, at the position of its closing brace. -/
theorem get?_ret (h : script.Compiles main p) (hc : c ∈ script.reachable main.name) :
    p.get? (address (script.reachable main.name) c.name + (Statement.block c.body).size) =
      some (.ofOp .ret c.body.closing) := by
  have hholds := h.assembles.holds_command hc
  rw [Command.code_eq] at hholds
  have hret := hholds.append_right
  rw [Statement.length_code] at hret
  exact hret.get?_of_line

theorem has_ret (h : script.Compiles main p) (hc : c ∈ script.reachable main.name) :
    p.Has (address (script.reachable main.name) c.name + (Statement.block c.body).size) .ret :=
  ⟨_, h.get?_ret hc⟩

end Script.Compiles
end KarelRobot
