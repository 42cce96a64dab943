import KarelRobot.Proofs.Calling

/-!
# What lies on the stack at each address

How many values of its own a command has on the stack does not depend on how the machine got where
it is, only on the address: a counter for each loop around it, the truth values of a condition that
has been decided in part, or the arguments of a call that have been pushed already.

* `Shape` — the number of these values.
* `Statement.shapes`, `Command.shapes` — the shape before each instruction, next to the code.
* `Flows` — what an operation needs on the stack, and the shapes at the addresses it leads to.
* `Script.Compiles.sound` — every instruction of a program finds what it needs.
-/

set_option autoImplicit false
namespace KarelRobot

open Assembly Machine

/-- How many values of its own a command has on the stack. -/
structure Shape where
  /-- The counters of the loops that are running. -/
  counters : Nat
  /-- The truth values of a condition that has been decided in part. -/
  booleans : Nat
  /-- The arguments of a call that have been pushed. -/
  arguments : Nat
deriving Repr, DecidableEq

/-! ## The shape before each instruction -/

/-- The shapes in the code of a condition. -/
def Condition.shapes (loops booleans : Nat) : Condition → List Shape
  | literal _ _ => [⟨loops, booleans, 0⟩]
  | predicate _ _ => [⟨loops, booleans, 0⟩]
  | not _ operand => operand.shapes loops booleans ++ [⟨loops, booleans + 1, 0⟩]
  | and _ left right =>
    left.shapes loops booleans ++ right.shapes loops (booleans + 1) ++ [⟨loops, booleans + 2, 0⟩]
  | or _ left right =>
    left.shapes loops booleans ++ right.shapes loops (booleans + 1) ++ [⟨loops, booleans + 2, 0⟩]

/-- The shapes in the code that decides a condition, the branch included. -/
def Condition.testShapes (loops : Nat) (condition : Condition) : List Shape :=
  condition.core.shapes loops 0 ++ [⟨loops, 1, 0⟩]

/-- The shapes in the code that pushes arguments when some have been pushed before. -/
def Call.argumentShapes (loops pushed : Nat) : List Ident → List Shape
  | [] => []
  | _ :: following => ⟨loops, 0, pushed⟩ :: argumentShapes loops (pushed + 1) following

mutual

/-- The shapes in the code of a statement inside a number of loops. -/
def Statement.shapes (loops : Nat) : Statement → List Shape
  | .call c => Call.argumentShapes loops 0 c.arguments ++ [⟨loops, 0, c.arguments.length⟩]
  | .block body => body.shapes loops
  | .repeatTimes _ _ body =>
    ⟨loops, 0, 0⟩ :: (body.shapes (loops + 1) ++ [⟨loops + 1, 0, 0⟩])
  | .ifThen _ condition body => condition.testShapes loops ++ body.shapes loops
  | .ifElse _ condition body otherwise =>
    condition.testShapes loops ++ (body.shapes loops ++ ⟨loops, 0, 0⟩ :: otherwise.shapes loops)
  | .whileLoop _ condition body =>
    condition.testShapes loops ++ (body.shapes loops ++ [⟨loops, 0, 0⟩])

/-- The shapes in the code of a block. -/
def Block.shapes (loops : Nat) : Block → List Shape
  | .mk _ statements _ => Statement.shapesAll loops statements

/-- The shapes in the code of statements behind one another. -/
def Statement.shapesAll (loops : Nat) : List Statement → List Shape
  | [] => []
  | statement :: following => statement.shapes loops ++ Statement.shapesAll loops following

end

/-- The shapes in the code of a command. -/
def Command.shapes (c : Command) : List Shape :=
  (Statement.block c.body).shapes 0 ++ [⟨0, 0, 0⟩]

theorem Condition.length_shapes (condition : Condition) (loops booleans : Nat) :
    (condition.shapes loops booleans).length = condition.code.length := by
  induction condition generalizing booleans with
  | literal | predicate => rfl
  | not position operand ih =>
    simp only [shapes, code, List.length_append, List.length_singleton, ih]
  | and position left right ihleft ihright | or position left right ihleft ihright =>
    simp only [shapes, code, List.length_append, List.length_singleton, ihleft, ihright]

theorem Condition.length_testShapes (condition : Condition) (loops : Nat) :
    (condition.testShapes loops).length = condition.core.code.length + 1 := by
  rw [testShapes, List.length_append, length_shapes, List.length_singleton]

theorem Call.length_argumentShapes (loops pushed : Nat) (arguments : List Ident) :
    (argumentShapes loops pushed arguments).length = arguments.length := by
  induction arguments generalizing pushed with
  | nil => rfl
  | cons argument arguments ih => rw [argumentShapes, List.length_cons, ih, List.length_cons]

namespace Statement

variable (loops : Nat)

theorem shapes_cons (opening : Nat) (first : Statement) (following : List Statement)
    (closing : Nat) :
    (Statement.block (.mk opening (first :: following) closing)).shapes loops =
      first.shapes loops ++ (Statement.block (.mk opening following closing)).shapes loops := rfl

theorem shapes_repeatTimes (position times : Nat) (body : Block) :
    (Statement.repeatTimes position times body).shapes loops =
      ⟨loops, 0, 0⟩ :: ((Statement.block body).shapes (loops + 1) ++ [⟨loops + 1, 0, 0⟩]) := rfl

theorem shapes_ifThen (position : Nat) (condition : Condition) (body : Block) :
    (Statement.ifThen position condition body).shapes loops =
      condition.testShapes loops ++ (Statement.block body).shapes loops := rfl

theorem shapes_ifElse (position : Nat) (condition : Condition) (body : Block)
    (otherwise : Statement) :
    (Statement.ifElse position condition body otherwise).shapes loops =
      condition.testShapes loops ++
        ((Statement.block body).shapes loops ++ ⟨loops, 0, 0⟩ :: otherwise.shapes loops) := rfl

theorem shapes_whileLoop (position : Nat) (condition : Condition) (body : Block) :
    (Statement.whileLoop position condition body).shapes loops =
      condition.testShapes loops ++
        ((Statement.block body).shapes loops ++ [⟨loops, 0, 0⟩]) := rfl

/-- There is a shape for each instruction. -/
theorem length_shapes (s : Statement) : (s.shapes loops).length = s.size := by
  induction s using Statement.induction generalizing loops with
  | call c => rw [shapes, List.length_append, Call.length_argumentShapes, size_call,
      List.length_singleton]
  | nil opening closing => rfl
  | cons opening first following closing hfirst hfollowing =>
    rw [shapes_cons, size_cons, List.length_append, hfirst, hfollowing]
  | repeatTimes position times body hbody =>
    rw [shapes_repeatTimes, size_repeatTimes, List.length_cons, List.length_append, hbody,
      List.length_singleton]
  | ifThen position condition body hbody =>
    rw [shapes_ifThen, size_ifThen, List.length_append, Condition.length_testShapes, hbody]
  | ifElse position condition body otherwise hbody hother =>
    simp only [shapes_ifElse, size_ifElse, List.length_append, List.length_cons,
      Condition.length_testShapes, hbody, hother]
    omega
  | whileLoop position condition body hbody =>
    simp only [shapes_whileLoop, size_whileLoop, List.length_append, List.length_singleton,
      Condition.length_testShapes, hbody]
    omega

end Statement

/-! ## Shapes at addresses -/

/-- A property of all addresses from `start` on and the shapes there. -/
def ShapesHold (P : Nat → Shape → Prop) : (start : Nat) → List Shape → Prop
  | _, [] => True
  | start, shape :: following => P start shape ∧ ShapesHold P (start + 1) following

namespace ShapesHold

variable {P : Nat → Shape → Prop} {start : Nat}

theorem append_iff {xs ys : List Shape} :
    ShapesHold P start (xs ++ ys) ↔
      ShapesHold P start xs ∧ ShapesHold P (start + xs.length) ys := by
  induction xs generalizing start with
  | nil => simp [ShapesHold]
  | cons x xs ih =>
    rw [List.cons_append, ShapesHold, ShapesHold, ih, List.length_cons, and_assoc,
      Nat.add_right_comm, ← Nat.add_assoc]

theorem iff_getElem? {shapes : List Shape} :
    ShapesHold P start shapes ↔
      ∀ (i : Nat) (shape : Shape), shapes[i]? = some shape → P (start + i) shape := by
  induction shapes generalizing start with
  | nil => simp [ShapesHold]
  | cons first following ih =>
    rw [ShapesHold, ih]
    constructor
    · rintro ⟨hfirst, hfollowing⟩ i shape hshape
      cases i with
      | zero => cases hshape; exact hfirst
      | succ i =>
        have h := hfollowing i shape hshape
        rwa [Nat.add_right_comm] at h
    · intro h
      refine ⟨h 0 first rfl, fun i shape hshape => ?_⟩
      have h' := h (i + 1) shape hshape
      rwa [Nat.add_right_comm]

end ShapesHold

/-- The shape at an address of a command. -/
def Command.At (commands : List Command) (c : Command) (a : Nat) (shape : Shape) : Prop :=
  ∃ i, a = address commands c.name + i ∧ c.shapes[i]? = some shape

theorem Command.At.bounds {commands : List Command} {c : Command} {a : Nat} {shape : Shape}
    (h : c.At commands a shape) :
    address commands c.name ≤ a ∧ a ≤ address commands c.name + (Statement.block c.body).size := by
  obtain ⟨i, rfl, hi⟩ := h
  have hlt := (List.getElem?_eq_some_iff.1 hi).1
  rw [Command.shapes, List.length_append, Statement.length_shapes, List.length_singleton] at hlt
  omega

theorem Command.shapesHold_at (commands : List Command) (c : Command) :
    ShapesHold (c.At commands) (address commands c.name) c.shapes :=
  ShapesHold.iff_getElem?.2 fun i _ hi => ⟨i, rfl, hi⟩

/-! ## What operations do to shapes -/

/-- What an operation at the address `a` of the command `c` needs on the stack, and that the shapes
at the addresses to which it leads are the right ones.  What it calls or passes on under its own
name is mentioned in the command. -/
inductive Flows (script : Script) (commands : List Command) (c : Command) (a : Nat) :
    Shape → Op → Prop
  | ret : Flows script commands c a ⟨0, 0, 0⟩ .ret
  | action {loops : Nat} (which : Action) (hnext : c.At commands (a + 1) ⟨loops, 0, 0⟩) :
      Flows script commands c a ⟨loops, 0, 0⟩ (.action which)
  | query {loops n : Nat} (which : Predicate) (hnext : c.At commands (a + 1) ⟨loops, n + 1, 0⟩) :
      Flows script commands c a ⟨loops, n, 0⟩ (.query which)
  | literal {loops n : Nat} (value : Bool) (hnext : c.At commands (a + 1) ⟨loops, n + 1, 0⟩) :
      Flows script commands c a ⟨loops, n, 0⟩ (.literal value)
  | not {loops n : Nat} (hnext : c.At commands (a + 1) ⟨loops, n + 1, 0⟩) :
      Flows script commands c a ⟨loops, n + 1, 0⟩ .not
  | and {loops n : Nat} (hnext : c.At commands (a + 1) ⟨loops, n + 1, 0⟩) :
      Flows script commands c a ⟨loops, n + 2, 0⟩ .and
  | or {loops n : Nat} (hnext : c.At commands (a + 1) ⟨loops, n + 1, 0⟩) :
      Flows script commands c a ⟨loops, n + 2, 0⟩ .or
  | pass {loops n : Nat} {word : UInt16} {meaning : Meaning}
      (hword : Denotes commands word meaning)
      (hmentions : ∀ d, meaning = .command d → script.Mentions c d)
      (hnext : c.At commands (a + 1) ⟨loops, 0, n + 1⟩) :
      Flows script commands c a ⟨loops, 0, n⟩ (.pass word)
  | forward {loops n : Nat} {index : UInt16} (hlow : 0 < index.toNat)
      (hhigh : index.toNat ≤ c.parameters.length)
      (hnext : c.At commands (a + 1) ⟨loops, 0, n + 1⟩) :
      Flows script commands c a ⟨loops, 0, n⟩ (.forward index)
  | callParameter {loops : Nat} {index : UInt16} (hlow : 0 < index.toNat)
      (hhigh : index.toNat ≤ c.parameters.length)
      (hnext : c.At commands (a + 1) ⟨loops, 0, 0⟩) :
      Flows script commands c a ⟨loops, 0, 0⟩ (.callParameter index)
  | push {loops : Nat} (times : UInt16) (hnext : c.At commands (a + 1) ⟨loops + 1, 0, 0⟩) :
      Flows script commands c a ⟨loops, 0, 0⟩ (.push times)
  | loop {loops back : Nat} (hback : c.At commands back ⟨loops + 1, 0, 0⟩)
      (hnext : c.At commands (a + 1) ⟨loops, 0, 0⟩) :
      Flows script commands c a ⟨loops + 1, 0, 0⟩ (.loop (operand back))
  | call {loops : Nat} {d : Command} (hd : d ∈ commands) (hmentions : script.Mentions c d)
      (hnext : c.At commands (a + 1) ⟨loops, 0, 0⟩) :
      Flows script commands c a ⟨loops, 0, d.parameters.length⟩
        (.call (operand (address commands d.name)))
  | jump {loops target : Nat} (htarget : c.At commands target ⟨loops, 0, 0⟩) :
      Flows script commands c a ⟨loops, 0, 0⟩ (.jump (operand target))
  | branch {loops target : Nat} (negations : Nat) (hnext : c.At commands (a + 1) ⟨loops, 0, 0⟩)
      (htarget : c.At commands target ⟨loops, 0, 0⟩) :
      Flows script commands c a ⟨loops, 1, 0⟩ (Condition.branch negations (operand target))

/-- The operation at an address finds what it needs. -/
def Sound (p : Program) (script : Script) (commands : List Command) (c : Command) (a : Nat)
    (shape : Shape) : Prop :=
  ∃ op, p.Has a op ∧ op.Fits ∧ Flows script commands c a shape op

section Flows

variable {script : Script} {main c : Command} {p : Program} {commands : List Command}
  {start loops : Nat}

/-- The first instruction of a condition finds nothing of it on the stack. -/
theorem Condition.at_start {condition : Condition} {booleans : Nat} {P : Nat → Shape → Prop}
    (h : ShapesHold P start (condition.shapes loops booleans)) : P start ⟨loops, booleans, 0⟩ := by
  induction condition with
  | literal | predicate => exact h.1
  | not position operand ih => exact ih (ShapesHold.append_iff.1 h).1
  | and position left right ihleft ihright | or position left right ihleft ihright =>
    exact ihleft (ShapesHold.append_iff.1 (ShapesHold.append_iff.1 h).1).1

theorem Condition.sound {condition : Condition} {booleans : Nat}
    (hholds : p.Holds commands start condition.code)
    (hat : ShapesHold (c.At commands) start (condition.shapes loops booleans))
    (hnext : c.At commands (start + condition.code.length) ⟨loops, booleans + 1, 0⟩) :
    ShapesHold (Sound p script commands c) start (condition.shapes loops booleans) := by
  induction condition generalizing start booleans with
  | literal value position =>
    exact ⟨⟨_, hholds.has, Op.fits_of_none rfl, .literal value hnext⟩, trivial⟩
  | predicate which position =>
    exact ⟨⟨_, hholds.has, Op.fits_of_none rfl, .query which hnext⟩, trivial⟩
  | not position operand ih =>
    rw [shapes, ShapesHold.append_iff, length_shapes] at hat ⊢
    rw [code] at hholds
    rw [code, List.length_append, List.length_singleton, ← Nat.add_assoc] at hnext
    exact ⟨ih hholds.append_left hat.1 hat.2.1,
      ⟨_, hholds.append_right.has, Op.fits_of_none rfl, .not hnext⟩, trivial⟩
  | and position left right ihleft ihright | or position left right ihleft ihright =>
    simp only [shapes, ShapesHold.append_iff, List.length_append, length_shapes,
      ← Nat.add_assoc] at hat ⊢
    obtain ⟨⟨hleft, hright⟩, hlast⟩ := hat
    rw [code] at hholds
    have hoperands := hholds.append_left
    have hhas := hholds.append_right
    simp only [code, List.length_append, List.length_singleton, ← Nat.add_assoc] at hnext hhas
    refine ⟨⟨ihleft hoperands.append_left hleft (at_start hright),
      ihright hoperands.append_right hright hlast.1⟩,
      ⟨_, hhas.has, Op.fits_of_none rfl, ?_⟩, trivial⟩
    constructor
    exact hnext

/-- The code that decides a condition. -/
theorem Program.Tests.sound {condition : Condition} {target : Nat}
    (h : p.Tests commands condition start target)
    (hat : ShapesHold (c.At commands) start (condition.testShapes loops))
    (hnext : c.At commands (start + condition.core.code.length + 1) ⟨loops, 0, 0⟩)
    (htarget : c.At commands target ⟨loops, 0, 0⟩) :
    ShapesHold (Sound p script commands c) start (condition.testShapes loops) := by
  rw [Condition.testShapes, ShapesHold.append_iff, Condition.length_shapes] at hat ⊢
  have hfits : (Condition.branch condition.negations (operand target)).Fits := by
    unfold Condition.branch
    split <;> exact Op.fits_of_some rfl (operand_lt h.bound)
  exact ⟨Condition.sound h.holds hat.1 hat.2.1,
    ⟨_, h.branch, hfits, .branch _ hnext htarget⟩, trivial⟩

/-! ### Calls -/

theorem Call.at_start {arguments : List Ident} {pushed : Nat} {P : Nat → Shape → Prop}
    (h : ShapesHold P start (argumentShapes loops pushed arguments))
    (hnext : P (start + arguments.length) ⟨loops, 0, pushed + arguments.length⟩) :
    P start ⟨loops, 0, pushed⟩ := by
  cases arguments with
  | nil => exact hnext
  | cons argument arguments => exact h.1

/-- The instructions that push arguments. -/
theorem Script.Compiles.sound_arguments (h : script.Compiles main p)
    (hc : c ∈ script.reachable main.name) {arguments : List Ident} {ls : List Line} {pushed : Nat}
    (hholds : p.Holds (script.reachable main.name) start
      (arguments.map (contextOf (script.reachable main.name) c).argument ++ ls))
    (hlocated : ∀ argument ∈ arguments, script.Located (script.reachable main.name) c
      argument.text 0 (locate (script.reachable main.name) c argument.text))
    (hat : ShapesHold (c.At (script.reachable main.name)) start
      (Call.argumentShapes loops pushed arguments))
    (hnext : c.At (script.reachable main.name) (start + arguments.length)
      ⟨loops, 0, pushed + arguments.length⟩) :
    ShapesHold (Sound p script (script.reachable main.name) c) start
      (Call.argumentShapes loops pushed arguments) := by
  induction arguments generalizing start pushed with
  | nil => trivial
  | cons argument arguments ih =>
    rw [List.length_cons, Nat.add_comm arguments.length, ← Nat.add_assoc, ← Nat.add_assoc] at hnext
    have hbehind := Call.at_start hat.2 hnext
    refine ⟨?_, ih hholds.tail
      (fun other hother => hlocated other (List.mem_cons_of_mem _ hother)) hat.2 hnext⟩
    obtain ⟨hget, -⟩ := h.assembles.get?_argument hholds
    obtain ⟨arity, harity, hplace⟩ : ∃ arity, arity = 0 ∧
        script.Located (script.reachable main.name) c argument.text arity
          (locate (script.reachable main.name) c argument.text) :=
      ⟨0, rfl, hlocated argument List.mem_cons_self⟩
    generalize locate (script.reachable main.name) c argument.text = reference at hget hplace
    cases hplace with
    | parameter hindex hlt =>
      obtain ⟨hfits, hlow, hhigh⟩ := h.parameter_bounds hc hlt
      exact ⟨_, ⟨_, hget⟩, Op.fits_of_some rfl hfits, .forward hlow hhigh hbehind⟩
    | @builtin which hindex hwhich =>
      have hfits : which.opcode < 0x1000 := by cases which <;> decide
      exact ⟨_, ⟨_, hget⟩, Op.fits_of_some rfl hfits, .pass (.action which) nofun hbehind⟩
    | direct hindex hwhich hd hmem hmentions =>
      have hparameters := List.length_eq_zero_iff.1 harity
      exact ⟨_, ⟨_, hget⟩, Op.fits_of_some rfl (h.assembles.operand_address_lt hmem),
        .pass (.command hmem hparameters) (fun _ h => by cases h; exact hmentions) hbehind⟩

/-- The instructions of a call. -/
theorem Script.Compiles.sound_call (h : script.Compiles main p)
    (hc : c ∈ script.reachable main.name) {call : Call}
    (hcontains : p.Contains (script.reachable main.name) c (.call call) start)
    (hat : ShapesHold (c.At (script.reachable main.name)) start
      ((Statement.call call).shapes loops))
    (hnext : c.At (script.reachable main.name) (start + call.arguments.length + 1) ⟨loops, 0, 0⟩) :
    ShapesHold (Sound p script (script.reachable main.name) c) start
      ((Statement.call call).shapes loops) := by
  have hcall := hcontains.call_mem
  rw [Statement.shapes, ShapesHold.append_iff, Call.length_argumentShapes] at hat ⊢
  refine ⟨h.sound_arguments hc hcontains.holds
    (fun argument hargument => h.located_argument hc hcall hargument) hat.1
    (by rw [Nat.zero_add]; exact hat.2.1), ?_, trivial⟩
  obtain ⟨hget, -⟩ := h.assembles.get?_target hcontains.holds
  have hplace := h.located_target hc hcall
  generalize locate (script.reachable main.name) c call.target.text = reference at hget hplace
  generalize harity : call.arguments.length = arity at hget hplace hnext ⊢
  cases hplace with
  | parameter hindex hlt =>
    obtain ⟨hfits, hlow, hhigh⟩ := h.parameter_bounds hc hlt
    exact ⟨_, ⟨_, hget⟩, Op.fits_of_some rfl hfits, .callParameter hlow hhigh hnext⟩
  | builtin hindex hwhich =>
    exact ⟨_, ⟨_, hget⟩, Op.fits_of_none rfl, .action _ hnext⟩
  | direct hindex hwhich hd hmem hmentions =>
    exact ⟨_, ⟨_, hget⟩, Op.fits_of_some rfl (h.assembles.operand_address_lt hmem),
      .call hmem hmentions hnext⟩

/-! ### Statements -/

/-- The first instruction of a statement, or the one behind it if it has none, finds the counters of
the loops around it. -/
theorem Statement.at_start {s : Statement} {P : Nat → Shape → Prop}
    (h : ShapesHold P start (s.shapes loops)) (hnext : P (start + s.size) ⟨loops, 0, 0⟩) :
    P start ⟨loops, 0, 0⟩ := by
  induction s using Statement.induction generalizing start with
  | call call =>
    rw [shapes, ShapesHold.append_iff, Call.length_argumentShapes] at h
    exact Call.at_start h.1 (by rw [Nat.zero_add]; exact h.2.1)
  | nil opening closing => exact hnext
  | cons opening first following closing hfirst hfollowing =>
    rw [shapes_cons, ShapesHold.append_iff, length_shapes] at h
    rw [size_cons, ← Nat.add_assoc] at hnext
    exact hfirst h.1 (hfollowing h.2 hnext)
  | repeatTimes position times body hbody => exact h.1
  | ifThen position condition body hbody | ifElse position condition body otherwise hbody hother
  | whileLoop position condition body hbody =>
    exact Condition.at_start (ShapesHold.append_iff.1 (ShapesHold.append_iff.1 h).1).1

/-- **Every instruction of a statement finds what it needs.** -/
theorem Script.Compiles.sound_statement (h : script.Compiles main p)
    (hc : c ∈ script.reachable main.name) {s : Statement}
    (hcontains : p.Contains (script.reachable main.name) c s start)
    (hat : ShapesHold (c.At (script.reachable main.name)) start (s.shapes loops))
    (hnext : c.At (script.reachable main.name) (start + s.size) ⟨loops, 0, 0⟩) :
    ShapesHold (Sound p script (script.reachable main.name) c) start (s.shapes loops) := by
  induction s using Statement.induction generalizing start loops with
  | call call =>
    rw [Statement.size_call, ← Nat.add_assoc] at hnext
    exact h.sound_call hc hcontains hat hnext
  | nil opening closing => trivial
  | cons opening first following closing hfirst hfollowing =>
    rw [Statement.shapes_cons, ShapesHold.append_iff, Statement.length_shapes] at hat ⊢
    rw [Statement.size_cons, ← Nat.add_assoc] at hnext
    exact ⟨hfirst hcontains.first hat.1 (Statement.at_start hat.2 hnext),
      hfollowing hcontains.following hat.2 hnext⟩
  | repeatTimes position times body hbody =>
    obtain ⟨hpush, hinside, hloop, -, hhigh⟩ := hcontains.repeatTimes
    rw [Statement.shapes_repeatTimes, ShapesHold, ShapesHold.append_iff,
      Statement.length_shapes] at hat ⊢
    obtain ⟨-, hbodyAt, hloopAt, -⟩ := hat
    have hbehind : start + (Statement.repeatTimes position times body).size =
        start + 1 + (Statement.block body).size + 1 := by
      rw [Statement.size_repeatTimes]
      omega
    rw [hbehind] at hnext
    have hback := Statement.at_start hbodyAt hloopAt
    refine ⟨⟨_, hpush, ?_, .push _ hback⟩, hbody hinside hbodyAt hloopAt,
      ⟨_, hloop, ?_, .loop hback hnext⟩, trivial⟩
    · exact Op.fits_of_some rfl (operand_lt (Nat.lt_succ_of_le hhigh))
    · exact Op.fits_of_some rfl
        (operand_lt (Nat.lt_of_le_of_lt (Nat.le_add_right _ _) hinside.bound))
  | ifThen position condition body hbody =>
    obtain ⟨htest, hinside⟩ := hcontains.ifThen
    rw [Statement.shapes_ifThen, ShapesHold.append_iff, Condition.length_testShapes] at hat ⊢
    rw [Statement.size_ifThen, ← Nat.add_assoc, ← Nat.add_assoc] at hnext
    exact ⟨htest.sound hat.1 (Statement.at_start hat.2 hnext) hnext, hbody hinside hat.2 hnext⟩
  | ifElse position condition body otherwise hbody hother =>
    obtain ⟨htest, hinside, hjump, hotherwise⟩ := hcontains.ifElse
    rw [Statement.shapes_ifElse, ShapesHold.append_iff, ShapesHold.append_iff, ShapesHold,
      Condition.length_testShapes, Statement.length_shapes] at hat ⊢
    simp only [Statement.size_ifElse, ← Nat.add_assoc] at hnext hat ⊢
    obtain ⟨htestAt, hbodyAt, hjumpAt, hotherAt⟩ := hat
    have hotherStart := Statement.at_start hotherAt hnext
    refine ⟨htest.sound htestAt (Statement.at_start hbodyAt hjumpAt) hotherStart,
      hbody hinside hbodyAt hjumpAt, ⟨_, hjump, ?_, .jump hnext⟩, hother hotherwise hotherAt hnext⟩
    exact Op.fits_of_some rfl (operand_lt hotherwise.bound)
  | whileLoop position condition body hbody =>
    obtain ⟨htest, hinside, hjump⟩ := hcontains.whileLoop
    have hstart := Nat.lt_of_le_of_lt (Nat.le_add_right _ _) hcontains.bound
    have hback := Statement.at_start hat hnext
    rw [Statement.shapes_whileLoop, ShapesHold.append_iff, ShapesHold.append_iff,
      Condition.length_testShapes, Statement.length_shapes] at hat ⊢
    simp only [Statement.size_whileLoop, ← Nat.add_assoc] at hnext hat ⊢
    obtain ⟨htestAt, hbodyAt, hjumpAt, -⟩ := hat
    exact ⟨htest.sound htestAt (Statement.at_start hbodyAt hjumpAt) hnext,
      hbody hinside hbodyAt hjumpAt,
      ⟨_, hjump, Op.fits_of_some rfl (operand_lt hstart), .jump hback⟩, trivial⟩

/-- **Every instruction of a program finds what it needs.** -/
theorem Script.Compiles.sound (h : script.Compiles main p) (hc : c ∈ script.reachable main.name)
    {a : Nat} {shape : Shape} (hat : c.At (script.reachable main.name) a shape) :
    Sound p script (script.reachable main.name) c a shape := by
  have hshapes := c.shapesHold_at (script.reachable main.name)
  obtain ⟨i, rfl, hi⟩ := hat
  refine ShapesHold.iff_getElem?.1 ?_ i shape hi
  rw [Command.shapes, ShapesHold.append_iff, Statement.length_shapes] at hshapes ⊢
  exact ⟨h.sound_statement hc (h.contains_body hc) hshapes.1 hshapes.2.1,
    ⟨_, h.has_ret hc, Op.fits_of_none rfl, .ret⟩, trivial⟩

/-- A command starts with nothing of its own on the stack. -/
theorem Command.at_address (commands : List Command) (c : Command) :
    c.At commands (address commands c.name) ⟨0, 0, 0⟩ := by
  have hshapes := c.shapesHold_at commands
  rw [Command.shapes, ShapesHold.append_iff, Statement.length_shapes] at hshapes
  exact Statement.at_start hshapes.1 hshapes.2.1

end Flows
end KarelRobot
