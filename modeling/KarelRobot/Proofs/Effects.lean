import KarelRobot.Machine
import KarelRobot.Proofs.Encoding
import KarelRobot.Proofs.Grid
import Mathlib.Data.List.TakeWhile

/-!
# What an instruction can do

Whatever words a program consists of, a single instruction does one of a few things to a machine.
It carries out an action, rearranges the values of the current command, enters a command or leaves
one; or it fails, and then it has changed nothing but what it popped in vain.

* `Machine.returnCount` — how many return addresses there are on a stack.
* `Machine.Executes` — the operation that is next.
* `Machine.Performs`, `Machine.CallsAt` — what an operation carries out or enters, under its own
  name or through a parameter.
* `Machine.Effect` — what can come of an instruction.
* `Machine.effect_step` — nothing else can.
-/

set_option autoImplicit false
namespace KarelRobot

/-- Operations that concern nothing but the values of the current command and where it goes on. -/
def Op.IsInternal : Op → Prop
  | ret | action _ | call _ | callParameter _ => False
  | query _ | literal _ | not | and | or | pass _ | forward _ | push _ | loop _ | jump _ |
    jumpUnless _ | jumpIf _ => True

namespace Machine

/-! ## Return addresses -/

/-- How many return addresses there are on a stack. -/
def returnCount (stack : List Value) : Nat :=
  stack.countP Value.isReturnAddress

theorem returnCount_cons (address : UInt16) (below : List Value) :
    returnCount (.returnAddress address :: below) = returnCount below + 1 :=
  List.countP_cons_of_pos rfl

/-- Values that are no return addresses do not count. -/
theorem returnCount_append {values : List Value}
    (h : ∀ value ∈ values, value.isReturnAddress = false) (stack : List Value) :
    returnCount (values ++ stack) = returnCount stack := by
  have hnone : values.countP Value.isReturnAddress = 0 :=
    List.countP_eq_zero.2 fun value hvalue => Bool.eq_false_iff.1 (h value hvalue)
  rw [returnCount, List.countP_append, hnone, Nat.zero_add, returnCount]

/-- Commands that are passed on are no return addresses. -/
theorem Value.isReturnAddress_of_mem_takeWhile {value : Value} {stack : List Value}
    (h : value ∈ stack.takeWhile isCommand) : value.isReturnAddress = false := by
  have hcommand := List.mem_takeWhile_imp h
  cases value with
  | command => rfl
  | returnAddress | loopCounter | boolean => cases hcommand

theorem returnCount_dropWhile_isCommand (stack : List Value) :
    returnCount (stack.dropWhile Value.isCommand) = returnCount stack := by
  have hcommands : ∀ value ∈ stack.takeWhile Value.isCommand, value.isReturnAddress = false :=
    fun _ => Value.isReturnAddress_of_mem_takeWhile
  rw [← returnCount_append hcommands, List.takeWhile_append_dropWhile]

theorem returnCount_le_of_suffix {stack stack' : List Value} (h : stack <:+ stack') :
    returnCount stack ≤ returnCount stack' :=
  h.sublist.countP_le

/-! ## Operations and their effects -/

/-- The instruction `site` is next, and it stands for the operation `op`. -/
structure Executes (p : Program) (m : Machine) (site : Instruction) (op : Op) : Prop where
  finished : m.finished = false
  current : m.current? p = some site
  op : site.op? = some op

/-- An operation carries out a built-in command. -/
inductive Performs (m : Machine) (which : Action) : Op → Prop
  | direct : Performs m which (.action which)
  | passed {index : UInt16} (h : m.argument index = .ok which.opcode) :
      Performs m which (.callParameter index)

/-- An operation calls the command at an address. -/
inductive CallsAt (m : Machine) : (address : Nat) → Op → Prop
  | direct (target : UInt16) : CallsAt m target.toNat (.call target)
  | passed {index reference : UInt16} (h : m.argument index = .ok reference) :
      CallsAt m reference.toNat (.callParameter index)

/-- A loop counter that an operation pushes is the one that it names, or what is left of one that it
has popped. -/
def Value.CountedFrom (op : Op) (popped : List Value) : Value → Prop
  | loopCounter remaining =>
    op = .push remaining ∨ ∃ before, loopCounter before ∈ popped ∧ remaining.toNat ≤ before.toNat
  | _ => True

/-- What can come of an instruction. -/
inductive Effect (p : Program) (m : Machine) : Machine × Outcome → Prop
  /-- The program had come to its end before. -/
  | rests (hfinished : m.finished = true) : Effect p m (m, .finished)
  /-- The first command is left. -/
  | finishes {site : Instruction} (hexecutes : m.Executes p site .ret) (hstack : m.stack = []) :
      Effect p m ({ m with finished := true }, .finished)
  /-- The world does not allow an action. -/
  | refused {site : Instruction} {op : Op} {which : Action} {fault : World.Fault}
      (hexecutes : m.Executes p site op) (hperforms : m.Performs which op)
      (hfault : m.world.perform which = .error fault) : Effect p m (m, .failed (.world fault))
  /-- The instruction fails in another way and has changed nothing. -/
  | fails {fault : Fault} (hfault : ∀ pc, fault ≠ .stackUnderflow pc)
      (hgrid : m.world.robot.OnGrid → ∀ reason, fault ≠ .world reason) :
      Effect p m (m, .failed fault)
  /-- The stack does not hold what is needed.  What has been popped stays popped. -/
  | underflows {stack : List Value} {events : List Event} (hstack : stack <:+ m.stack)
      (hevents : events = m.events ∨ events = .left :: m.events) :
      Effect p m ({ m with stack := stack, events := events }, .failed (.stackUnderflow m.pc))
  | acts {site : Instruction} {op : Op} {which : Action} {w : World}
      (hexecutes : m.Executes p site op) (hperforms : m.Performs which op)
      (hw : m.world.perform which = .ok w) :
      Effect p m ({ m with world := w, pc := m.pc + 1 }, .paused)
  /-- Values of the current command are replaced by others. -/
  | computes {site : Instruction} {op : Op} (hexecutes : m.Executes p site op)
      (hop : op.IsInternal) (popped pushed : List Value) {kept : List Value}
      (hstack : m.stack = popped ++ kept)
      (hpopped : ∀ value ∈ popped, value.isReturnAddress = false)
      (hpushed : ∀ value ∈ pushed, value.isReturnAddress = false)
      (hcounted : ∀ value ∈ pushed, value.CountedFrom op popped) (pc : Nat) :
      Effect p m ({ m with stack := pushed ++ kept, pc := pc }, .paused)
  | enters {site closing : Instruction} {op : Op} {address : Nat}
      (hexecutes : m.Executes p site op) (hcalls : m.CallsAt address op)
      (hclosing : p.returnFrom? address = some closing) :
      Effect p m
        ({ m with
          events := .entered site closing :: m.events
          stack := .returnAddress (UInt16.ofNat m.pc) :: m.stack
          callDepth := m.callDepth + 1
          pc := address }, .paused)
  | leaves {site : Instruction} {caller : UInt16} {stack : List Value}
      (hexecutes : m.Executes p site .ret) (hstack : m.stack = .returnAddress caller :: stack) :
      Effect p m
        ({ m with
          events := .left :: m.events
          stack := stack.dropWhile Value.isCommand
          callDepth := m.callDepth - 1
          pc := caller.toNat + 1 }, .paused)

section Parts

variable {p : Program} {m : Machine} {site : Instruction} {op : Op}

/-- An operation goes on without the values that it has popped. -/
theorem Executes.effect_jump (h : m.Executes p site op) (hop : op.IsInternal)
    (popped : List Value) {kept : List Value} (hstack : m.stack = popped ++ kept)
    (hpopped : ∀ value ∈ popped, value.isReturnAddress = false) (address : Nat) :
    Effect p m ({ m with stack := kept }.jump address) :=
  .computes h hop popped [] hstack hpopped (List.forall_mem_nil _) (List.forall_mem_nil _) address

/-- An operation goes on with a value in the place of those that it has popped. -/
theorem Executes.effect_replace (h : m.Executes p site op) (hop : op.IsInternal)
    (popped : List Value) {kept : List Value} (hstack : m.stack = popped ++ kept)
    (hpopped : ∀ value ∈ popped, value.isReturnAddress = false) {value : Value}
    (hvalue : value.isReturnAddress = false) (hcounted : value.CountedFrom op popped) :
    Effect p m ({ m with stack := kept }.push value) :=
  .computes h hop popped [value] hstack hpopped (List.forall_mem_singleton.2 hvalue)
    (List.forall_mem_singleton.2 hcounted) _

theorem Executes.effect_push (h : m.Executes p site op) (hop : op.IsInternal) {value : Value}
    (hvalue : value.isReturnAddress = false) (hcounted : value.CountedFrom op []) :
    Effect p m (m.push value) :=
  h.effect_replace hop [] rfl (List.forall_mem_nil _) hvalue hcounted

/-- An operation pops a truth value, perhaps not as the first one. -/
theorem effect_popBoolean (popped : List Value) {stack : List Value}
    (hstack : m.stack = popped ++ stack) {use : Machine → Bool → Machine × Outcome}
    (huse : ∀ value kept, stack = .boolean value :: kept →
      Effect p m (use { m with stack := kept } value)) :
    Effect p m ({ m with stack := stack }.popBoolean use) := by
  have hsuffix : stack <:+ m.stack := ⟨popped, hstack.symm⟩
  unfold popBoolean
  split
  next value kept hcons => exact huse value kept hcons
  -- A value of another kind is lost, and so is what had been popped before it.
  next value kept _ hcons =>
    exact .underflows ((hcons ▸ List.suffix_cons value kept).trans hsuffix) (.inl rfl)
  · exact .underflows hsuffix (.inl rfl)

theorem Executes.effect_combine (h : m.Executes p site op) (hop : op.IsInternal)
    (operation : Bool → Bool → Bool) : Effect p m (m.combine operation) := by
  refine effect_popBoolean [] rfl fun right below hright => ?_
  refine effect_popBoolean [.boolean right] hright fun left kept hleft => ?_
  have hstack : m.stack = [.boolean right, .boolean left] ++ kept := by
    subst hleft
    exact hright
  exact h.effect_replace hop _ hstack (by simp [Value.isReturnAddress]) rfl trivial

theorem Executes.effect_perform {which : Action} (h : m.Executes p site op)
    (hperforms : m.Performs which op) : Effect p m (m.perform which) := by
  unfold perform
  split
  next w hw => exact .acts h hperforms hw
  next fault hfault => exact .refused h hperforms hfault

theorem Executes.effect_query {which : Predicate} (h : m.Executes p site (.query which)) :
    Effect p m (m.query which) := by
  unfold query
  split
  · exact h.effect_push trivial rfl trivial
  next fault hfault =>
    refine .fails nofun fun hgrid => ?_
    obtain ⟨answer, hanswer⟩ := World.exists_ask hgrid which
    rw [hfault] at hanswer
    cases hanswer

theorem Executes.effect_enter {address : Nat} (h : m.Executes p site op)
    (hcalls : m.CallsAt address op) : Effect p m (m.enter p site address) := by
  unfold enter
  split
  · exact .fails nofun nofun
  next closing hclosing => exact .enters h hcalls hclosing

theorem Executes.effect_callPassed {index reference : UInt16}
    (h : m.Executes p site (.callParameter index)) (hargument : m.argument index = .ok reference) :
    Effect p m (m.callPassed p site reference) := by
  unfold callPassed
  split
  next which hwhich =>
    rw [Action.eq_opcode_of_ofOpcode? hwhich] at hargument
    exact h.effect_perform (.passed hargument)
  · split
    · exact h.effect_enter (.passed hargument)
    · exact .fails nofun nofun

/-- Looking for an argument in vain pops nothing. -/
theorem effect_of_argument {index : UInt16} {fault : Fault} (h : m.argument index = .error fault) :
    Effect p m (m.fail fault) := by
  unfold argument at h
  split at h
  · cases h
    exact .underflows (List.suffix_refl _) (.inl rfl)
  · split at h
    · cases h
      exact .underflows (List.suffix_refl _) (.inl rfl)
    · cases h
    · cases h
      exact .fails nofun nofun

theorem Executes.effect_loop {back : UInt16} (h : m.Executes p site (.loop back)) :
    Effect p m (m.loop back) := by
  unfold loop
  split
  next remaining kept hstack =>
    have hpopped : ∀ value ∈ [Value.loopCounter remaining], value.isReturnAddress = false :=
      List.forall_mem_singleton.2 rfl
    split
    next hone =>
      have hless : (remaining - 1).toNat ≤ remaining.toNat := by
        rw [UInt16.toNat_sub_of_le _ _ (UInt16.le_of_lt hone)]
        exact Nat.sub_le _ _
      exact .computes h trivial [.loopCounter remaining] [.loopCounter (remaining - 1)] hstack
        hpopped (List.forall_mem_singleton.2 rfl)
        (List.forall_mem_singleton.2 (.inr ⟨remaining, List.mem_singleton_self _, hless⟩)) _
    · exact h.effect_jump trivial _ hstack hpopped _
  next value kept _ hstack => exact .underflows ⟨[value], hstack.symm⟩ (.inl rfl)
  · exact .underflows (List.suffix_refl _) (.inl rfl)

theorem Executes.effect_leave (h : m.Executes p site .ret) : Effect p m m.leave := by
  unfold leave
  split
  next hstack => exact .finishes h hstack
  next caller stack hstack => exact .leaves h hstack
  next value stack _ hstack => exact .underflows ⟨[value], hstack.symm⟩ (.inr rfl)

/-- What can come of an operation. -/
theorem Executes.effect (h : m.Executes p site op) : Effect p m (m.execute p site op) := by
  have hboolean (value : Bool) : ∀ v ∈ [Value.boolean value], v.isReturnAddress = false :=
    List.forall_mem_singleton.2 rfl
  cases op with
  | ret => exact h.effect_leave
  | action which => exact h.effect_perform .direct
  | query which => exact h.effect_query
  | literal | pass => exact h.effect_push trivial rfl trivial
  | push times => exact h.effect_push trivial rfl (.inl rfl)
  | not =>
    rw [execute]
    refine effect_popBoolean [] rfl fun value kept hstack => ?_
    exact h.effect_replace trivial _ hstack (hboolean value) rfl trivial
  | and => exact h.effect_combine trivial and
  | or => exact h.effect_combine trivial or
  | forward index =>
    simp only [execute]
    split
    · exact h.effect_push trivial rfl trivial
    next fault hfault => exact effect_of_argument hfault
  | callParameter index =>
    simp only [execute]
    split
    next reference hreference => exact h.effect_callPassed hreference
    next fault hfault => exact effect_of_argument hfault
  | loop back => exact h.effect_loop
  | call target => exact h.effect_enter (.direct target)
  | jump target => exact h.effect_jump trivial [] rfl (List.forall_mem_nil _) _
  | jumpUnless target | jumpIf target =>
    rw [execute]
    refine effect_popBoolean [] rfl fun value kept hstack => ?_
    cases value with
    | false => exact h.effect_jump trivial _ hstack (hboolean false) _
    | true => exact h.effect_jump trivial _ hstack (hboolean true) _

end Parts

/-- The next instruction is executed as the operation that it stands for. -/
theorem Executes.step_eq {p : Program} {m : Machine} {site : Instruction} {op : Op}
    (h : m.Executes p site op) : m.step p = m.execute p site op := by
  rw [step, if_neg (by rw [h.finished]; exact Bool.false_ne_true), h.current]
  simp only [h.op]

/-- **What can come of an instruction,** whatever the program. -/
theorem effect_step (p : Program) (m : Machine) : Effect p m (m.step p) := by
  unfold step
  split
  next hfinished => exact .rests hfinished
  next hfinished =>
    split
    · exact .fails nofun nofun
    next site hsite =>
      split
      · exact .fails nofun nofun
      next op hop => exact Executes.effect ⟨Bool.eq_false_iff.2 hfinished, hsite, hop⟩

theorem effect_of_step {p : Program} {m m' : Machine} {outcome : Outcome}
    (h : m.step p = (m', outcome)) : Effect p m (m', outcome) :=
  h ▸ effect_step p m

/-- Where the program comes to its end, the machine is marked so. -/
theorem Effect.finished {p : Program} {m : Machine} {r : Machine × Outcome} (h : Effect p m r)
    (hr : r.2 = .finished) : r.1.finished = true := by
  cases h with
  | rests hfinished => exact hfinished
  | finishes => rfl
  | refused | fails | underflows | acts | computes | enters | leaves => cases hr

/-- Calls get deeper only where a command is entered, and the debugger is told. -/
theorem Effect.entered {p : Program} {m : Machine} {r : Machine × Outcome} (h : Effect p m r)
    (hdepth : r.1.callDepth = m.callDepth + 1) :
    ∃ site closing op, m.Executes p site op ∧ m.CallsAt r.1.pc op ∧
      p.returnFrom? r.1.pc = some closing ∧ r.1.events = .entered site closing :: m.events := by
  cases h with
  | rests | finishes | refused | fails | underflows | acts | computes =>
    exact absurd hdepth (Nat.ne_of_lt (Nat.lt_succ_self _))
  | enters hexecutes hcalls hclosing => exact ⟨_, _, _, hexecutes, hcalls, hclosing, rfl⟩
  | leaves =>
    exact absurd hdepth (Nat.ne_of_lt (Nat.lt_succ_of_le (Nat.sub_le _ _)))

end Machine
end KarelRobot
