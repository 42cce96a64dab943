import KarelRobot.Proofs.Effects
import KarelRobot.Proofs.Nesting
import KarelRobot.Proofs.Silence

/-!
# Stepping over and out of commands

Stepping over a command and stepping out of one both wait for the calls to be no deeper than they
should.  How deep they are says which command has been left: as long as the calls are as deep as
they were behind a return address, that return address and everything below it stay where they are,
however many commands are entered and left above, recursively or not.  So the instruction after
which they are less deep is the one that leaves through this return address.

* `Machine.Silently` — instructions at which no debugger stops lead from one machine to another.
* `Machine.Inside` — the calls stay at least as deep on the way from one machine to another.
* `Machine.Effect.keeps_suffix`, `Machine.Effect.leaving` — a return address stays on the stack
  until a return uses it.
* `Intact.exists_leaving` — the same along a run.
* `Machine.SteppedOver`, `Machine.SteppedOut` — what the two operations have done.
* `steps_over_and_out` — when they pause, they have done this.
-/

set_option autoImplicit false
namespace KarelRobot

open Assembly Machine Relation

namespace Machine

/-! ## Ways from one machine to another -/

/-- A machine with the property `P` goes on by one instruction. -/
def GoesOn (p : Program) (P : Machine → Prop) (m m' : Machine) : Prop :=
  P m ∧ m.step p = (m', .paused)

/-- Instructions at which no debugger stops lead from one machine to the other. -/
def Silently (p : Program) : Machine → Machine → Prop :=
  ReflTransGen (GoesOn p fun m => ¬ p.Pauses m.pc)

/-- Instructions lead from one machine to the other, each of them while at least `depth` calls have
not returned. -/
def Inside (p : Program) (depth : Nat) : Machine → Machine → Prop :=
  ReflTransGen (GoesOn p fun m => depth ≤ m.callDepth)

theorem goesOn_mono {p : Program} {P Q : Machine → Prop} (hPQ : ∀ m, P m → Q m) {m m' : Machine}
    (h : ReflTransGen (GoesOn p P) m m') : ReflTransGen (GoesOn p Q) m m' :=
  ReflTransGen.mono (fun _ _ hstep => ⟨hPQ _ hstep.1, hstep.2⟩) _ _ h

section Operations

variable {p : Program} {m m' : Machine} {limit looks : Nat}

/-- Silent instructions end where a debugger stops. -/
theorem silently_of_runSilently (h : m.runSilently p limit = some (m', .paused)) :
    m.Silently p m' ∧ p.Pauses m'.pc := by
  induction limit generalizing m with
  | zero => cases h
  | succ limit ih =>
    rw [runSilently] at h
    split at h
    · cases h
    · split at h
      · cases h
      next i hi =>
        split at h
        next hpauses =>
          cases h
          exact ⟨.refl, i, hi, hpauses⟩
        next hsilent =>
          have hstays : ¬ p.Pauses m.pc := by
            rintro ⟨j, hj, hjpauses⟩
            rw [current?, hj] at hi
            cases hi
            exact hsilent hjpauses
          split at h
          next next hnext =>
            obtain ⟨hsilently, hpauses⟩ := ih h
            exact ⟨.head ⟨hstays, hnext⟩ hsilently, hpauses⟩
          next stopped hstopped => exact absurd (Option.some_inj.1 h) (hstopped m')

/-- A hidden step executes one instruction at which a debugger stops. -/
theorem exists_of_stepHidden (h : m.stepHidden p limit = some (m', .paused)) :
    ∃ ready next, m.Silently p ready ∧ p.Pauses ready.pc ∧ ready.step p = (next, .paused) ∧
      next.Silently p m' := by
  rw [stepHidden] at h
  split at h
  next ready hready =>
    obtain ⟨hsilently, hpauses⟩ := silently_of_runSilently hready
    split at h
    next next hnext =>
      exact ⟨ready, next, hsilently, hpauses, hnext, (silently_of_runSilently h).1⟩
    next stopped hstopped => exact absurd (Option.some_inj.1 h) (hstopped m')
  next stopped hstopped => exact absurd h (hstopped m')

/-- Going on until the calls are no deeper than `depth`. -/
theorem exists_of_runToDepth {depth : Int} (h : m.runToDepth p depth looks = (m', .paused)) :
    ReflTransGen (GoesOn p fun m => depth < m.callDepth) m m' ∧ (m'.callDepth : Int) ≤ depth := by
  induction looks generalizing m with
  | zero =>
    rw [runToDepth] at h
    split at h
    · cases h
    next hdepth =>
      cases h
      exact ⟨.refl, by omega⟩
  | succ looks ih =>
    rw [runToDepth] at h
    split at h
    next hdepth =>
      split at h
      next next hnext =>
        obtain ⟨hruns, hlow⟩ := ih h
        exact ⟨.head ⟨hdepth, hnext⟩ hruns, hlow⟩
      next stopped hstopped => exact absurd h (hstopped m')
    next hdepth =>
      cases h
      exact ⟨.refl, by omega⟩

theorem exists_of_stepToDepth {depth : Int}
    (h : m.stepToDepth p limit looks depth = some (m', .paused)) :
    ∃ ready next after, m.Silently p ready ∧ p.Pauses ready.pc ∧
      ready.step p = (next, .paused) ∧ next.Silently p after ∧
      ReflTransGen (GoesOn p fun m => depth < m.callDepth) after m' ∧
      (m'.callDepth : Int) ≤ depth := by
  rw [stepToDepth] at h
  split at h
  next after hafter =>
    obtain ⟨ready, next, hsilently, hpauses, hstep, hsilently'⟩ := exists_of_stepHidden hafter
    obtain ⟨hruns, hlow⟩ := exists_of_runToDepth (Option.some_inj.1 h)
    exact ⟨ready, next, after, hsilently, hpauses, hstep, hsilently', hruns, hlow⟩
  next stopped hstopped => exact absurd h (hstopped m')

end Operations

/-! ## What lies below a return address -/

section Suffixes

variable {p : Program} {m m' : Machine} {address : UInt16} {below : List Value}

/-- What is popped above a return address leaves it on the stack. -/
theorem suffix_of_popped {popped kept stack : List Value} (hstack : stack = popped ++ kept)
    (hpopped : ∀ value ∈ popped, value.isReturnAddress = false)
    (hsuffix : .returnAddress address :: below <:+ stack) :
    .returnAddress address :: below <:+ kept := by
  obtain ⟨upper, hupper⟩ := hsuffix
  rw [hstack] at hupper
  rcases List.append_eq_append_iff.1 hupper with ⟨lower, rfl, hlower⟩ | ⟨lower, -, hlower⟩
  · cases lower with
    | nil =>
      rw [List.nil_append] at hlower
      exact hlower ▸ List.suffix_refl _
    | cons value lower =>
      cases hlower
      have hfalse := hpopped (.returnAddress address) (by simp)
      cases hfalse
  · exact ⟨lower, hlower.symm⟩

/-- Commands that are dropped above a return address leave it on the stack. -/
theorem suffix_dropWhile {stack : List Value}
    (hsuffix : .returnAddress address :: below <:+ stack) :
    .returnAddress address :: below <:+ stack.dropWhile Value.isCommand :=
  suffix_of_popped (List.takeWhile_append_dropWhile (p := Value.isCommand)).symm
    (fun _ => Value.isReturnAddress_of_mem_takeWhile) hsuffix

/-- **As long as the calls stay as deep as there are return addresses in a part of the stack, that
part stays where it is.** -/
theorem Effect.keeps_suffix (h : Effect p m (m', .paused))
    (hsuffix : .returnAddress address :: below <:+ m.stack)
    (hcount : m.callDepth = returnCount m.stack)
    (hdepth : returnCount (.returnAddress address :: below) ≤ m'.callDepth) :
    .returnAddress address :: below <:+ m'.stack := by
  cases h with
  | acts => exact hsuffix
  | computes _ _ popped pushed hstack hpopped =>
    exact (suffix_of_popped hstack hpopped hsuffix).trans (List.suffix_append _ _)
  | enters => exact hsuffix.trans (List.suffix_cons _ _)
  | @leaves site caller stack hexecutes hstack =>
    rw [hstack] at hsuffix hcount
    rcases List.suffix_cons_iff.1 hsuffix with heq | hsuffix
    · rw [heq, ← hcount] at hdepth
      have hpos : 0 < m.callDepth := by rw [hcount, returnCount_cons]; exact Nat.succ_pos _
      exact absurd hdepth (Nat.not_le.2 (Nat.sub_lt hpos Nat.one_pos))
    · exact suffix_dropWhile hsuffix

/-- **The calls get less deep than that only by returning there.** -/
theorem Effect.leaving (h : Effect p m (m', .paused))
    (hsuffix : .returnAddress address :: below <:+ m.stack)
    (hcount : m.callDepth = returnCount m.stack)
    (hdepth : returnCount (.returnAddress address :: below) ≤ m.callDepth)
    (hlow : m'.callDepth < returnCount (.returnAddress address :: below)) :
    m.stack = .returnAddress address :: below ∧ (∃ site, m.Executes p site .ret) ∧
      m'.pc = address.toNat + 1 ∧ m'.stack = below.dropWhile Value.isCommand ∧
      m'.callDepth = returnCount below := by
  cases h with
  | acts | computes => exact absurd hdepth (Nat.not_le.2 hlow)
  | enters => exact absurd hdepth (Nat.not_le.2 (Nat.lt_of_succ_lt hlow))
  | @leaves site caller stack hexecutes hstack =>
    rw [hstack] at hsuffix hcount
    rcases List.suffix_cons_iff.1 hsuffix with heq | hsuffix
    · cases heq
      rw [returnCount_cons] at hcount
      exact ⟨hstack, ⟨site, hexecutes⟩, rfl, rfl, Nat.sub_eq_of_eq_add hcount⟩
    · -- below another return address the calls stay deep enough
      have hle := returnCount_le_of_suffix hsuffix
      rw [returnCount_cons] at hcount
      have hlow : m.callDepth - 1 < returnCount (.returnAddress address :: below) := hlow
      omega

end Suffixes
end Machine

/-! ## Compiled programs -/

section Compiled

variable {script : Script} {main : Command} {p : Program} {commands : List Command}
  {m m' : Machine}

theorem Intact.callDepth_eq (h : Intact p commands main m) :
    m.callDepth = returnCount m.stack := by
  obtain ⟨-, top, callers, booleans, pushed, hframed⟩ := h
  exact hframed.returnCount_stack

theorem Intact.next (hcompiles : script.Compiles main p)
    (h : Intact p (script.reachable main.name) main m) (hstep : m.step p = (m', .paused)) :
    Intact p (script.reachable main.name) main m' := by
  have hnext := (h.step hcompiles).1
  rw [hstep] at hnext
  exact hnext

theorem Machine.Executes.unique {site site' : Instruction} {op op' : Op} (h : m.Executes p site op)
    (h' : m.Executes p site' op') : op = op' := by
  obtain rfl := Option.some_inj.1 (h.current.symm.trans h'.current)
  exact Option.some_inj.1 (h.op.symm.trans h'.op)

/-- What is executed without a stop is nothing that a debugger stops at. -/
theorem Intact.pause_of_silent (hcompiles : script.Compiles main p)
    (h : Intact p (script.reachable main.name) main m) (hsilent : ¬ p.Pauses m.pc)
    {site : Instruction} {op : Op} (hexecutes : m.Executes p site op) : op.pause = .never := by
  obtain ⟨-, top, callers, booleans, pushed, hframed⟩ := h
  obtain ⟨op', ⟨position, hget⟩, hfits, -⟩ :=
    hcompiles.sound (hframed.active.mem hcompiles) hframed.shape
  rw [← hframed.site] at hget
  obtain rfl := hexecutes.unique ⟨hexecutes.finished, hget, Instruction.op?_ofOp hfits position⟩
  by_contra hpause
  exact hsilent ⟨_, hget, (Instruction.pauses_ofOp hfits position).2 hpause⟩

/-- Without a stop no command is entered or left. -/
theorem Intact.callDepth_of_silent (hcompiles : script.Compiles main p)
    (h : Intact p (script.reachable main.name) main m)
    (hstep : GoesOn p (fun m => ¬ p.Pauses m.pc) m m') : m'.callDepth = m.callDepth := by
  obtain ⟨hsilent, hstep⟩ := hstep
  cases effect_of_step hstep with
  | computes => rfl
  | acts hexecutes hperforms =>
    have hpause := h.pause_of_silent hcompiles hsilent hexecutes
    cases hperforms <;> cases hpause
  | enters hexecutes hcalls =>
    have hpause := h.pause_of_silent hcompiles hsilent hexecutes
    cases hcalls <;> cases hpause
  | leaves hexecutes =>
    have hpause := h.pause_of_silent hcompiles hsilent hexecutes
    cases hpause

theorem Intact.silently (hcompiles : script.Compiles main p)
    (h : Intact p (script.reachable main.name) main m) (hsilently : m.Silently p m') :
    Intact p (script.reachable main.name) main m' ∧ m'.callDepth = m.callDepth ∧
      m.Inside p m.callDepth m' := by
  induction hsilently with
  | refl => exact ⟨h, rfl, .refl⟩
  | tail _ hstep ih =>
    obtain ⟨hintact, hdepth, hinside⟩ := ih
    have hkept := hintact.callDepth_of_silent hcompiles hstep
    exact ⟨hintact.next hcompiles hstep.2, hkept.trans hdepth,
      hinside.tail ⟨Nat.le_of_eq hdepth.symm, hstep.2⟩⟩

/-- As long as the calls stay deep enough, a return address stays on the stack. -/
theorem Intact.keeps_suffix (hcompiles : script.Compiles main p)
    (h : Intact p (script.reachable main.name) main m) {address : UInt16} {below : List Value}
    (hsuffix : .returnAddress address :: below <:+ m.stack)
    (hinside : m.Inside p (returnCount (.returnAddress address :: below)) m')
    (hdepth : returnCount (.returnAddress address :: below) ≤ m'.callDepth) :
    Intact p (script.reachable main.name) main m' ∧
      .returnAddress address :: below <:+ m'.stack := by
  induction hinside with
  | refl => exact ⟨h, hsuffix⟩
  | tail _ hstep ih =>
    obtain ⟨hintact, hkept⟩ := ih hstep.1
    exact ⟨hintact.next hcompiles hstep.2,
      (effect_of_step hstep.2).keeps_suffix hkept hintact.callDepth_eq hdepth⟩

/-- **A run that leads out of a command ends with the return from it.**  The return address is the
one that was on the stack when the run started, and so is what lies below it. -/
theorem Intact.exists_leaving (hcompiles : script.Compiles main p)
    (h : Intact p (script.reachable main.name) main m) {address : UInt16} {below : List Value}
    (hsuffix : .returnAddress address :: below <:+ m.stack)
    (hinside : m.Inside p (returnCount (.returnAddress address :: below)) m')
    (hlow : m'.callDepth < returnCount (.returnAddress address :: below)) :
    ∃ leaving, m.Inside p (returnCount (.returnAddress address :: below)) leaving ∧
      leaving.stack = .returnAddress address :: below ∧
      leaving.callDepth = returnCount (.returnAddress address :: below) ∧
      (∃ site, leaving.Executes p site .ret) ∧ leaving.step p = (m', .paused) ∧
      m'.pc = address.toNat + 1 ∧ m'.stack = below.dropWhile Value.isCommand ∧
      m'.callDepth = returnCount below := by
  rcases ReflTransGen.cases_tail hinside with rfl | ⟨leaving, hbefore, hdepth, hstep⟩
  · have hle := returnCount_le_of_suffix hsuffix
    rw [h.callDepth_eq] at hlow
    exact absurd hle (Nat.not_le.2 hlow)
  · obtain ⟨hintact, hkept⟩ := h.keeps_suffix hcompiles hsuffix hbefore hdepth
    obtain ⟨hstack, hexecutes, hpc, hstack', hdepth'⟩ :=
      (effect_of_step hstep).leaving hkept hintact.callDepth_eq hdepth hlow
    exact ⟨leaving, hbefore, hstack, by rw [hintact.callDepth_eq, hstack], hexecutes, hstep, hpc,
      hstack', hdepth'⟩

/-- Where a command is entered, what is passed to it lies on top of the stack. -/
theorem Moves.exists_arguments {top f : Frame} {callers following : List Frame}
    {booleans values : List Bool} {pushed words : List UInt16} {r : Machine × Outcome}
    (h : Moves script p commands m top callers booleans pushed f following values words r)
    (hdepth : m.callDepth = callers.length) (hdeeper : r.1.callDepth = m.callDepth + 1) :
    ∃ d ∈ commands, r.1.pc = address commands d.name ∧ booleans = [] ∧
      pushed.length = d.parameters.length := by
  cases h with
  | goesOn | fails | finishes =>
    simp only [running] at hdeeper
    omega
  | calls hd _ _ hlength hbooleans => exact ⟨_, hd, rfl, hbooleans, hlength⟩
  | callsPassed hd _ _ _ hparameters hbooleans hpushed =>
    exact ⟨_, hd, rfl, hbooleans, by simp [hpushed, hparameters]⟩
  | leaves hcallers =>
    rw [hcallers, List.length_cons] at hdepth
    simp only [running] at hdeeper
    omega

/-- **A machine that enters a command** pushes the address of the call, and the arguments of the
command lie below it. -/
theorem Intact.entering (hcompiles : script.Compiles main p)
    (h : Intact p (script.reachable main.name) main m) (hstep : m.step p = (m', .paused))
    (hdeeper : m'.callDepth = m.callDepth + 1) :
    m'.stack = .returnAddress (operand m.pc) :: m.stack ∧ (operand m.pc).toNat = m.pc ∧
      ∃ callee ∈ script.reachable main.name,
        m'.pc = address (script.reachable main.name) callee.name ∧
        ∃ arguments : List UInt16, arguments.length = callee.parameters.length ∧
          m.stack = arguments.map .command ++ m.stack.dropWhile Value.isCommand := by
  obtain ⟨hgrid, top, callers, booleans, pushed, hframed⟩ := h
  have hstack : m'.stack = .returnAddress (operand m.pc) :: m.stack := by
    cases effect_of_step hstep with
    | acts | computes => exact absurd hdeeper (Nat.ne_of_lt (Nat.lt_succ_self _))
    | enters => rfl
    | leaves => exact absurd hdeeper (Nat.ne_of_lt (Nat.lt_succ_of_le (Nat.sub_le _ _)))
  have hfinished := (exists_get?_of_step hstep).1
  obtain ⟨f, following, values, words, hmoves⟩ := hframed.exists_moves hcompiles hgrid hfinished
  rw [hstep] at hmoves
  obtain ⟨callee, hcallee, hpc, rfl, hlength⟩ := hmoves.exists_arguments hframed.depth hdeeper
  have hbound := hcompiles.at_lt (hframed.active.mem hcompiles) hframed.shape
  refine ⟨hstack, toNat_operand (hframed.site ▸ hbound), callee, hcallee, hpc, pushed, hlength, ?_⟩
  rw [hframed.stack, List.map_nil, List.nil_append, dropWhile_commands, top.settled]

end Compiled

/-! ## Stepping over and out -/

/-- The instruction calls a command: by its name, or through a parameter and not a built-in one. -/
def Op.Enters (m m' : Machine) : Op → Prop
  | .call _ => True
  | .callParameter _ => m'.callDepth = m.callDepth + 1
  | _ => False

namespace Machine

/-- What stepping over has done on the way from `m` to `m'` in the program of some commands.  The
first instruction at which a debugger stops is executed at the machine `ready`. -/
structure SteppedOver (p : Program) (commands : List Command) (m m' : Machine) : Prop where
  depth_le : m'.callDepth ≤ m.callDepth
  /-- If the first instruction enters a command, that command has been left behind it. -/
  passed : ∃ ready next, m.Silently p ready ∧ p.Pauses ready.pc ∧ ready.step p = (next, .paused) ∧
    ∀ site op, ready.Executes p site op → op.Enters ready next →
      m'.pc = ready.pc + 1 ∧ m'.callDepth = m.callDepth ∧
        ∃ callee ∈ commands, next.pc = address commands callee.name ∧
          ∃ arguments : List UInt16, arguments.length = callee.parameters.length ∧
            ready.stack = arguments.map .command ++ m'.stack

/-- What stepping out has done on the way from `m` to `m'`.  The topmost command is left at the
machine `leaving`, through the return address that was the topmost one before. -/
structure SteppedOut (p : Program) (m m' : Machine) : Prop where
  called : 1 ≤ m.callDepth
  depth_eq : m'.callDepth = m.callDepth - 1
  /-- Until the command is left the calls have been as deep as before, and after that no debugger
  has had to stop. -/
  left : ∃ leaving next, m.Inside p m.callDepth leaving ∧ leaving.callDepth = m.callDepth ∧
    leaving.stack = frame m.stack ∧ (∃ site, leaving.Executes p site .ret) ∧
    leaving.step p = (next, .paused) ∧ next.Silently p m'

/-- The return address of the topmost command, if it was called. -/
theorem exists_frame {stack : List Value} (h : 0 < returnCount stack) :
    ∃ address below, frame stack = .returnAddress address :: below ∧
      returnCount stack = returnCount (.returnAddress address :: below) := by
  induction stack with
  | nil => exact absurd h (Nat.lt_irrefl 0)
  | cons value stack ih =>
    by_cases hvalue : value.isReturnAddress = true
    · cases value with
      | returnAddress address => exact ⟨address, stack, rfl, rfl⟩
      | loopCounter | boolean | command => cases hvalue
    · have hsame : returnCount (value :: stack) = returnCount stack :=
        returnCount_append (List.forall_mem_singleton.2 (Bool.eq_false_iff.2 hvalue)) stack
      rw [hsame] at h ⊢
      obtain ⟨address, below, hframe, hcount⟩ := ih h
      refine ⟨address, below, ?_, hcount⟩
      rw [frame, List.dropWhile_cons_of_pos (by simpa using hvalue)]
      exact hframe

end Machine

section Operations

variable {script : Script} {main : Command} {p : Program} {m m' : Machine} {limit looks : Nat}

/-- A call in the program text or of a user command through a parameter makes the calls deeper. -/
theorem Op.Enters.deeper {site : Instruction} {op : Op} (hexecutes : m.Executes p site op)
    (hstep : m.step p = (m', .paused)) (h : op.Enters m m') :
    m'.callDepth = m.callDepth + 1 := by
  cases op with
  | call target =>
    cases effect_of_step hstep with
    | acts hacts hperforms => cases hacts.unique hexecutes; cases hperforms
    | computes hcomputes hinternal => cases hcomputes.unique hexecutes; cases hinternal
    | enters => rfl
    | leaves hleaves => cases hleaves.unique hexecutes
  | callParameter => exact h
  | _ => cases h

/-- **A step over a call ends behind the call.** -/
theorem Intact.steppedOver (hcompiles : script.Compiles main p)
    (h : Intact p (script.reachable main.name) main m)
    (hover : m.stepOver p limit looks = some (m', .paused)) :
    m.SteppedOver p (script.reachable main.name) m' := by
  obtain ⟨ready, next, after, hsilently, hpauses, hstep, hsilently', hruns, hlow⟩ :=
    exists_of_stepToDepth hover
  have hle : m'.callDepth ≤ m.callDepth := Int.ofNat_le.1 hlow
  refine ⟨hle, ready, next, hsilently, hpauses, hstep, fun site op hexecutes henters => ?_⟩
  obtain ⟨hready, hdepth, -⟩ := h.silently hcompiles hsilently
  have hdeeper := henters.deeper hexecutes hstep
  obtain ⟨hstack, hpc, callee, hcallee, htarget, arguments, hlength, hsplit⟩ :=
    hready.entering hcompiles hstep hdeeper
  have hnext := hready.next hcompiles hstep
  have hcount : next.callDepth = returnCount (.returnAddress (operand ready.pc) :: ready.stack) :=
    hstack ▸ hnext.callDepth_eq
  -- from the entered command on, the calls stay deeper than before until the last instruction
  have hinside : next.Inside p next.callDepth m' := by
    refine (hnext.silently hcompiles hsilently').2.2.trans (goesOn_mono (fun a ha => ?_) hruns)
    omega
  rw [hcount] at hinside
  obtain ⟨-, -, -, -, -, -, hpc', hstack', hdepth'⟩ :=
    hnext.exists_leaving hcompiles (hstack ▸ List.suffix_refl _) hinside (by omega)
  refine ⟨by rw [hpc', hpc], ?_, callee, hcallee, htarget, arguments, hlength, hstack' ▸ hsplit⟩
  rw [hdepth', ← hready.callDepth_eq, hdepth]

/-- **Stepping out leaves the topmost command**, and nothing else is executed after that but what
leads to the next stop. -/
theorem Intact.steppedOut (hcompiles : script.Compiles main p)
    (h : Intact p (script.reachable main.name) main m)
    (hout : m.stepReturn p limit looks = some (m', .paused)) : m.SteppedOut p m' := by
  obtain ⟨ready, next, after, hsilently, -, hstep, hsilently', hruns, hlow⟩ :=
    exists_of_stepToDepth hout
  have hcalled : 1 ≤ m.callDepth := by omega
  obtain ⟨hready, hdepth, hinside⟩ := h.silently hcompiles hsilently
  have hnext := hready.next hcompiles hstep
  obtain ⟨-, hafter, hinside'⟩ := hnext.silently hcompiles hsilently'
  have htail : m.Inside p m.callDepth next := hinside.tail ⟨Nat.le_of_eq hdepth.symm, hstep⟩
  -- the command is left by the instruction worth a stop, or by one of those behind it
  have hleft : ∃ behind, m.Inside p m.callDepth behind ∧ behind.callDepth < m.callDepth ∧
      behind.Silently p m' ∧ m'.callDepth = behind.callDepth := by
    by_cases hlow' : next.callDepth < m.callDepth
    · obtain rfl : after = m' := by
        rcases ReflTransGen.cases_head hruns with heq | ⟨b, hgoes, -⟩
        · exact heq
        · have hdeep := hgoes.1
          omega
      exact ⟨next, htail, hlow', hsilently', hafter⟩
    · have hhidden : next.Inside p m.callDepth after :=
        goesOn_mono (fun a ha => (Nat.le_of_not_lt hlow').trans ha) hinside'
      have hrest : after.Inside p m.callDepth m' := goesOn_mono (fun a ha => by omega) hruns
      exact ⟨m', (htail.trans hhidden).trans hrest, by omega, .refl, rfl⟩
  obtain ⟨behind, hinside, hlow', hsilently, hsame⟩ := hleft
  obtain ⟨address, below, hframe, hcount⟩ := exists_frame (h.callDepth_eq ▸ hcalled)
  have hsuffix : .returnAddress address :: below <:+ m.stack :=
    hframe ▸ List.dropWhile_suffix _
  rw [← h.callDepth_eq] at hcount
  rw [hcount] at hinside hlow'
  obtain ⟨leaving, hinside, hstack, hdepth, hexecutes, hstep, -, -, hdepth'⟩ :=
    h.exists_leaving hcompiles hsuffix hinside hlow'
  refine ⟨hcalled, ?_, leaving, behind, hcount ▸ hinside, hcount ▸ hdepth, hframe ▸ hstack,
    hexecutes, hstep, hsilently⟩
  rw [hsame, hdepth', hcount, returnCount_cons, Nat.add_sub_cancel]

end Operations

/-- **Stepping over and out of commands.**  When stepping over pauses, the calls are no deeper than
before, and a command that was entered by the first instruction worth a stop is over: the machine
is behind that instruction, and its stack is the one before it without the arguments of the
command.  When stepping out pauses, the command that was the topmost one has returned, and after
that only instructions that are not worth a stop have been executed.  Outside of all calls it never
pauses. -/
theorem steps_over_and_out {source : String} {entry : Option String} {level : Level} {p : Program}
    (h : compile source entry level = .ok p) {m : Machine} (hm : Session p m) :
    ∃ script main, Script.parse source = .ok script ∧
      script.find? (entry.getD script.defaultEntry) = some main ∧
      ∀ limit looks m',
        (m.stepOver p limit looks = some (m', .paused) →
          m.SteppedOver p (script.reachable main.name) m') ∧
        (m.stepReturn p limit looks = some (m', .paused) → m.SteppedOut p m') ∧
        (m.callDepth = 0 → m.stepReturn p limit looks ≠ some (m', .paused)) := by
  obtain ⟨script, main, hparse, hfind, hcompiles, -⟩ := compiles_of_compile h
  have hintact := hm.intact hcompiles
  refine ⟨script, main, hparse, hfind, fun limit looks m' => ⟨hintact.steppedOver hcompiles,
    hintact.steppedOut hcompiles, fun hzero hout => ?_⟩⟩
  have hcalled := (hintact.steppedOut hcompiles hout).called
  omega

/-- The machine after two instructions.  In `encore` these are the argument and the call of
`twice`. -/
def insideTwice (p : Program) : Machine :=
  (Machine.start .start).after p 2

theorem session_insideTwice (p : Program) : Session p (insideTwice p) :=
  ((Session.start World.onGrid_start).operate (.stepInto 0 true) rfl).operate (.stepInto 0 true) rfl

/-- From there one step goes over a command that is called through a parameter, and the other one
out of `twice`. -/
theorem steps_over_and_out_encore :
    ∃ p m beyond outside, compile encore none .basics = .ok p ∧ Session p m ∧ m.callDepth = 1 ∧
      m.stepOver p 9 99 = some (beyond, .paused) ∧
      m.stepReturn p 9 99 = some (outside, .paused) ∧
      ∃ script main, Script.parse encore = .ok script ∧
        script.find? (none.getD script.defaultEntry) = some main ∧
        m.SteppedOver p (script.reachable main.name) beyond ∧ m.SteppedOut p outside := by
  obtain ⟨p, hp, hpaused⟩ := exists_ok_of_any (x := compile encore none .basics)
    (f := fun p => (insideTwice p).callDepth == 1 &&
      (((insideTwice p).stepOver p 9 99).map Prod.snd == some .paused &&
        ((insideTwice p).stepReturn p 9 99).map Prod.snd == some .paused)) (by decide +kernel)
  simp only [Bool.and_eq_true, beq_iff_eq, Option.map_eq_some_iff] at hpaused
  obtain ⟨hdepth, ⟨⟨beyond, -⟩, hover, rfl⟩, ⟨outside, -⟩, hout, rfl⟩ := hpaused
  obtain ⟨script, main, hparse, hmain, hsteps⟩ := steps_over_and_out hp (session_insideTwice p)
  exact ⟨p, _, beyond, outside, hp, session_insideTwice p, hdepth, hover, hout, script, main,
    hparse, hmain, (hsteps 9 99 beyond).1 hover, (hsteps 9 99 outside).2.1 hout⟩

end KarelRobot
