import KarelRobot.Proofs.Effects
import KarelRobot.Proofs.Stepping

/-!
# What a failure leaves behind

An instruction that fails has not moved the machine: it still stands in front of the same
instruction, at the same depth and in the same world.  At most it has popped values that turned out
to be of the wrong kind.  What the world does not allow is refused before anything is popped, so the
debugger may try again as often as it likes, and goes on as if nothing had happened once the world
has been exchanged for one that allows it.

* `Machine.Stalls` — what a failure leaves of a machine.
* `Machine.Effect.stalls` — every failing instruction leaves that.
* `Machine.Executes.step_of_performs` — an instruction carries its action out, whatever the world.
* `Machine.Waits` — a machine in front of an action that its world refuses.
* `failures_leave_machine` — both, for any program and any machine.
-/

set_option autoImplicit false
namespace KarelRobot
namespace Machine

variable {p : Program} {m m' : Machine} {fault : Fault}

/-! ## Failing instructions -/

/-- What a failure leaves of the machine `m`. -/
structure Stalls (m m' : Machine) (fault : Fault) : Prop where
  pc : m'.pc = m.pc
  callDepth : m'.callDepth = m.callDepth
  finished : m'.finished = m.finished
  world : m'.world = m.world
  /-- Nothing is pushed, and what is popped is lost from the top. -/
  suffix : m'.stack <:+ m.stack
  stack : (∀ pc, fault ≠ .stackUnderflow pc) → m'.stack = m.stack
  /-- The debugger is told nothing unless a value was missing. -/
  events : (∀ pc, fault ≠ .stackUnderflow pc) → m'.events = m.events

/-- A failure that leaves everything as it was. -/
theorem Stalls.refl (m : Machine) (fault : Fault) : m.Stalls m fault :=
  ⟨rfl, rfl, rfl, rfl, List.suffix_refl _, fun _ => rfl, fun _ => rfl⟩

/-- **A failing instruction leaves the machine where it was.** -/
theorem Effect.stalls (h : Effect p m (m', .failed fault)) : m.Stalls m' fault := by
  cases h with
  | refused | fails => exact .refl m _
  | underflows hstack =>
    exact ⟨rfl, rfl, rfl, rfl, hstack, fun hne => absurd rfl (hne m.pc),
      fun hne => absurd rfl (hne m.pc)⟩

/-- A fault of the world comes from an action, and it has changed nothing. -/
theorem Effect.refused_of_world {reason : World.Fault}
    (h : Effect p m (m', .failed (.world reason))) (hgrid : m.world.robot.OnGrid) :
    m' = m ∧ ∃ site op which, m.Executes p site op ∧ m.Performs which op ∧
      m.world.perform which = .error reason := by
  cases h with
  | refused hexecutes hperforms hfault => exact ⟨rfl, _, _, _, hexecutes, hperforms, hfault⟩
  | fails _ hworld => exact absurd rfl (hworld hgrid reason)

/-! ## Trying again -/

/-- A machine that fails and stays as it is fails in the same way in every operation. -/
theorem stepHidden_of_failed (h : m.step p = (m, .failed fault)) {limit : Nat}
    {r : Machine × Outcome} (hr : m.stepHidden p limit = some r) : r = (m, .failed fault) := by
  have hfinished : ¬ m.finished = true := by
    intro hfinished
    rw [step, if_pos hfinished] at h
    cases h
  cases limit with
  | zero => cases hr
  | succ limit =>
    have hsilently : m.runSilently p (limit + 1) = some (m, .paused) ∨
        m.runSilently p (limit + 1) = some (m, .failed fault) := by
      rw [runSilently, if_neg hfinished]
      cases hcurrent : m.current? p with
      | none =>
        rw [step, if_neg hfinished, hcurrent] at h
        exact .inr (congrArg some h)
      | some site =>
        dsimp only
        split
        · exact .inl rfl
        · rw [h]
          exact .inr rfl
    rcases hsilently with hpaused | hfailed
    · rw [stepHidden, hpaused] at hr
      simp only [h] at hr
      exact (Option.some.inj hr).symm
    · rw [stepHidden, hfailed] at hr
      exact (Option.some.inj hr).symm

theorem apply_of_failed (h : m.step p = (m, .failed fault)) {operation : Operation}
    {r : Machine × Outcome} (hr : operation.apply p m = some r) : r = (m, .failed fault) := by
  have htoDepth {limit looks : Nat} {depth : Int}
      (hr : m.stepToDepth p limit looks depth = some r) : r = (m, .failed fault) := by
    rw [stepToDepth] at hr
    cases hhidden : m.stepHidden p limit with
    | none =>
      rw [hhidden] at hr
      cases hr
    | some result =>
      obtain rfl := stepHidden_of_failed h hhidden
      rw [hhidden] at hr
      exact (Option.some.inj hr).symm
  cases operation with
  | stepInto limit visible =>
    cases visible with
    | true => exact (Option.some.inj hr).symm.trans h
    | false => exact stepHidden_of_failed h hr
  | stepOver limit looks => exact htoDepth hr
  | stepReturn limit looks => exact htoDepth hr
  | run looks =>
    have hslice : m.runSlice p sliceSize = (m, .failed fault) :=
      runSlice_succ_of_stop h nofun _
    exact (Option.some.inj hr).symm.trans (run_of_stop hslice nofun looks)

/-- However often a debugger tries, it is told the same. -/
theorem results_of_failed (h : m.step p = (m, .failed fault)) {results : List (Machine × Outcome)}
    (hresults : Results p m results) : ∀ r ∈ results, r = (m, .failed fault) := by
  induction hresults with
  | nil => exact List.forall_mem_nil _
  | cons operation happly _ ih =>
    obtain rfl := apply_of_failed h happly
    exact List.forall_mem_cons.2 ⟨rfl, ih h⟩

/-! ## Going on in another world -/

/-- **An instruction that carries an action out does nothing else.** -/
theorem Executes.step_of_performs {site : Instruction} {op : Op} {which : Action}
    (h : m.Executes p site op) (hperforms : m.Performs which op) :
    m.step p = m.perform which := by
  rw [h.step_eq]
  cases hperforms with
  | direct => rfl
  | passed hargument => simp only [execute, hargument, callPassed, Action.ofOpcode?_opcode]

/-- The next instruction and the action it carries out have nothing to do with the world. -/
theorem Executes.step_in_world {site : Instruction} {op : Op} {which : Action}
    (h : m.Executes p site op) (hperforms : m.Performs which op) {w w' : World}
    (hw : w.perform which = .ok w') :
    { m with world := w }.step p = ({ m with world := w', pc := m.pc + 1 }, .paused) := by
  have hexecutes : { m with world := w }.Executes p site op := ⟨h.finished, h.current, h.op⟩
  have hperforms' : { m with world := w }.Performs which op := by
    cases hperforms with
    | direct => exact .direct
    | passed hargument => exact .passed hargument
  rw [hexecutes.step_of_performs hperforms', perform]
  simp only [hw]
  rfl

/-- The machine waits in front of an action that its world refuses. -/
structure Waits (p : Program) (m : Machine) (which : Action) (reason : World.Fault) : Prop where
  refused : m.world.perform which = .error reason
  onPlan : reason ≠ .offPlan
  /-- Executing the instruction again, any number of times, is refused again. -/
  again : ∀ count, m.after p count = m ∧
    (m.after p count).step p = (m, .failed (.world reason))
  /-- So is everything else that a debugger can do with the program. -/
  results : ∀ results, Results p m results → ∀ r ∈ results, r = (m, .failed (.world reason))
  /-- In a world that allows the action, after any number of attempts, the machine is the one that
  would have arrived here in that world, and it goes on behind the action. -/
  resumes : ∀ count w w', w.perform which = .ok w' →
    { m.after p count with world := w } = { m with world := w } ∧
      { m.after p count with world := w }.step p =
        ({ m with world := w', pc := m.pc + 1 }, .paused)

theorem Executes.waits {site : Instruction} {op : Op} {which : Action} {reason : World.Fault}
    (h : m.Executes p site op) (hperforms : m.Performs which op)
    (hfault : m.world.perform which = .error reason) (hgrid : m.world.robot.OnGrid) :
    m.Waits p which reason := by
  have hstep : m.step p = (m, .failed (.world reason)) := by
    rw [h.step_of_performs hperforms, perform]
    simp only [hfault]
    rfl
  have hafter : ∀ count, m.after p count = m := after_of_fixed (by rw [hstep])
  refine ⟨hfault, ?_, fun count => ⟨hafter count, by rw [hafter, hstep]⟩,
    fun results => results_of_failed hstep, fun count w w' hw => ?_⟩
  · rcases World.perform_cases hgrid which with ⟨w, hw, -⟩ | ⟨other, hother, hne⟩
    · cases hw.symm.trans hfault
    · cases hother.symm.trans hfault
      exact hne
  · rw [hafter]
    exact ⟨rfl, h.step_in_world hperforms hw⟩

end Machine

/-- **A failing instruction leaves the machine where it was.**  If it was the world that refused an
action, the machine waits in front of the action: it can be tried again, in this world or in
another. -/
theorem failures_leave_machine (p : Program) {m m' : Machine} {fault : Machine.Fault}
    (hgrid : m.world.robot.OnGrid) (h : m.step p = (m', .failed fault)) :
    m.Stalls m' fault ∧
      ∀ reason, fault = .world reason → m' = m ∧ ∃ which, m.Waits p which reason := by
  have heffect := Machine.effect_of_step h
  refine ⟨heffect.stalls, ?_⟩
  rintro reason rfl
  obtain ⟨rfl, site, op, which, hexecutes, hperforms, hfault⟩ := heffect.refused_of_world hgrid
  exact ⟨rfl, which, hexecutes.waits hperforms hfault hgrid⟩

/-- A command that is passed to another one, which calls it. -/
def delegation : Program :=
  .ofCode [.synthetic (.pass Action.moveForward.opcode), .synthetic (.call 259), .synthetic .ret,
    .synthetic (.callParameter 1), .synthetic .ret]

/-- The robot looks at the upper wall. -/
def cornered : World := World.start.withRobot ⟨0, 0⟩ .north

/-- The step that was passed on is refused in front of the wall, and taken where the robot looks
along it. -/
theorem failures_leave_machine_delegation :
    ∃ m m' : Machine, m = (Machine.start cornered).after delegation 2 ∧ m.pc = 259 ∧
      m.callDepth = 1 ∧ m.world.robot.OnGrid ∧
      m.step delegation = (m', .failed (.world .blockedByWall)) ∧
      m.Stalls m' (.world .blockedByWall) ∧ m' = m ∧
      ∃ which, m.Waits delegation which .blockedByWall ∧
        ∃ w, World.start.perform which = .ok w := by
  have hgrid : ((Machine.start cornered).after delegation 2).world.robot.OnGrid := by
    decide +kernel
  have hstep : ((Machine.start cornered).after delegation 2).step delegation =
      ((Machine.start cornered).after delegation 2, .failed (.world .blockedByWall)) := by
    decide +kernel
  obtain ⟨hstalls, hwaits⟩ := failures_leave_machine delegation hgrid hstep
  obtain ⟨hsame, which, hwhich⟩ := hwaits _ rfl
  refine ⟨_, _, rfl, by decide +kernel, by decide +kernel, hgrid, hstep, hstalls, hsame, which,
    hwhich, ?_⟩
  have hworld : ((Machine.start cornered).after delegation 2).world = cornered := by
    decide +kernel
  have hrefused := hwhich.refused
  rw [hworld] at hrefused
  cases which with
  | moveForward | turnLeft | turnAround | turnRight | dropBeeper => exact ⟨_, rfl⟩
  -- there is no beeper to pick in the empty room, but that is no matter of walls
  | pickBeeper => cases hrefused

end KarelRobot
