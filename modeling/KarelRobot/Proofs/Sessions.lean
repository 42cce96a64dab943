import KarelRobot.Proofs.Execution

/-!
# Sessions of a debugger

A debugger starts a machine and then operates it as it likes: it steps, runs, goes on after a
failure or when the time was up, and exchanges the world in between.  Whatever single instructions
keep, a whole session keeps.

* `Operation`, `Operation.apply` — what a debugger can do, with the limits it does it under.
* `Session` — the machines that a session can lead to.
* `Operated`, `Operation.operated` — operations are made of single instructions.
* `Kept` — single instructions keep a property and have outcomes of a kind.
* `Kept.apply`, `Session.kept` — then so do the operations, and a whole session.
-/

set_option autoImplicit false
namespace KarelRobot

open Machine

/-- An operation of a debugger.  How long silent instructions take and how often the clock is looked
at is up to its surroundings. -/
inductive Operation where
  | stepInto (limit : Nat) (visible : Bool)
  | stepOver (limit looks : Nat)
  | stepReturn (limit looks : Nat)
  | run (looks : Nat)
deriving Repr, DecidableEq

/-- What an operation does, if it comes to an end. -/
def Operation.apply (p : Program) (m : Machine) : Operation → Option (Machine × Outcome)
  | stepInto limit visible => m.stepInto p limit visible
  | stepOver limit looks => m.stepOver p limit looks
  | stepReturn limit looks => m.stepReturn p limit looks
  | run looks => some (m.run p looks)

/-- The machines that a session with a program leads to, on worlds with the robot on the grid. -/
inductive Session (p : Program) : Machine → Prop
  | start {w : World} (hgrid : w.robot.OnGrid) : Session p (Machine.start w)
  /-- It does not matter how an operation ends. -/
  | operate {m m' : Machine} {outcome : Outcome} (h : Session p m) (operation : Operation)
      (happly : operation.apply p m = some (m', outcome)) : Session p m'
  | replace {m : Machine} {w : World} (h : Session p m) (hgrid : w.robot.OnGrid) :
      Session p { m with world := w }

/-! ## Operations and single instructions -/

/-- How the result of an operation relates to single instructions: all of them went on, or the last
one stopped the machine, or the time was up. -/
inductive Operated (p : Program) (m : Machine) : Machine × Outcome → Prop
  | paused {m' : Machine} (h : Reaches p m m') : Operated p m (m', .paused)
  | stopped {m' : Machine} {outcome : Outcome} (h : Stops p m m' outcome) :
      Operated p m (m', outcome)
  | gaveUp {m' : Machine} (h : Reaches p m m') : Operated p m (m'.giveUp p)

section Operations

variable {p : Program} {m m' : Machine} {r : Machine × Outcome}

theorem Machine.Reaches.operated (h : Reaches p m m') (h' : Operated p m' r) : Operated p m r := by
  cases h' with
  | paused hreaches => exact .paused (h.trans hreaches)
  | stopped hstops => exact .stopped (h.stops hstops)
  | gaveUp hreaches => exact .gaveUp (h.trans hreaches)

/-- A slice goes on, or it stops. -/
theorem operated_runSlice (p : Program) (count : Nat) (m : Machine) :
    Operated p m (m.runSlice p count) := by
  rcases hslice : m.runSlice p count with ⟨m', outcome⟩
  by_cases hpaused : outcome = .paused
  · subst hpaused
    exact .paused ⟨count, hslice⟩
  · exact .stopped ⟨hpaused, count, hslice⟩

theorem operated_step (p : Program) (m : Machine) : Operated p m (m.step p) := by
  rcases hstep : m.step p with ⟨m', outcome⟩
  by_cases hpaused : outcome = .paused
  · subst hpaused
    exact .paused (.of_step hstep)
  · exact .stopped (.of_step hstep hpaused)

theorem operated_runSilently {limit : Nat} (h : m.runSilently p limit = some r) :
    Operated p m r := by
  induction limit generalizing m with
  | zero => cases h
  | succ limit ih =>
    have hstep := operated_step p m
    unfold runSilently at h
    split at h
    next hfinished =>
      rw [step, if_pos hfinished] at hstep
      cases h
      exact hstep
    next hfinished =>
      split at h
      next hnone =>
        -- executing an instruction that is not there is what a single step would do
        rw [step, if_neg hfinished, hnone] at hstep
        cases h
        exact hstep
      next i hi =>
        split at h
        · cases h
          exact .paused (.refl m)
        · split at h
          next next hnext => exact (Reaches.of_step hnext).operated (ih h)
          · cases h
            exact hstep

theorem operated_stepHidden {limit : Nat} (h : m.stepHidden p limit = some r) :
    Operated p m r := by
  unfold stepHidden at h
  split at h
  next ready hready =>
    cases operated_runSilently hready with
    | stopped hstops => exact absurd rfl hstops.1
    | paused hreaches =>
      refine hreaches.operated ?_
      split at h
      next next hnext => exact (Reaches.of_step hnext).operated (operated_runSilently h)
      · cases h
        exact operated_step p ready
  · exact operated_runSilently h

theorem operated_runToDepth (p : Program) (depth : Int) (looks : Nat) (m : Machine) :
    Operated p m (m.runToDepth p depth looks) := by
  induction looks generalizing m with
  | zero =>
    unfold runToDepth
    split
    · exact .gaveUp (.refl m)
    · exact .paused (.refl m)
  | succ looks ih =>
    unfold runToDepth
    split
    · split
      next next hnext => exact (Reaches.of_step hnext).operated (ih next)
      · exact operated_step p m
    · exact .paused (.refl m)

theorem operated_stepToDepth {limit looks : Nat} {depth : Int}
    (h : m.stepToDepth p limit looks depth = some r) : Operated p m r := by
  unfold stepToDepth at h
  split at h
  next next hnext =>
    cases h
    cases operated_stepHidden hnext with
    | stopped hstops => exact absurd rfl hstops.1
    | paused hreaches => exact hreaches.operated (operated_runToDepth p depth looks next)
  · exact operated_stepHidden h

theorem operated_run (p : Program) (looks : Nat) (m : Machine) :
    Operated p m (m.run p looks) := by
  induction looks generalizing m with
  | zero =>
    unfold Machine.run
    split
    next next hnext => exact .gaveUp ⟨_, hnext⟩
    · exact operated_runSlice p sliceSize m
  | succ looks ih =>
    unfold Machine.run
    split
    next next hnext => exact Reaches.operated ⟨_, hnext⟩ (ih next)
    · exact operated_runSlice p sliceSize m

/-- **Operations are made of single instructions.** -/
theorem Operation.operated {operation : Operation} (h : operation.apply p m = some r) :
    Operated p m r := by
  cases operation with
  | stepInto limit visible =>
    cases visible with
    | true =>
      cases h
      exact operated_step p m
    | false => exact operated_stepHidden h
  | stepOver limit looks => exact operated_stepToDepth h
  | stepReturn limit looks => exact operated_stepToDepth h
  | run looks =>
    cases h
    exact operated_run p looks m

end Operations

/-! ## What sessions keep -/

/-- Single instructions keep the property `I` and have outcomes with the property `H`, and so does
giving up. -/
structure Kept (p : Program) (I : Machine → Prop) (H : Outcome → Prop) : Prop where
  step : ∀ m, I m → I (m.step p).1 ∧ H (m.step p).2
  giveUp : ∀ m, I m → I (m.giveUp p).1 ∧ H (m.giveUp p).2
  paused : H .paused

namespace Kept

variable {p : Program} {I : Machine → Prop} {H : Outcome → Prop} {m : Machine}
  {r : Machine × Outcome}

theorem runSlice (h : Kept p I H) (count : Nat) (hm : I m) :
    I (m.runSlice p count).1 ∧ H (m.runSlice p count).2 := by
  induction count generalizing m with
  | zero => exact ⟨hm, h.paused⟩
  | succ count ih =>
    unfold Machine.runSlice
    have hstep := h.step m hm
    split
    next next hnext =>
      rw [hnext] at hstep
      exact ih hstep.1
    · exact hstep

theorem operated (h : Kept p I H) (hm : I m) (hr : Operated p m r) : I r.1 ∧ H r.2 := by
  cases hr with
  | paused hreaches =>
    obtain ⟨n, hn⟩ := hreaches
    have hslice := h.runSlice n hm
    rwa [hn] at hslice
  | stopped hstops =>
    obtain ⟨-, n, hn⟩ := hstops
    have hslice := h.runSlice n hm
    rwa [hn] at hslice
  | gaveUp hreaches =>
    obtain ⟨n, hn⟩ := hreaches
    have hslice := h.runSlice n hm
    rw [hn] at hslice
    exact h.giveUp _ hslice.1

/-- **What single instructions keep, operations keep.** -/
theorem apply (h : Kept p I H) {operation : Operation} (hm : I m)
    (hr : operation.apply p m = some r) : I r.1 ∧ H r.2 :=
  h.operated hm (Operation.operated hr)

end Kept

namespace Session

variable {p : Program} {m : Machine}

/-- **What single instructions and exchanging the world keep, a session keeps.** -/
theorem kept {I : Machine → Prop} {H : Outcome → Prop} (h : Session p m) (hkept : Kept p I H)
    (hstart : ∀ w : World, w.robot.OnGrid → I (Machine.start w))
    (hreplace : ∀ (m : Machine) (w : World), I m → w.robot.OnGrid → I { m with world := w }) :
    I m := by
  induction h with
  | start hgrid => exact hstart _ hgrid
  | operate _ operation happly ih => exact (hkept.apply ih happly).1
  | replace _ hgrid ih => exact hreplace _ _ ih hgrid

end Session
end KarelRobot
