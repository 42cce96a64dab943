import KarelRobot.Machine.Debugger
import KarelRobot.Proofs.Encoding

/-!
# Runs of the machine

A machine that executes instructions gets to other machines, stops, or lasts for any number of
instructions.  Slices of any size can be put together, so it does not matter how a run is cut.

* `Machine.Reaches` — a run that goes on.
* `Machine.Stops` — a run that ends; there is at most one end.
* `Machine.Lasts` — a run that has not ended after a number of instructions.
* `Machine.run_eq_iff_stops` — running with enough time is stopping.
* `Machine.step_eq` — one step executes the operation that the program has at the address.
-/

set_option autoImplicit false
namespace KarelRobot
namespace Machine

variable {p : Program} {m m' m'' : Machine} {outcome : Outcome}

/-! ## Slices -/

/-- The machine gets from `m` to `m'` without stopping. -/
def Reaches (p : Program) (m m' : Machine) : Prop :=
  ∃ n, m.runSlice p n = (m', .paused)

/-- The machine stops as `m'`. -/
def Stops (p : Program) (m m' : Machine) (outcome : Outcome) : Prop :=
  outcome ≠ .paused ∧ ∃ n, m.runSlice p n = (m', outcome)

/-- The machine does not stop within `n` instructions. -/
def Lasts (p : Program) (n : Nat) (m : Machine) : Prop :=
  ∃ m', m.runSlice p n = (m', .paused)

theorem runSlice_succ_of_step (h : m.step p = (m', .paused)) (n : Nat) :
    m.runSlice p (n + 1) = m'.runSlice p n := by
  rw [runSlice, h]

/-- A machine that stops with its next instruction has stopped after any number of them. -/
theorem runSlice_succ_of_stop (h : m.step p = (m', outcome)) (houtcome : outcome ≠ .paused)
    (n : Nat) : m.runSlice p (n + 1) = (m', outcome) := by
  unfold runSlice
  split
  next next hnext =>
    rw [h] at hnext
    cases hnext
    exact absurd rfl houtcome
  · exact h

theorem runSlice_add {k : Nat} (h : m.runSlice p k = (m', .paused)) (n : Nat) :
    m.runSlice p (k + n) = m'.runSlice p n := by
  induction k generalizing m with
  | zero =>
    cases h
    rw [Nat.zero_add]
  | succ k ih =>
    rw [Nat.add_right_comm]
    rcases hstep : m.step p with ⟨next, outcome⟩
    by_cases hpaused : outcome = .paused
    · subst hpaused
      rw [runSlice_succ_of_step hstep] at h ⊢
      exact ih h
    · rw [runSlice_succ_of_stop hstep hpaused] at h
      cases h
      exact absurd rfl hpaused

/-- A machine that has stopped within a slice has stopped in the same way within a longer one. -/
theorem runSlice_add_of_stop {n : Nat} (h : m.runSlice p n = (m', outcome))
    (houtcome : outcome ≠ .paused) (k : Nat) : m.runSlice p (n + k) = (m', outcome) := by
  induction n generalizing m with
  | zero =>
    cases h
    exact absurd rfl houtcome
  | succ n ih =>
    rw [Nat.add_right_comm]
    rcases hstep : m.step p with ⟨next, reached⟩
    by_cases hpaused : reached = .paused
    · subst hpaused
      rw [runSlice_succ_of_step hstep] at h ⊢
      exact ih h
    · rw [runSlice_succ_of_stop hstep hpaused] at h ⊢
      exact h

/-! ## Getting from machine to machine -/

theorem Reaches.refl (m : Machine) : Reaches p m m :=
  ⟨0, rfl⟩

theorem Reaches.trans (h : Reaches p m m') (h' : Reaches p m' m'') : Reaches p m m'' := by
  obtain ⟨k, hk⟩ := h
  obtain ⟨n, hn⟩ := h'
  exact ⟨k + n, by rw [runSlice_add hk, hn]⟩

theorem Reaches.of_step (h : m.step p = (m', .paused)) : Reaches p m m' :=
  ⟨1, by rw [runSlice_succ_of_step h]; rfl⟩

theorem Stops.of_step (h : m.step p = (m', outcome)) (houtcome : outcome ≠ .paused) :
    Stops p m m' outcome :=
  ⟨houtcome, 1, runSlice_succ_of_stop h houtcome 0⟩

theorem Reaches.stops (h : Reaches p m m') (h' : Stops p m' m'' outcome) :
    Stops p m m'' outcome := by
  obtain ⟨k, hk⟩ := h
  obtain ⟨houtcome, n, hn⟩ := h'
  exact ⟨houtcome, k + n, by rw [runSlice_add hk, hn]⟩

/-- A machine stops in one way only. -/
theorem Stops.unique {outcome' : Outcome} (h : Stops p m m' outcome)
    (h' : Stops p m m'' outcome') : m' = m'' ∧ outcome = outcome' := by
  obtain ⟨houtcome, n, hn⟩ := h
  obtain ⟨houtcome', k, hk⟩ := h'
  have hlong := runSlice_add_of_stop hn houtcome k
  rw [Nat.add_comm, runSlice_add_of_stop hk houtcome' n] at hlong
  cases hlong
  exact ⟨rfl, rfl⟩

theorem Stops.not_lasts (h : Stops p m m' outcome) : ∃ n, ¬ Lasts p n m := by
  obtain ⟨houtcome, n, hn⟩ := h
  refine ⟨n, fun ⟨next, hnext⟩ => ?_⟩
  rw [hn] at hnext
  cases hnext
  exact houtcome rfl

/-- A machine that lasts has lasted. -/
theorem Lasts.of_add {k n : Nat} (h : Lasts p (k + n) m) : Lasts p k m := by
  obtain ⟨next, hnext⟩ := h
  rcases hk : m.runSlice p k with ⟨middle, reached⟩
  by_cases hpaused : reached = .paused
  · subst hpaused
    exact ⟨middle, hk⟩
  · rw [runSlice_add_of_stop hk hpaused n] at hnext
    cases hnext
    exact absurd rfl hpaused

theorem Reaches.lasts (h : Reaches p m m') {n : Nat} (h' : Lasts p n m') : Lasts p n m := by
  obtain ⟨k, hk⟩ := h
  obtain ⟨last, hlast⟩ := h'
  have hsum : Lasts p (n + k) m := ⟨last, by rw [Nat.add_comm, runSlice_add hk, hlast]⟩
  exact hsum.of_add

theorem Lasts.of_step (h : m.step p = (m', .paused)) {n : Nat} (h' : Lasts p n m') :
    Lasts p (n + 1) m := by
  obtain ⟨last, hlast⟩ := h'
  exact ⟨last, by rw [runSlice_succ_of_step h, hlast]⟩

/-! ## Running with a clock -/

theorem run_of_slice (h : m.runSlice p sliceSize = (m', .paused)) (looks : Nat) :
    m.run p (looks + 1) = m'.run p looks := by
  rw [run, h]

theorem run_of_stop (h : m.runSlice p sliceSize = (m', outcome)) (houtcome : outcome ≠ .paused)
    (looks : Nat) : m.run p looks = (m', outcome) := by
  cases looks <;>
  · unfold run
    split
    next next hnext =>
      rw [h] at hnext
      cases hnext
      exact absurd rfl houtcome
    · exact h

/-- How a run with a clock ends: as it ends without one, or because the time is up. -/
theorem run_cases (looks : Nat) (m : Machine) :
    Stops p m (m.run p looks).1 (m.run p looks).2 ∨
      ∃ position, (m.run p looks).2 = .failed (.infiniteLoop position) := by
  induction looks generalizing m with
  | zero =>
    rcases hslice : m.runSlice p sliceSize with ⟨next, reached⟩
    by_cases hpaused : reached = .paused
    · subst hpaused
      exact .inr ⟨_, by rw [run, hslice]; rfl⟩
    · rw [run_of_stop hslice hpaused]
      exact .inl ⟨hpaused, _, hslice⟩
  | succ looks ih =>
    rcases hslice : m.runSlice p sliceSize with ⟨next, reached⟩
    by_cases hpaused : reached = .paused
    · subst hpaused
      rw [run_of_slice hslice]
      exact (ih next).imp (fun hstops => Reaches.stops ⟨_, hslice⟩ hstops) id
    · rw [run_of_stop hslice hpaused]
      exact .inl ⟨hpaused, _, hslice⟩

/-- **A machine that stops does so in time** if it gets that far before the last look at the
clock. -/
theorem run_of_runSlice {n looks : Nat} (h : m.runSlice p n = (m', outcome))
    (houtcome : outcome ≠ .paused) (hn : n ≤ (looks + 1) * sliceSize) :
    m.run p looks = (m', outcome) := by
  induction looks generalizing m n with
  | zero =>
    have hslice := runSlice_add_of_stop h houtcome (sliceSize - n)
    rw [Nat.zero_add, Nat.one_mul] at hn
    rw [Nat.add_sub_cancel' hn] at hslice
    exact run_of_stop hslice houtcome 0
  | succ looks ih =>
    rcases hslice : m.runSlice p sliceSize with ⟨next, reached⟩
    by_cases hpaused : reached = .paused
    · -- what is left after the first slice ends within the other ones
      subst hpaused
      rw [run_of_slice hslice]
      refine ih (n := n - sliceSize) ?_ (by rw [Nat.succ_mul] at hn; omega)
      rw [← runSlice_add hslice]
      rcases Nat.le_total sliceSize n with hle | hle
      · rw [Nat.add_sub_cancel' hle, h]
      · have hlong := runSlice_add_of_stop h houtcome (sliceSize - n)
        rw [Nat.add_sub_cancel' hle, hslice] at hlong
        cases hlong
        exact absurd rfl houtcome
    · obtain ⟨rfl, rfl⟩ := Stops.unique ⟨hpaused, _, hslice⟩ ⟨houtcome, _, h⟩
      exact run_of_stop hslice hpaused _

/-- A machine that stops does so in time if the clock is looked at often enough. -/
theorem Stops.exists_run (h : Stops p m m' outcome) : ∃ looks, m.run p looks = (m', outcome) := by
  obtain ⟨houtcome, n, hn⟩ := h
  exact ⟨n, run_of_runSlice hn houtcome (by simp only [sliceSize]; omega)⟩

/-- **Running with enough time is stopping.** -/
theorem run_eq_iff_stops (htime : ∀ position, outcome ≠ .failed (.infiniteLoop position)) :
    (∃ looks, m.run p looks = (m', outcome)) ↔ Stops p m m' outcome := by
  constructor
  · rintro ⟨looks, hlooks⟩
    rcases run_cases (p := p) looks m with hstops | ⟨position, hposition⟩
    · rw [hlooks] at hstops
      exact hstops
    · rw [hlooks] at hposition
      exact absurd hposition (htime position)
  · exact Stops.exists_run

/-! ## Single instructions -/

/-- A machine in front of an operation executes it. -/
theorem step_eq {op : Op} {position : Nat} (hget : p.get? m.pc = some (.ofOp op position))
    (hfits : op.Fits) (hfinished : m.finished = false) :
    m.step p = m.execute p (.ofOp op position) op := by
  rw [step, if_neg (by rw [hfinished]; exact Bool.false_ne_true), current?, hget]
  simp only [Instruction.op?_ofOp hfits]

end Machine
end KarelRobot
