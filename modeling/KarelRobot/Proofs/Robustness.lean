import KarelRobot.Proofs.Effects
import KarelRobot.Proofs.Stepping
import Mathlib.Data.Nat.PSub

/-!
# Any program can be run

The words of a program may be anything, and a debugger may go on after every fault.  Nothing that
the machine has to compute is ever undefined: the depth of calls is counted down only where a call
has not returned, an argument is read only where the stack has a value, and a loop counter is
counted down only where something is left of it.

* `Machine.step?` — one instruction with operations that may be undefined.
* `Machine.KeepsCount` — an instruction keeps count of the return addresses.
* `Machine.Robust` — what can be said of every machine that a program leads to.
* `any_program_is_robust` — it can be said, and the count is exact until a value is missing.
-/

set_option autoImplicit false
namespace KarelRobot
namespace Machine

/-! ## Operations that may be undefined

These are the parts of instructions that subtract and that look into the stack, with a result only
where there is a number to subtract from and a value to look at. -/

/-- Leaving a command, which counts the depth of calls down. -/
def leave? (m : Machine) : Option (Machine × Outcome) :=
  match m.stack with
  | .returnAddress caller :: stack => do
    let depth ← m.callDepth.ppred
    return { m with
      events := .left :: m.events
      stack := stack.dropWhile Value.isCommand
      callDepth := depth }.jump (caller.toNat + 1)
  | _ => some m.leave

/-- Counting a loop down. -/
def loop? (m : Machine) (back : UInt16) : Option (Machine × Outcome) :=
  match m.stack with
  | .loopCounter remaining :: stack =>
    if 1 < remaining then do
      let less ← remaining.toNat.ppred
      return { m with stack := .loopCounter (UInt16.ofNat less) :: stack }.jump back.toNat
    else some (m.loop back)
  | _ => some (m.loop back)

/-- The place of an argument, counted from the bottom of the stack: as many values below the return
address as its index says, if there are so many. -/
def argumentPlace? (m : Machine) (index : UInt16) : Option Nat := do
  let above ← m.stack.findIdx? Value.isReturnAddress
  (m.stack.length - (above + 1)).psub index.toNat

/-- Looking an argument up.  There need not be a value at its place. -/
def argument? (m : Machine) (index : UInt16) : Option (Except Fault UInt16) :=
  match m.argumentPlace? index with
  | none => some (.error (.stackUnderflow m.pc))
  | some place => do
    match ← m.stack.reverse[place]? with
    | .command reference => return .ok reference
    | _ => return .error (.notACommand m.pc)

/-- An operation.  All parts of it that are not above have a result anyway. -/
def execute? (p : Program) (m : Machine) (site : Instruction) : Op → Option (Machine × Outcome)
  | .ret => m.leave?
  | .loop target => m.loop? target
  | .forward index => do
    match ← m.argument? index with
    | .ok reference => return m.push (.command reference)
    | .error fault => return m.fail fault
  | .callParameter index => do
    match ← m.argument? index with
    | .ok reference => return m.callPassed p site reference
    | .error fault => return m.fail fault
  | op => some (m.execute p site op)

/-- One instruction. -/
def step? (p : Program) (m : Machine) : Option (Machine × Outcome) :=
  if m.finished then some (m, .finished)
  else
    match m.current? p with
    | none => some (m.fail (.outOfBounds m.pc))
    | some i =>
      match i.op? with
      | none => some (m.fail (.illegalBytecode i.bytecode m.pc))
      | some op => m.execute? p i op

section Defined

variable {p : Program} {m : Machine}

/-- As long as there are no more return addresses than calls, a call that returns is counted. -/
theorem leave?_eq (h : returnCount m.stack ≤ m.callDepth) :
    m.leave? = some m.leave := by
  unfold leave?
  split
  next caller stack hstack =>
    rw [hstack, returnCount_cons] at h
    rw [Nat.ppred_eq_pred (Nat.lt_of_lt_of_le (Nat.succ_pos _) h)]
    simp only [leave, hstack]
    rfl
  · rfl

theorem loop?_eq (m : Machine) (back : UInt16) : m.loop? back = some (m.loop back) := by
  unfold loop?
  split
  next remaining stack hstack =>
    split
    next hlt =>
      have hone : 1 ≤ remaining := UInt16.le_of_lt hlt
      have hless : UInt16.ofNat remaining.toNat.pred = remaining - 1 := by
        rw [← UInt16.toNat_inj, UInt16.toNat_sub_of_le _ _ hone]
        exact UInt16.toNat_ofNat_of_lt' (Nat.lt_of_le_of_lt (Nat.pred_le _) remaining.toNat_lt)
      rw [Nat.ppred_eq_pred (UInt16.le_iff_toNat_le.1 hone)]
      simp only [loop, hstack, if_pos hlt, ← hless]
      rfl
    · rfl
  · rfl

/-- Arguments are counted downwards from the return address.  Without one there is none. -/
theorem argument_eq_getElem? (m : Machine) (index : UInt16) :
    m.argument index =
      match (m.stack.drop (m.stack.findIdx Value.isReturnAddress))[index.toNat]? with
      | none => .error (.stackUnderflow m.pc)
      | some (.command reference) => .ok reference
      | some _ => .error (.notACommand m.pc) := by
  unfold argument
  simp only [List.dropWhile_eq_drop_findIdx_not, Bool.not_not]
  split
  next hnil => rw [hnil, List.getElem?_nil]
  · rfl

/-- The place of an argument is in the stack, as far below the return address as its index says. -/
theorem getElem?_place {stack : List Value} {above index place : Nat}
    (habove : above < stack.length)
    (hplace : (stack.length - (above + 1)).psub index = some place) :
    ∃ value, stack.reverse[place]? = some value ∧ (stack.drop above)[index]? = some value := by
  -- Places count from the bottom of the stack, indices from the return address downwards.
  have hsum : place + index = stack.length - (above + 1) := Nat.psub_eq_some.1 hplace
  have hplace : place < stack.length := by omega
  have hfromTop : stack.length - 1 - place = above + index := by omega
  have hlt : above + index < stack.length := by omega
  rw [List.getElem?_reverse hplace, List.getElem?_drop, hfromTop]
  exact ⟨stack[above + index], List.getElem?_eq_getElem hlt, List.getElem?_eq_getElem hlt⟩

/-- **An argument is looked up only in the stack.** -/
theorem argument?_eq (m : Machine) (index : UInt16) :
    m.argument? index = some (m.argument index) := by
  rw [argument?, argumentPlace?, argument_eq_getElem?]
  cases hfound : m.stack.findIdx? Value.isReturnAddress with
  | none =>
    rw [List.findIdx_eq_length_of_false (List.findIdx?_eq_none_iff.1 hfound), List.drop_length]
    rfl
  | some above =>
    obtain ⟨habove, hfind⟩ := List.findIdx?_eq_some_iff_findIdx_eq.1 hfound
    rw [hfind, Option.bind_eq_bind, Option.bind_some]
    cases hplace : (m.stack.length - (above + 1)).psub index.toNat with
    | none =>
      have hdeep : m.stack.length - (above + 1) < index.toNat := Nat.psub_eq_none.1 hplace
      have hnone : (m.stack.drop above)[index.toNat]? = none := by
        rw [List.getElem?_eq_none_iff, List.length_drop]
        omega
      rw [hnone]
    | some place =>
      obtain ⟨value, hvalue, hsame⟩ := getElem?_place habove hplace
      simp only [hvalue, hsame]
      cases value <;> rfl

theorem execute?_eq (h : returnCount m.stack ≤ m.callDepth) (site : Instruction)
    (op : Op) : m.execute? p site op = some (m.execute p site op) := by
  cases op with
  | ret => exact leave?_eq h
  | loop target => exact loop?_eq m target
  | forward index | callParameter index =>
    simp only [execute?, argument?_eq, execute]
    cases m.argument index <;> rfl
  | _ => rfl

/-- **An instruction is defined if there are no more return addresses than calls.** -/
theorem step?_eq (h : returnCount m.stack ≤ m.callDepth) :
    m.step? p = some (m.step p) := by
  simp only [step?, execute?_eq h, step]
  cases m.finished with
  | true => rfl
  | false =>
    cases m.current? p with
    | none => rfl
    | some site => cases hop : site.op? <;> simp [hop]

end Defined

/-! ## Counting return addresses -/

/-- What comes of an instruction keeps count of the return addresses: if there were no more than
calls, there are no more; and if there were as many, there are as many unless a value was missing on
the stack. -/
structure KeepsCount (m : Machine) (r : Machine × Outcome) : Prop where
  le : returnCount m.stack ≤ m.callDepth → returnCount r.1.stack ≤ r.1.callDepth
  eq : (∀ pc, r.2 ≠ .failed (.stackUnderflow pc)) →
    returnCount m.stack = m.callDepth → returnCount r.1.stack = r.1.callDepth

section Counting

variable {p : Program} {m : Machine} {r : Machine × Outcome}

/-- **Every instruction keeps count of the return addresses.**  Values that are not what was
expected are popped in vain, so return addresses can get lost; but none appears without a call. -/
theorem Effect.keepsCount (h : Effect p m r) : KeepsCount m r := by
  cases h with
  | rests | finishes | refused | fails | acts => exact ⟨id, fun _ => id⟩
  | underflows hstack =>
    -- What was popped in vain may have been a return address, so nothing is left of equality here.
    exact ⟨Nat.le_trans (returnCount_le_of_suffix hstack), fun hne => absurd rfl (hne m.pc)⟩
  | @computes _ _ _ _ popped pushed kept hstack hpopped hpushed _ pc =>
    have hcount : returnCount (pushed ++ kept) = returnCount m.stack := by
      rw [hstack, returnCount_append hpopped, returnCount_append hpushed]
    exact ⟨Nat.le_trans (Nat.le_of_eq hcount), fun _ => hcount.trans⟩
  | enters =>
    have hcount := returnCount_cons (.ofNat m.pc) m.stack
    constructor
    · intro hle
      exact Nat.le_trans (Nat.le_of_eq hcount) (Nat.succ_le_succ hle)
    · intro _ heq
      exact hcount.trans (congrArg Nat.succ heq)
  | @leaves _ caller stack _ hstack =>
    have hcount : returnCount m.stack = returnCount (stack.dropWhile Value.isCommand) + 1 := by
      rw [returnCount_dropWhile_isCommand, hstack, returnCount_cons]
    constructor
    · intro hle
      exact Nat.le_sub_of_add_le (hcount ▸ hle)
    · intro _ heq
      exact Nat.eq_sub_of_add_eq (hcount ▸ heq)

theorem Effect.onGrid (h : Effect p m r) (hgrid : m.world.robot.OnGrid) :
    r.1.world.robot.OnGrid ∧ r.2 ≠ .failed (.world .offPlan) := by
  cases h with
  | rests | finishes | underflows | computes | enters | leaves => exact ⟨hgrid, nofun⟩
  | acts _ _ hw => exact ⟨World.onGrid_of_perform hgrid hw, nofun⟩
  | refused _ _ hfault =>
    refine ⟨hgrid, fun hplan => ?_⟩
    rcases World.perform_cases hgrid _ with ⟨w, hw, -⟩ | ⟨reason, hreason, hne⟩
    · cases hw.symm.trans hfault
    · cases hreason.symm.trans hfault
      cases hplan
      exact hne rfl
  | fails _ hworld =>
    refine ⟨hgrid, fun hplan => ?_⟩
    cases hplan
    exact hworld hgrid _ rfl

end Counting

section Runs

variable {p : Program} {m : Machine}

theorem onGrid_after (hgrid : m.world.robot.OnGrid) (count : Nat) :
    (m.after p count).world.robot.OnGrid := by
  induction count generalizing m with
  | zero => exact hgrid
  | succ count ih => exact ih ((effect_step p m).onGrid hgrid).1

theorem returnCount_after_le (h : returnCount m.stack ≤ m.callDepth) (count : Nat) :
    returnCount (m.after p count).stack ≤ (m.after p count).callDepth := by
  induction count generalizing m with
  | zero => exact h
  | succ count ih => exact ih ((effect_step p m).keepsCount.le h)

/-- As long as no value was missing, none of the return addresses has got lost. -/
theorem returnCount_after_eq (h : returnCount m.stack = m.callDepth) {count : Nat}
    (hsteps : ∀ k < count, ∀ pc, ((m.after p k).step p).2 ≠ .failed (.stackUnderflow pc)) :
    returnCount (m.after p count).stack = (m.after p count).callDepth := by
  induction count generalizing m with
  | zero => exact h
  | succ count ih =>
    have hnext := (effect_step p m).keepsCount.eq (hsteps 0 (Nat.succ_pos count)) h
    exact ih hnext fun k hk => hsteps (k + 1) (Nat.succ_lt_succ hk)

end Runs

/-- What can be said of every machine that a program leads to. -/
structure Robust (p : Program) (m : Machine) : Prop where
  /-- The next instruction does nothing that is undefined. -/
  defined : m.step? p = some (m.step p)
  /-- It does not look beyond the grid either. -/
  onPlan : (m.step p).2 ≠ .failed (.world .offPlan)
  returnCount_le : returnCount m.stack ≤ m.callDepth

end Machine

/-- **Any program can be run.**  Whatever words it consists of, and whatever has failed before, the
next instruction is defined and there are no more return addresses than calls.  There are as many
until a value is missing on the stack. -/
theorem any_program_is_robust (p : Program) {w : World} (hgrid : w.robot.OnGrid) (count : Nat) :
    ((Machine.start w).after p count).Robust p ∧
      ((∀ k < count, ∀ pc,
          (((Machine.start w).after p k).step p).2 ≠ .failed (.stackUnderflow pc)) →
        Machine.returnCount ((Machine.start w).after p count).stack =
          ((Machine.start w).after p count).callDepth) := by
  have hreturns := Machine.returnCount_after_le (p := p) (m := .start w) (Nat.le_refl 0) count
  have hgrid' := Machine.onGrid_after (p := p) (m := .start w) hgrid count
  have hplan := ((Machine.effect_step p _).onGrid hgrid').2
  exact ⟨⟨Machine.step?_eq hreturns, hplan, hreturns⟩, Machine.returnCount_after_eq rfl⟩

/-- A negation takes the return address of the command that it stands in for a truth value. -/
def astray : Program := .ofCode [.synthetic (.call 257), .synthetic .not, .synthetic .ret]

theorem any_program_is_robust_astray :
    Machine.returnCount ((Machine.start .start).after astray 3).stack = 0 ∧
      ((Machine.start .start).after astray 3).callDepth = 1 ∧
      (((Machine.start .start).after astray 3).Robust astray ∧
        ((∀ k < 3, ∀ pc, (((Machine.start .start).after astray k).step astray).2 ≠
            .failed (.stackUnderflow pc)) →
          Machine.returnCount ((Machine.start .start).after astray 3).stack =
            ((Machine.start .start).after astray 3).callDepth)) := by
  refine ⟨?_, ?_, any_program_is_robust astray World.onGrid_start 3⟩
  · decide +kernel
  · decide +kernel

end KarelRobot
