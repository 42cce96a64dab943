import KarelRobot.Proofs.Safety
import KarelRobot.Proofs.Segments

/-!
# Hidden steps come back

A hidden step runs through instructions silently, with no look at the clock, until it comes to one
at which a debugger stops.  In a program that `compile` returns it always does: an instruction that
is run through silently leads forward in the code of its command, or back to where a debugger stops,
and at the end of each command it stops.

* `Program.LeadsSilently` — the control flow of a program where no debugger stops.
* `Script.Compiles.covers_of_leadsSilently` — where a silent instruction can lead.
* `Script.Compiles.exists_runSilently` — silent instructions come to an end.
* `hidden_step_terminates` — no cycle is silent, and hidden steps come back.
-/

set_option autoImplicit false
namespace KarelRobot

open Assembly Machine

/-! ## Silent instructions -/

namespace Program

/-- The control flow of a program: with some stack and in some world, the instruction at the address
`a` leads to the address `b`. -/
def Leads (p : Program) (a b : Nat) : Prop :=
  ∃ m m' : Machine, m.pc = a ∧ m.step p = (m', .paused) ∧ m'.pc = b

/-- The control flow where no debugger stops. -/
def LeadsSilently (p : Program) (a b : Nat) : Prop :=
  p.Leads a b ∧ ¬ p.Pauses a

end Program

/-- Where an operation at the address `a` can lead, if no debugger stops in front of it. -/
def Op.silentWays (a : Nat) : Op → List Nat
  | not | and | or | pass _ | forward _ => [a + 1]
  | jump target => [target.toNat]
  | jumpUnless target | jumpIf target => [a + 1, target.toNat]
  | ret | action _ | query _ | literal _ | callParameter _ | push _ | loop _ | call _ => []

namespace Machine

variable {p : Program} {m m' : Machine}

/-- What goes on behind a truth value goes on at the same address. -/
theorem exists_use_of_popBoolean {use : Machine → Bool → Machine × Outcome}
    (h : m.popBoolean use = (m', .paused)) :
    ∃ n value, n.pc = m.pc ∧ use n value = (m', .paused) := by
  unfold popBoolean at h
  split at h
  next value stack _ => exact ⟨{ m with stack := stack }, value, rfl, h⟩
  · cases h
  · cases h

theorem pc_of_combine {operation : Bool → Bool → Bool}
    (h : m.combine operation = (m', .paused)) : m'.pc = m.pc + 1 := by
  obtain ⟨n, right, hn, h⟩ := exists_use_of_popBoolean h
  obtain ⟨k, left, hk, h⟩ := exists_use_of_popBoolean h
  cases h
  rw [← hn, ← hk]

/-- Only an instruction that is there can be executed. -/
theorem exists_get?_of_step (h : m.step p = (m', .paused)) :
    m.finished = false ∧ ∃ i, p.get? m.pc = some i := by
  unfold step at h
  split at h
  · cases h
  next hfinished =>
    split at h
    · cases h
    next i hi => exact ⟨Bool.eq_false_iff.2 hfinished, i, hi⟩

/-- A silent operation leads where it can. -/
theorem pc_mem_silentWays {site : Instruction} {op : Op} (hsilent : op.pause = .never)
    (h : m.execute p site op = (m', .paused)) : m'.pc ∈ op.silentWays m.pc := by
  cases op with
  | ret | action | query | literal | push | loop | call | callParameter => cases hsilent
  | not =>
    rw [execute] at h
    obtain ⟨n, value, hn, h⟩ := exists_use_of_popBoolean h
    cases h
    rw [← hn]
    exact List.mem_singleton_self _
  | and | or => exact List.mem_singleton.2 (pc_of_combine h)
  | pass reference =>
    cases h
    exact List.mem_singleton_self _
  | forward index =>
    simp only [execute] at h
    split at h
    · cases h
      exact List.mem_singleton_self _
    · cases h
  | jump target =>
    cases h
    exact List.mem_singleton_self _
  | jumpUnless target | jumpIf target =>
    rw [execute] at h
    obtain ⟨n, value, hn, h⟩ := exists_use_of_popBoolean h
    rw [← hn]
    cases value <;> cases h <;> simp [Op.silentWays]

end Machine

/-- **In the body of a command, silent operations lead forward or to where a debugger stops.** -/
theorem Stands.of_mem_silentWays {p : Program} {commands : List Command} {c : Command}
    {low high a b position : Nat} {op : Op} (h : Stands p commands c low high a op position)
    (hlow : low ≤ a) (ha : a < high) (hhigh : high < Program.maxSize)
    (hb : b ∈ op.silentWays a) : low ≤ b ∧ b ≤ high ∧ (a < b ∨ p.Pauses b) := by
  have hnext : low ≤ a + 1 ∧ a + 1 ≤ high ∧ (a < a + 1 ∨ p.Pauses (a + 1)) :=
    ⟨by omega, by omega, .inl (Nat.lt_succ_self a)⟩
  have htarget {target : Nat} (hle : target ≤ high) : (operand target).toNat = target :=
    toNat_operand (Nat.lt_of_le_of_lt hle hhigh)
  cases h with
  | query | literal | push | loop => cases hb
  | not | and | or =>
    obtain rfl := List.mem_singleton.1 hb
    exact hnext
  | @argument call argument hcall hargument =>
    have hb : b = a + 1 := by
      cases hreference : locate commands c argument.text <;> rw [hreference] at hb <;>
        exact List.mem_singleton.1 hb
    rw [hb]
    exact hnext
  | @target call hcall =>
    cases hreference : locate commands c call.target.text <;> rw [hreference] at hb <;> cases hb
  | skip hforth hle =>
    obtain rfl := List.mem_singleton.1 hb
    rw [htarget hle]
    exact ⟨by omega, hle, .inl hforth⟩
  | repeated hback hlt hpauses =>
    obtain rfl := List.mem_singleton.1 hb
    rw [htarget (by omega)]
    exact ⟨hback, by omega, .inr hpauses⟩
  | @branch negations target hforth hle =>
    have hb : b = a + 1 ∨ b = target := by
      rw [← htarget hle]
      unfold Condition.branch at hb
      split at hb <;> simpa [Op.silentWays] using hb
    rcases hb with rfl | rfl
    · exact hnext
    · exact ⟨by omega, hle, .inl hforth⟩

/-! ## Segments are left only where a debugger stops -/

namespace Script.Compiles

variable {script : Script} {main : Command} {p : Program} {s : Segment} {a b : Nat}

/-- A debugger stops where a command is left. -/
theorem pauses_ret (h : script.Compiles main p)
    (hs : s ∈ p.segments (script.reachable main.name)) :
    p.Pauses (s.start + (Statement.block s.command.body).size) := by
  obtain ⟨hmem, hstart, -⟩ := h.mem_segments hs
  have hget := h.get?_ret hmem
  rw [← hstart] at hget
  exact ⟨_, hget, (Instruction.pauses_ofOp (Op.fits_of_none rfl) _).2 nofun⟩

theorem lt_of_not_pauses (h : script.Compiles main p)
    (hs : s ∈ p.segments (script.reachable main.name)) (ha : s.Covers a) (hsilent : ¬ p.Pauses a) :
    a < s.start + (Statement.block s.command.body).size := by
  refine Nat.lt_of_le_of_ne ((h.covers_iff hs).1 ha).2 fun hend => hsilent ?_
  rw [hend]
  exact h.pauses_ret hs

/-- **A silent instruction leads forward in its segment, or to where a debugger stops in it.** -/
theorem covers_of_leadsSilently (h : script.Compiles main p)
    (hs : s ∈ p.segments (script.reachable main.name)) (ha : s.Covers a)
    (hleads : p.LeadsSilently a b) : s.Covers b ∧ (a < b ∨ p.Pauses b) := by
  obtain ⟨⟨m, m', rfl, hstep, rfl⟩, hsilent⟩ := hleads
  obtain ⟨hmem, hstart, -⟩ := h.mem_segments hs
  have hlow := ((h.covers_iff hs).1 ha).1
  have hhigh := h.lt_of_not_pauses hs ha hsilent
  have hthroughout := h.stands hmem
  rw [← hstart] at hthroughout
  obtain ⟨op, position, hget, hstands⟩ := hthroughout m.pc hlow hhigh
  obtain ⟨hfits, -, -⟩ := h.admits hs hlow hhigh hstands
  have hnever : op.pause = .never := by
    by_contra hpause
    exact hsilent ⟨_, hget, (Instruction.pauses_ofOp hfits position).2 hpause⟩
  rw [step_eq hget hfits (exists_get?_of_step hstep).1] at hstep
  have hlast := h.covers_lt hs ((h.covers_iff hs).2 ⟨Nat.le_add_right _ _, Nat.le_refl _⟩)
  obtain ⟨hlow', hhigh', hforth⟩ :=
    hstands.of_mem_silentWays hlow hhigh hlast (pc_mem_silentWays hnever hstep)
  exact ⟨(h.covers_iff hs).2 ⟨hlow', hhigh'⟩, hforth⟩

/-- The same along a path. -/
theorem covers_of_transGen (h : script.Compiles main p)
    (hs : s ∈ p.segments (script.reachable main.name)) (ha : s.Covers a)
    (hpath : Relation.TransGen p.LeadsSilently a b) : s.Covers b ∧ (a < b ∨ p.Pauses b) := by
  induction hpath with
  | single hleads => exact h.covers_of_leadsSilently hs ha hleads
  | tail _ hleads ih =>
    obtain ⟨hcovers, hforth⟩ := ih
    have hlt := hforth.resolve_right hleads.2
    obtain ⟨hcovers', hforth'⟩ := h.covers_of_leadsSilently hs hcovers hleads
    exact ⟨hcovers', hforth'.imp_left (Nat.lt_trans hlt)⟩

/-- **No cycle of the code is silent.** -/
theorem not_transGen_leadsSilently (h : script.Compiles main p) (ha : Program.entryPoint ≤ a) :
    ¬ Relation.TransGen p.LeadsSilently a a := by
  intro hcycle
  obtain ⟨b, ⟨hleads, hsilent⟩, -⟩ := Relation.TransGen.head'_iff.1 hcycle
  have hlt : a < Program.entryPoint + p.code.length := by
    obtain ⟨m, m', rfl, hstep, -⟩ := hleads
    obtain ⟨-, i, hi⟩ := exists_get?_of_step hstep
    have hsize := (Array.getElem?_eq_some_iff.1 hi).1
    rw [Program.code, List.length_drop, Array.length_toList]
    omega
  have hsegmented := h.segmented
  rw [← hsegmented.flatMap_code] at hlt
  obtain ⟨s, hs, hcovers⟩ := hsegmented.adjoin.exists_covers ha hlt
  obtain ⟨-, hlt | hpauses⟩ := h.covers_of_transGen hs hcovers hcycle
  · exact Nat.lt_irrefl a hlt
  · exact hsilent hpauses

/-- **Silent instructions come to an end.**  They take at most as many steps as there are addresses
up to the end of the command. -/
theorem exists_runSilently (h : script.Compiles main p)
    (hs : s ∈ p.segments (script.reachable main.name)) {n : Nat} {m : Machine}
    (hcovers : s.Covers m.pc)
    (hn : s.start + (Statement.block s.command.body).size < m.pc + n ∨ 0 < n ∧ p.Pauses m.pc) :
    ∃ r, m.runSilently p n = some r := by
  induction n generalizing m with
  | zero =>
    have hhigh := ((h.covers_iff hs).1 hcovers).2
    omega
  | succ n ih =>
    unfold runSilently
    split
    · exact ⟨_, rfl⟩
    · split
      · exact ⟨_, rfl⟩
      next i hi =>
        split
        · exact ⟨_, rfl⟩
        next hpauses =>
          split
          next next hnext =>
            have hsilent : ¬ p.Pauses m.pc := by
              rintro ⟨j, hj, hjpauses⟩
              rw [current?, hj] at hi
              cases hi
              exact hpauses hjpauses
            have hlt := h.lt_of_not_pauses hs hcovers hsilent
            obtain ⟨hcovers', hforth⟩ := h.covers_of_leadsSilently hs hcovers
              ⟨⟨m, next, rfl, hnext, rfl⟩, hsilent⟩
            have hn := hn.resolve_right fun hright => hsilent hright.2
            refine ih hcovers' (hforth.imp (fun hlt => ?_) fun hpauses => ⟨?_, hpauses⟩)
            · omega
            · omega
          · exact ⟨_, rfl⟩

end Script.Compiles

/-! ## Hidden steps -/

/-- With a higher limit, silent instructions come to the same end. -/
theorem Machine.runSilently_mono {p : Program} {m : Machine} {r : Machine × Outcome} {n k : Nat}
    (h : m.runSilently p n = some r) (hle : n ≤ k) : m.runSilently p k = some r := by
  induction n generalizing m k with
  | zero => cases h
  | succ n ih =>
    obtain ⟨k, rfl⟩ := Nat.exists_eq_add_of_lt hle
    unfold runSilently at h ⊢
    split at h
    next hfinished =>
      rw [if_pos hfinished]
      exact h
    next hfinished =>
      rw [if_neg hfinished]
      split at h
      next hnone => exact h
      next i hi =>
        split at h
        next hpauses =>
          simp only [hpauses, if_true]
          exact h
        next hpauses =>
          simp only [hpauses]
          split at h
          next next hnext =>
            exact ih h (Nat.le_add_right _ _)
          · exact h

namespace Intact

variable {script : Script} {main : Command} {p : Program} {m : Machine}

/-- A machine with an intact stack stands in a segment. -/
theorem exists_covers (h : Intact p (script.reachable main.name) main m)
    (hcompiles : script.Compiles main p) :
    ∃ s ∈ p.segments (script.reachable main.name), s.Covers m.pc := by
  obtain ⟨-, top, callers, booleans, pushed, hframed⟩ := h
  have hmem := hframed.active.mem hcompiles
  obtain ⟨s, hs, hcommand, -⟩ := hcompiles.exists_segment hmem
  have hcovers := hframed.shape.covers
  rw [← hcommand, ← hframed.site] at hcovers
  exact ⟨s, hs, (hcompiles.covers_iff_command hs).2 hcovers⟩

theorem exists_runSilently (h : Intact p (script.reachable main.name) main m)
    (hcompiles : script.Compiles main p) :
    ∃ r, ∀ limit, p.size ≤ limit → m.runSilently p limit = some r := by
  obtain ⟨s, hs, hcovers⟩ := h.exists_covers hcompiles
  obtain ⟨i, hi, -⟩ := hcompiles.pauses_ret hs
  have hsize := (Array.getElem?_eq_some_iff.1 hi).1
  obtain ⟨r, hr⟩ := hcompiles.exists_runSilently hs (n := p.size) hcovers
    (.inl (Nat.lt_of_lt_of_le hsize (Nat.le_add_left _ _)))
  exact ⟨r, fun limit hlimit => runSilently_mono hr hlimit⟩

/-- **Hidden steps come back.**  Behind the one instruction at which a debugger stops, the stack is
intact again. -/
theorem exists_stepHidden (h : Intact p (script.reachable main.name) main m)
    (hcompiles : script.Compiles main p) :
    ∃ r, ∀ limit, p.size ≤ limit → m.stepHidden p limit = some r := by
  obtain ⟨⟨ready, outcome⟩, hready⟩ := h.exists_runSilently hcompiles
  cases outcome with
  | finished =>
    exact ⟨(ready, .finished), fun limit hlimit => by simp only [stepHidden, hready limit hlimit]⟩
  | failed fault =>
    exact ⟨(ready, .failed fault), fun limit hlimit => by
      simp only [stepHidden, hready limit hlimit]⟩
  | paused =>
    have hintact := (hcompiles.kept.operated h
      (operated_runSilently (hready p.size (Nat.le_refl _)))).1
    have hnext := (hintact.step hcompiles).1
    rcases hstep : ready.step p with ⟨next, reached⟩
    rw [hstep] at hnext
    cases reached with
    | finished =>
      exact ⟨(next, .finished), fun limit hlimit => by
        simp only [stepHidden, hready limit hlimit, hstep]⟩
    | failed fault =>
      exact ⟨(next, .failed fault), fun limit hlimit => by
        simp only [stepHidden, hready limit hlimit, hstep]⟩
    | paused =>
      obtain ⟨r, hr⟩ := hnext.exists_runSilently hcompiles
      refine ⟨r, fun limit hlimit => ?_⟩
      simp only [stepHidden, hready limit hlimit, hstep, hr limit hlimit]

end Intact

/-- **A hidden step always comes back.**  Every cycle in the control flow of a program that
`compile` returns has an instruction at which a debugger stops; so silent instructions and hidden
steps come to an end wherever a session leads, and they need no higher limit than the program has
instructions. -/
theorem hidden_step_terminates {source : String} {entry : Option String} {level : Level}
    {p : Program} (h : compile source entry level = .ok p) :
    (∀ a, Program.entryPoint ≤ a → ¬ Relation.TransGen p.LeadsSilently a a) ∧
      ∀ m, Session p m →
        (∃ r, ∀ limit, p.size ≤ limit → m.runSilently p limit = some r) ∧
          ∃ r, ∀ limit, p.size ≤ limit → m.stepInto p limit false = some r := by
  obtain ⟨script, main, -, -, hcompiles, -⟩ := compiles_of_compile h
  refine ⟨fun a ha => hcompiles.not_transGen_leadsSilently ha, fun m hm => ?_⟩
  have hintact := hm.intact hcompiles
  exact ⟨hintact.exists_runSilently hcompiles, hintact.exists_stepHidden hcompiles⟩

theorem hidden_step_terminates_dance :
    ∃ p, compile dance none .recursion = .ok p ∧
      (∀ a, Program.entryPoint ≤ a → ¬ Relation.TransGen p.LeadsSilently a a) ∧
      Session p (stranded p) ∧
      (∃ r, ∀ limit, p.size ≤ limit → (stranded p).runSilently p limit = some r) ∧
      ∃ r, ∀ limit, p.size ≤ limit → (stranded p).stepInto p limit false = some r := by
  obtain ⟨p, hp⟩ := exists_compile_dance
  have hm := session_stranded p
  exact ⟨p, hp, (hidden_step_terminates hp).1, hm, (hidden_step_terminates hp).2 _ hm⟩

end KarelRobot
