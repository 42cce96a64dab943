import KarelRobot.Proofs.Calling
import KarelRobot.Proofs.Conditions

/-!
# The machine does what the script says

Statement by statement, the machine and the evaluation of a script agree.  In one direction this is
an induction over the evaluation: whatever it makes of a world, the machine makes of it too.  In the
other direction a statement either has a result, or the machine is still busy with it after any
number of instructions.

* `Leads` — the machine makes of a world what a result says.
* `Script.Runs.followed`, `Script.Runs.leads` — the machine follows the evaluation.
* `Script.Compiles.proceeds` — without a result the machine goes on forever.
-/

set_option autoImplicit false
namespace KarelRobot

open Assembly Machine

variable {script : Script} {main c : Command} {p : Program} {b : Bindings} {stack : List Value}
  {w w' : World} {depth start : Nat} {events : List Event}

/-! ## Conditions -/

/-- A test goes on behind itself if the condition holds, and at its target if not. -/
theorem Program.Tests.reaches {commands : List Command} {condition : Condition} {target : Nat}
    {value : Bool} (h : p.Tests commands condition start target)
    (hvalue : condition.value w = .ok value) :
    Reaches p ⟨w, start, stack, depth, false, events⟩
      ⟨w, if value then start + condition.core.code.length + 1 else target, stack, depth, false,
        events⟩ := by
  have hfits : (Condition.branch condition.negations (operand target)).Fits := by
    refine Op.fits_of_some ?_ (operand_lt h.bound)
    rw [Condition.branch]
    split <;> rfl
  obtain ⟨position, hget⟩ := h.branch
  have hslice := Condition.runSlice_core h.holds.carries
    (by rw [hget, Option.bind_some, Instruction.op?_ofOp hfits]) hvalue stack depth events
  rw [toNat_operand h.bound] at hslice
  exact ⟨_, hslice⟩

theorem Program.Tests.reaches_body {commands : List Command} {condition : Condition} {target : Nat}
    (h : p.Tests commands condition start target) (hvalue : condition.value w = .ok true) :
    Reaches p ⟨w, start, stack, depth, false, events⟩
      ⟨w, start + condition.core.code.length + 1, stack, depth, false, events⟩ :=
  h.reaches hvalue

theorem Program.Tests.reaches_target {commands : List Command} {condition : Condition}
    {target : Nat} (h : p.Tests commands condition start target)
    (hvalue : condition.value w = .ok false) :
    Reaches p ⟨w, start, stack, depth, false, events⟩ ⟨w, target, stack, depth, false, events⟩ :=
  h.reaches hvalue

/-- A jump goes on at its target. -/
theorem step_jump {target : Nat} (h : p.Has start (.jump (operand target)))
    (hbound : target < Program.maxSize) :
    step p ⟨w, start, stack, depth, false, events⟩ =
      (⟨w, target, stack, depth, false, events⟩, .paused) := by
  refine step_of_has h (Op.fits_of_some rfl (operand_lt hbound)) rfl fun _ => ?_
  rw [execute, toNat_operand hbound]
  rfl

/-! ## Results -/

/-- The machine makes of its world what the result says: it goes on at the address `pc` with this
stack, or stops in front of the call that failed. -/
def Leads (script : Script) (p : Program) (m : Machine) (pc : Nat) (stack : List Value)
    (depth : Nat) : Result → Prop
  | .done w => ∃ events, Reaches p m ⟨w, pc, stack, depth, false, events⟩
  | .failed fault target w =>
    (∃ call ∈ script.calls, call.target = target) ∧
      ∃ m', Stops p m m' (.failed (.world fault)) ∧ m'.world = w ∧
        (m'.current? p).bind Instruction.position = some target.position

namespace Leads

variable {m m' : Machine} {pc pc' depth' : Nat} {stack' : List Value} {r : Result}

theorem of_reaches (h : Reaches p m m') (h' : Leads script p m' pc stack depth r) :
    Leads script p m pc stack depth r := by
  cases r with
  | done w' =>
    obtain ⟨events, hevents⟩ := h'
    exact ⟨events, h.trans hevents⟩
  | failed fault target w' =>
    obtain ⟨hcall, m'', hstops, hm''⟩ := h'
    exact ⟨hcall, m'', h.stops hstops, hm''⟩

/-- What does not depend on how a statement went may come behind it. -/
theorem then_reaches (h : Leads script p m pc stack depth r)
    (h' : ∀ w events, ∃ events', Reaches p ⟨w, pc, stack, depth, false, events⟩
      ⟨w, pc', stack', depth', false, events'⟩) : Leads script p m pc' stack' depth' r := by
  cases r with
  | done w' =>
    obtain ⟨events, hevents⟩ := h
    obtain ⟨events', hevents'⟩ := h' w' events
    exact ⟨events', hevents.trans hevents'⟩
  | failed fault target w' => exact h

/-- A statement that comes to an end may be followed by another one. -/
theorem then_leads (h : Leads script p m pc stack depth (.done w))
    (h' : ∀ events, Leads script p ⟨w, pc, stack, depth, false, events⟩ pc' stack' depth' r) :
    Leads script p m pc' stack' depth' r := by
  obtain ⟨events, hevents⟩ := h
  exact of_reaches hevents (h' events)

end Leads

/-! ## Loops that are repeated -/

/-- The machine before the next round of a loop of which some rounds are left. -/
def looping (w : World) (bodyStart behind : Nat) (stack : List Value) (depth : Nat)
    (events : List Event) : Nat → Machine
  | 0 => ⟨w, behind, stack, depth, false, events⟩
  | times + 1 => ⟨w, bodyStart, .loopCounter (operand (times + 1)) :: stack, depth, false, events⟩

theorem Serves.loopCounter {commands : List Command} (h : Serves commands c b stack)
    (n : UInt16) : Serves commands c b (.loopCounter n :: stack) :=
  ⟨h.mem, h.names, h.passed, rfl⟩

/-- Pushing the counter of a loop leads to its first round. -/
theorem reaches_push {behind times : Nat} (hpush : p.Has start (.push (operand times)))
    (hpositive : 0 < times) (htimes : times < Program.maxSize) :
    Reaches p ⟨w, start, stack, depth, false, events⟩
      (looping w (start + 1) behind stack depth events times) := by
  obtain ⟨rounds, rfl⟩ : ∃ rounds, times = rounds + 1 := ⟨times - 1, by omega⟩
  exact .of_step (step_of_has hpush (Op.fits_of_some rfl (operand_lt htimes)) rfl fun _ => rfl)

/-- Counting a loop down leads to its next round. -/
theorem reaches_looping {bodyStart behind times : Nat}
    (hloop : p.Has behind (.loop (operand bodyStart))) (hbody : bodyStart < Program.maxSize)
    (htimes : times + 1 < Program.maxSize) :
    Reaches p
      ⟨w, behind, .loopCounter (operand (times + 1)) :: stack, depth, false, events⟩
      (looping w bodyStart (behind + 1) stack depth events times) := by
  have hfits : (Op.loop (operand bodyStart)).Fits := Op.fits_of_some rfl (operand_lt hbody)
  refine .of_step (step_of_has hloop hfits rfl fun _ => ?_)
  cases times with
  | zero => rfl
  | succ times =>
    have hlt : 1 < operand (times + 1 + 1) := by
      rw [UInt16.lt_iff_toNat_lt, toNat_operand htimes]
      exact Nat.lt_add_left_iff_pos.2 (Nat.succ_pos _)
    have hcount : operand (times + 1 + 1) - 1 = operand (times + 1) := by
      rw [operand, operand, UInt16.ofNat_add (times + 1) 1]
      exact UInt16.add_sub_cancel _ _
    simp only [execute, loop, if_pos hlt, hcount, jump, toNat_operand hbody, looping]

/-! ## The machine follows the evaluation -/

/-- Wherever the statement stands, the machine makes of a world what the result says. -/
def Simulated (script : Script) (main : Command) (p : Program) (b : Bindings) (s : Statement)
    (w : World) (r : Result) : Prop :=
  ∀ (c : Command) (start : Nat) (stack : List Value) (depth : Nat) (events : List Event),
    Serves (script.reachable main.name) c b stack →
    p.Contains (script.reachable main.name) c s start →
    Leads script p ⟨w, start, stack, depth, false, events⟩ (start + s.size) stack depth r

/-- The same for the rounds of a loop that are left. -/
def SimulatedLoop (script : Script) (main : Command) (p : Program) (b : Bindings) (times : Nat)
    (body : Block) (w : World) (r : Result) : Prop :=
  ∀ (c : Command) (start : Nat) (stack : List Value) (depth : Nat) (events : List Event),
    Serves (script.reachable main.name) c b stack →
    p.Contains (script.reachable main.name) c (.block body) start →
    p.Has (start + (Statement.block body).size) (.loop (operand start)) →
    times < Program.maxSize →
    Leads script p
      (looping w start (start + (Statement.block body).size + 1) stack depth events times)
      (start + (Statement.block body).size + 1) stack depth r

/-- What the induction over an evaluation shows.  The evaluation of a loop goes on with a loop of
fewer rounds, which stands nowhere in the program, so for loops it is about the rounds left. -/
def Followed (script : Script) (main : Command) (p : Program) (b : Bindings) :
    Statement → World → Result → Prop
  | .repeatTimes _ times body, w, r => SimulatedLoop script main p b times body w r
  | s, w, r => Simulated script main p b s w r

theorem Followed.simulated {s : Statement} {r : Result} (h : Followed script main p b s w r) :
    Simulated script main p b s w r := by
  cases s with
  | repeatTimes position times body =>
    intro c start stack depth events hserves hcontains
    obtain ⟨hpush, hbody, hloop, hlow, hhigh⟩ := hcontains.repeatTimes
    have htimes : times < Program.maxSize := Nat.lt_succ_of_le hhigh
    have hsize : start + (Statement.repeatTimes position times body).size =
        start + 1 + (Statement.block body).size + 1 := by
      rw [Statement.size_repeatTimes]
      omega
    rw [hsize]
    exact .of_reaches (reaches_push hpush (Nat.lt_of_lt_of_le (by decide) hlow) htimes)
      (h c (start + 1) stack depth events hserves hbody hloop htimes)
  | call | ifThen | ifElse | whileLoop | block => exact h

/-- **The machine follows the evaluation of a statement.** -/
theorem Script.Runs.followed {s : Statement} {r : Result} (h : script.Runs b s w r)
    (hcompiles : script.Compiles main p) : Followed script main p b s w r := by
  induction h with
  | @act b call which w w' hmeaning hperform =>
    intro c start stack depth events hserves hcontains
    obtain ⟨hsize, -, hstep⟩ := hserves.call_action hcompiles hcontains hmeaning w depth events
    simp only [perform, hperform] at hstep
    rw [hsize]
    exact ⟨events, .of_step hstep⟩
  | @actFails b call which w fault hmeaning hperform =>
    intro c start stack depth events hserves hcontains
    obtain ⟨-, hposition, hstep⟩ :=
      hserves.call_action hcompiles hcontains hmeaning w depth events
    simp only [perform, hperform] at hstep
    have hcall : call ∈ script.calls := List.mem_flatMap.2
      ⟨c, mem_commands_of_mem_reachable hserves.mem, hcontains.call_mem⟩
    exact ⟨⟨call, hcall, rfl⟩, _, .of_step hstep (by nofun), rfl, hposition⟩
  | @enter b call f meanings w r hmeaning harguments hbody ih =>
    intro c start stack depth events hserves hcontains
    obtain ⟨meanings', inner, harguments', hinner, ⟨ready, entered, hready, hstep⟩, hleave⟩ :=
      hserves.call_command hcompiles hcontains hmeaning w depth events
    rw [harguments] at harguments'
    cases harguments'
    have hbody := ih.simulated f _ inner (depth + 1) entered hinner
      (hcompiles.contains_body hinner.mem)
    refine .of_reaches (hready.trans (.of_step hstep)) (hbody.then_reaches fun w' events' => ?_)
    exact ⟨_, hleave w' events'⟩
  | skip =>
    intro c start stack depth events hserves hcontains
    exact ⟨events, .refl _⟩
  | next hfirst hfollowing ihfirst ihfollowing =>
    intro c start stack depth events hserves hcontains
    rw [Statement.size_cons, ← Nat.add_assoc]
    refine (ihfirst.simulated c start stack depth events hserves hcontains.first).then_leads ?_
    exact fun events => ihfollowing.simulated c _ stack depth events hserves hcontains.following
  | nextFails hfirst ih =>
    intro c start stack depth events hserves hcontains
    exact ih.simulated c start stack depth events hserves hcontains.first
  | repeatDone =>
    intro c start stack depth events hserves hcontains hloop htimes
    exact ⟨events, .refl _⟩
  | @repeatMore b position times body w w' r hbody hmore ihbody ihmore =>
    intro c start stack depth events hserves hcontains hloop htimes
    have hstart := Nat.lt_of_le_of_lt (Nat.le_add_right _ _) hcontains.bound
    have hround := ihbody.simulated c start _ depth events
      (hserves.loopCounter (operand (times + 1))) hcontains
    refine hround.then_leads fun events' => .of_reaches (reaches_looping hloop hstart htimes) ?_
    exact ihmore c start stack depth events' hserves hcontains hloop (by omega)
  | repeatFails hbody ih =>
    intro c start stack depth events hserves hcontains hloop htimes
    exact ih.simulated c start _ depth events (hserves.loopCounter _) hcontains
  | @ifThen b position condition body w r hvalue hbody ih =>
    intro c start stack depth events hserves hcontains
    obtain ⟨htest, hinside⟩ := hcontains.ifThen
    rw [Statement.size_ifThen, ← Nat.add_assoc, ← Nat.add_assoc]
    exact .of_reaches (htest.reaches_body hvalue)
      (ih.simulated c _ stack depth events hserves hinside)
  | ifThenSkips hvalue =>
    intro c start stack depth events hserves hcontains
    rw [Statement.size_ifThen, ← Nat.add_assoc, ← Nat.add_assoc]
    exact ⟨events, hcontains.ifThen.1.reaches_target hvalue⟩
  | ifElse hvalue hbody ih =>
    intro c start stack depth events hserves hcontains
    obtain ⟨htest, hinside, hjump, hother⟩ := hcontains.ifElse
    rw [Statement.size_ifElse, ← Nat.add_assoc, ← Nat.add_assoc, ← Nat.add_assoc, ← Nat.add_assoc]
    refine .of_reaches (htest.reaches_body hvalue) ?_
    refine (ih.simulated c _ stack depth events hserves hinside).then_reaches fun w' events' => ?_
    exact ⟨events', Reaches.of_step (step_jump hjump hother.bound)⟩
  | ifElseSkips hvalue hother ih =>
    intro c start stack depth events hserves hcontains
    obtain ⟨htest, -, -, hinside⟩ := hcontains.ifElse
    rw [Statement.size_ifElse, ← Nat.add_assoc, ← Nat.add_assoc, ← Nat.add_assoc, ← Nat.add_assoc]
    exact .of_reaches (htest.reaches_target hvalue)
      (ih.simulated c _ stack depth events hserves hinside)
  | whileMore hvalue hbody hmore ihbody ihmore =>
    intro c start stack depth events hserves hcontains
    obtain ⟨htest, hinside, hjump⟩ := hcontains.whileLoop
    have hstart := Nat.lt_of_le_of_lt (Nat.le_add_right _ _) hcontains.bound
    refine .of_reaches (htest.reaches_body hvalue) ?_
    refine (ihbody.simulated c _ stack depth events hserves hinside).then_leads fun events' => ?_
    exact .of_reaches (.of_step (step_jump hjump hstart))
      (ihmore.simulated c start stack depth events' hserves hcontains)
  | whileFails hvalue hbody ih =>
    intro c start stack depth events hserves hcontains
    obtain ⟨htest, hinside, -⟩ := hcontains.whileLoop
    exact .of_reaches (htest.reaches_body hvalue)
      (ih.simulated c _ stack depth events hserves hinside)
  | whileDone hvalue =>
    intro c start stack depth events hserves hcontains
    rw [Statement.size_whileLoop, ← Nat.add_assoc, ← Nat.add_assoc, ← Nat.add_assoc]
    exact ⟨events, hcontains.whileLoop.1.reaches_target hvalue⟩

theorem Script.Runs.leads {s : Statement} {r : Result} (h : script.Runs b s w r)
    (hcompiles : script.Compiles main p) (hserves : Serves (script.reachable main.name) c b stack)
    (hcontains : p.Contains (script.reachable main.name) c s start) (depth : Nat)
    (events : List Event) :
    Leads script p ⟨w, start, stack, depth, false, events⟩ (start + s.size) stack depth r :=
  (h.followed hcompiles).simulated c start stack depth events hserves hcontains

/-! ## Without a result the machine goes on -/

/-- The statement has a result, or the machine is still busy with it after `n` instructions. -/
def Proceeds (script : Script) (p : Program) (b : Bindings) (s : Statement) (n : Nat)
    (m : Machine) : Prop :=
  (∃ r, script.Runs b s m.world r) ∨ Lasts p n m

/-- What holds of the body of a loop holds of all the rounds that are left. -/
theorem proceeds_loop {n : Nat} {body : Block} (position : Nat)
    (hcompiles : script.Compiles main p) (hserves : Serves (script.reachable main.name) c b stack)
    (hcontains : p.Contains (script.reachable main.name) c (.block body) start)
    (hloop : p.Has (start + (Statement.block body).size) (.loop (operand start)))
    (hbody : ∀ (stack : List Value) (w : World) (events : List Event),
      Serves (script.reachable main.name) c b stack → w.robot.OnGrid →
        Proceeds script p b (.block body) n ⟨w, start, stack, depth, false, events⟩)
    (times : Nat) (htimes : times < Program.maxSize) (hgrid : w.robot.OnGrid)
    (events : List Event) :
    (∃ r, script.Runs b (.repeatTimes position times body) w r) ∨
      Lasts p n
        (looping w start (start + (Statement.block body).size + 1) stack depth events times) := by
  induction times generalizing w events with
  | zero => exact .inl ⟨_, .repeatDone⟩
  | succ times ih =>
    have hserves' := hserves.loopCounter (operand (times + 1))
    rcases hbody _ w events hserves' hgrid with ⟨r, hr⟩ | hlasts
    · cases r with
      | done w' =>
        obtain ⟨events', hround⟩ := hr.leads hcompiles hserves' hcontains depth events
        have hstart := Nat.lt_of_le_of_lt (Nat.le_add_right _ _) hcontains.bound
        have hcount := hround.trans (reaches_looping hloop hstart htimes)
        rcases ih (Nat.lt_of_succ_lt htimes) (hr.onGrid hgrid) events' with ⟨r, hmore⟩ | hlasts
        · exact .inl ⟨r, .repeatMore hr hmore⟩
        · exact .inr (hcount.lasts hlasts)
      | failed fault target w' => exact .inl ⟨_, .repeatFails hr⟩
    · exact .inr hlasts

/-- **A statement without a result keeps the machine busy forever.**  The induction is over the
number of instructions, which becomes smaller with each call and each round of a loop, and inside
over the statement. -/
theorem Script.Compiles.proceeds (hcompiles : script.Compiles main p) (n : Nat) (s : Statement)
    (hserves : Serves (script.reachable main.name) c b stack)
    (hcontains : p.Contains (script.reachable main.name) c s start) (hgrid : w.robot.OnGrid)
    (depth : Nat) (events : List Event) :
    Proceeds script p b s n ⟨w, start, stack, depth, false, events⟩ := by
  induction n generalizing c b s stack start w depth events with
  | zero => exact .inr ⟨_, rfl⟩
  | succ n ih =>
    induction s using Statement.induction generalizing stack start w depth events with
    | call call =>
      obtain ⟨meaning, hmeaning, -, -⟩ := hserves.exists_meaning hcompiles
        (hcompiles.located_target hserves.mem hcontains.call_mem)
      cases meaning with
      | action which => exact .inl (exists_runs_action hmeaning w)
      | command f =>
        obtain ⟨meanings, inner, harguments, hinner, ⟨ready, entered, hready, hstep⟩, -⟩ :=
          hserves.call_command hcompiles hcontains hmeaning w depth events
        rcases ih (.block f.body) hinner (hcompiles.contains_body hinner.mem) hgrid (depth + 1)
          entered with ⟨r, hr⟩ | hlasts
        · exact .inl ⟨r, .enter hmeaning harguments hr⟩
        · exact .inr (hready.lasts (.of_step hstep hlasts))
    | nil opening closing => exact .inl ⟨_, .skip⟩
    | cons opening first following closing hfirst hfollowing =>
      rcases hfirst hserves hcontains.first hgrid depth events with ⟨r, hr⟩ | hlasts
      · cases r with
        | done w' =>
          obtain ⟨events', hreaches⟩ := hr.leads hcompiles hserves hcontains.first depth events
          rcases hfollowing hserves hcontains.following (hr.onGrid hgrid) depth events' with
            ⟨r, hrest⟩ | hlasts
          · exact .inl ⟨r, .next hr hrest⟩
          · exact .inr (hreaches.lasts hlasts)
        | failed fault target w' => exact .inl ⟨_, .nextFails hr⟩
      · exact .inr hlasts
    | repeatTimes position times body hbody =>
      obtain ⟨hpush, hinside, hloop, hlow, hhigh⟩ := hcontains.repeatTimes
      have htimes : times < Program.maxSize := Nat.lt_succ_of_le hhigh
      rcases proceeds_loop position hcompiles hserves hinside hloop
        (fun stack w events hserves hgrid => hbody hserves hinside hgrid depth events) times htimes
        hgrid events with hr | hlasts
      · exact .inl hr
      · have hpositive : 0 < times := Nat.lt_of_lt_of_le (by decide) hlow
        exact .inr ((reaches_push hpush hpositive htimes).lasts hlasts)
    | ifThen position condition body hbody =>
      obtain ⟨htest, hinside⟩ := hcontains.ifThen
      obtain ⟨value, hvalue⟩ := condition.exists_value hgrid
      cases value with
      | true =>
        rcases hbody hserves hinside hgrid depth events with ⟨r, hr⟩ | hlasts
        · exact .inl ⟨r, .ifThen hvalue hr⟩
        · exact .inr ((htest.reaches_body hvalue).lasts hlasts)
      | false => exact .inl ⟨_, .ifThenSkips hvalue⟩
    | ifElse position condition body otherwise hbody hother =>
      obtain ⟨htest, hinside, -, hotherwise⟩ := hcontains.ifElse
      obtain ⟨value, hvalue⟩ := condition.exists_value hgrid
      cases value with
      | true =>
        rcases hbody hserves hinside hgrid depth events with ⟨r, hr⟩ | hlasts
        · exact .inl ⟨r, .ifElse hvalue hr⟩
        · exact .inr ((htest.reaches_body hvalue).lasts hlasts)
      | false =>
        rcases hother hserves hotherwise hgrid depth events with ⟨r, hr⟩ | hlasts
        · exact .inl ⟨r, .ifElseSkips hvalue hr⟩
        · exact .inr ((htest.reaches_target hvalue).lasts hlasts)
    | whileLoop position condition body hbody =>
      obtain ⟨htest, hinside, hjump⟩ := hcontains.whileLoop
      obtain ⟨value, hvalue⟩ := condition.exists_value hgrid
      cases value with
      | true =>
        rcases hbody hserves hinside hgrid depth events with ⟨r, hr⟩ | hlasts
        · cases r with
          | done w' =>
            obtain ⟨events', hround⟩ := hr.leads hcompiles hserves hinside depth events
            have hstart := Nat.lt_of_le_of_lt (Nat.le_add_right _ _) hcontains.bound
            rcases ih (.whileLoop position condition body) hserves hcontains (hr.onGrid hgrid)
              depth events' with ⟨r, hmore⟩ | hlasts
            · exact .inl ⟨r, .whileMore hvalue hr hmore⟩
            · have hbehind := hround.lasts (.of_step (step_jump hjump hstart) hlasts)
              exact .inr ((htest.reaches_body hvalue).lasts hbehind)
          | failed fault target w' => exact .inl ⟨_, .whileFails hvalue hr⟩
        · exact .inr ((htest.reaches_body hvalue).lasts hlasts)
      | false => exact .inl ⟨_, .whileDone hvalue⟩

end KarelRobot
