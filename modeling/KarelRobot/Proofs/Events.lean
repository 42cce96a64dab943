import KarelRobot.Proofs.Effects
import KarelRobot.Proofs.Nesting
import KarelRobot.Proofs.Segments
import Mathlib.Data.List.Forall2

/-!
# What a debugger is told

A debugger learns of calls and returns only, one event for each.  For a program that `compile`
returns this is enough to know the call stack: the calls that it was told of and that have not been
left are those whose return addresses are on the stack.

* `openCalls` — the calls that are open after some events.
* `Balanced` — events in which every call is left.
* `Machine.Mirrors` — the open calls are those of the stack.
* `Machine.Tells` — what an instruction tells the debugger.
* `events_mirror_callStack` — instructions tell no more and no less, and the open calls are those of
  the stack.
-/

set_option autoImplicit false
namespace KarelRobot

open Assembly Machine

/-! ## Open calls -/

/-- A call that has not been left: the instruction that calls, and the one that the command will be
left by. -/
structure OpenCall where
  site : Instruction
  closing : Instruction

/-- The calls that are open after some events, the latest first as the events are.  A return closes
the latest call, and there has to be one. -/
def openCalls : List Event → Option (List OpenCall)
  | [] => some []
  | .entered site closing :: earlier => (openCalls earlier).map (⟨site, closing⟩ :: ·)
  | .left :: earlier => (openCalls earlier).bind List.tail?
  | .gaveUp :: _ => none

/-- Events, the earliest first, in which every call is left and nothing else is. -/
inductive Balanced : List Event → Prop
  | nil : Balanced []
  | call (site closing : Instruction) {inner following : List Event} (hinner : Balanced inner)
      (hfollowing : Balanced following) :
      Balanced (.entered site closing :: (inner ++ .left :: following))

/-- Events that leave `n` calls of before, and are balanced otherwise. -/
inductive Unwinds : (n : Nat) → List Event → Prop
  | settled {events : List Event} (h : Balanced events) : Unwinds 0 events
  | leave {n : Nat} {inner following : List Event} (hinner : Balanced inner)
      (h : Unwinds n following) : Unwinds (n + 1) (inner ++ .left :: following)

theorem Unwinds.call {n : Nat} {inner following : List Event} (h : Unwinds n following)
    (site closing : Instruction) (hinner : Balanced inner) :
    Unwinds n (.entered site closing :: (inner ++ .left :: following)) := by
  cases h with
  | settled h => exact .settled (.call site closing hinner h)
  | @leave n inner' following' hinner' h =>
    have hleave := Unwinds.leave (.call site closing hinner hinner') h
    rwa [List.cons_append, List.append_assoc, List.cons_append] at hleave

theorem unwinds_replicate (n : Nat) : Unwinds n (List.replicate n .left) := by
  induction n with
  | zero => exact .settled .nil
  | succ n ih => exact .leave .nil ih

/-- Events are balanced once the open calls have been left. -/
theorem balanced_of_unwinds {events rest : List Event} {calls : List OpenCall}
    (h : openCalls events = some calls) (hrest : Unwinds calls.length rest) :
    Balanced (events.reverse ++ rest) := by
  -- The latest event is the first one of the list, so each of them goes over to what follows.
  induction events generalizing calls rest with
  | nil =>
    cases h
    cases hrest with
    | settled hrest => exact hrest
  | cons event earlier ih =>
    rw [List.reverse_cons, List.append_assoc, List.singleton_append]
    cases event with
    | entered site closing =>
      obtain ⟨following, hfollowing, rfl⟩ := Option.map_eq_some_iff.1 h
      cases hrest with
      | leave hinner hrest => exact ih hfollowing (hrest.call site closing hinner)
    | left =>
      obtain ⟨following, hfollowing, htail⟩ := Option.bind_eq_some_iff.1 h
      cases following with
      | nil => cases htail
      | cons call following =>
        cases htail
        exact ih hfollowing (.leave .nil hrest)
    | gaveUp => cases h

/-! ## Where commands are left -/

section Closing

variable {script : Script} {main c : Command} {p : Program}

/-- No instruction in the body of a command leaves it. -/
theorem Script.Compiles.exists_inside (h : script.Compiles main p)
    (hc : c ∈ script.reachable main.name) {a : Nat}
    (hlow : address (script.reachable main.name) c.name ≤ a)
    (hhigh : a < address (script.reachable main.name) c.name + (Statement.block c.body).size) :
    ∃ i op, p.get? a = some i ∧ i.op? = some op ∧ op ≠ .ret := by
  obtain ⟨s, hs, rfl, -⟩ := h.exists_segment hc
  obtain ⟨hmem, hstart, -⟩ := h.mem_segments hs
  obtain ⟨op, position, hget, hstands⟩ := h.stands hmem a hlow hhigh
  rw [← hstart] at hlow hhigh hstands
  obtain ⟨hfits, hret, -⟩ := h.admits hs hlow hhigh hstands
  exact ⟨_, op, hget, Instruction.op?_ofOp hfits position, hret⟩

theorem Program.returnFrom?_of_get? {start : Nat} {i : Instruction} (h : p.get? start = some i) :
    p.returnFrom? start = if i.isReturn then some i else p.returnFrom? (start + 1) := by
  obtain ⟨hlt, rfl⟩ := Array.getElem?_eq_some_iff.1 h
  rw [returnFrom?, dif_pos hlt]

/-- The search for a return ends at the first one. -/
theorem Program.returnFrom?_eq {start : Nat} {closing : Instruction} (k : Nat)
    (hinside : ∀ a, start ≤ a → a < start + k → ∃ i, p.get? a = some i ∧ i.isReturn = false)
    (hget : p.get? (start + k) = some closing) (hreturn : closing.isReturn = true) :
    p.returnFrom? start = some closing := by
  induction k generalizing start with
  | zero => exact (returnFrom?_of_get? hget).trans (if_pos hreturn)
  | succ k ih =>
    obtain ⟨i, hi, hnot⟩ := hinside start (Nat.le_refl _) (by omega)
    rw [returnFrom?_of_get? hi, hnot]
    refine ih (fun a hlow hhigh => hinside a (by omega) (by omega)) ?_
    rwa [Nat.add_right_comm]

/-- **From the address of a command its own end is found.** -/
theorem Script.Compiles.returnFrom?_address (h : script.Compiles main p)
    (hc : c ∈ script.reachable main.name) :
    p.returnFrom? (address (script.reachable main.name) c.name) =
      some (.ofOp .ret c.body.closing) := by
  refine Program.returnFrom?_eq _ (fun a hlow hhigh => ?_) (h.get?_ret hc) rfl
  obtain ⟨i, op, hget, hop, hne⟩ := h.exists_inside hc hlow hhigh
  exact ⟨i, hget, Instruction.isReturn_eq_false hop hne⟩

end Closing

/-! ## Frames and open calls -/

/-- The calls that frames were entered by.  The instruction of the caller has made the call, and it
will end with the command of the frame. -/
inductive Opened (p : Program) : Frame → List Frame → List OpenCall → Prop
  | nil (f : Frame) : Opened p f [] []
  | cons {f caller : Frame} {callers : List Frame} {call : OpenCall} {calls : List OpenCall}
      (hsite : p.get? caller.site = some call.site)
      (hclosing : call.closing = .ofOp .ret f.command.body.closing)
      (h : Opened p caller callers calls) : Opened p f (caller :: callers) (call :: calls)

/-- The debugger was told of the calls that the frames of a machine were entered by. -/
def Watched (script : Script) (p : Program) (main : Command) (m : Machine)
    (calls : List OpenCall) : Prop :=
  m.world.robot.OnGrid ∧ openCalls m.events = some calls ∧ ∃ top callers booleans pushed,
    Framed p (script.reachable main.name) main m top callers booleans pushed ∧
      Opened p top callers calls

section Watching

variable {script : Script} {main : Command} {p : Program} {commands : List Command} {m : Machine}
  {top f : Frame} {callers following : List Frame} {booleans values : List Bool}
  {pushed words : List UInt16} {r : Machine × Outcome} {calls : List OpenCall}

theorem Opened.congr (h : Opened p top callers calls) (hcommand : f.command = top.command) :
    Opened p f callers calls := by
  cases h with
  | nil => exact .nil f
  | cons hsite hclosing h => exact .cons hsite (by rw [hcommand]; exact hclosing) h

/-- Entering a command opens the call that the debugger is told of. -/
theorem Opened.enter (hcompiles : script.Compiles main p) (h : Opened p top callers calls)
    (hsite : m.pc = top.site) (hevents : openCalls m.events = some calls)
    (heffect : Effect p m r) (hdepth : r.1.callDepth = m.callDepth + 1)
    (hmem : f.command ∈ script.reachable main.name)
    (hpc : r.1.pc = address (script.reachable main.name) f.command.name) :
    ∃ calls', openCalls r.1.events = some calls' ∧ Opened p f (top :: callers) calls' := by
  obtain ⟨site, closing, op, hexecutes, -, hclosing, htold⟩ := heffect.entered hdepth
  rw [hpc, hcompiles.returnFrom?_address hmem] at hclosing
  refine ⟨⟨site, closing⟩ :: calls, ?_, .cons ?_ (Option.some_inj.1 hclosing).symm h⟩
  · rw [htold, openCalls, hevents, Option.map_some]
  · rw [← hsite]
    exact hexecutes.current

/-- **An instruction keeps the open calls those of the frames.** -/
theorem Opened.next (hcompiles : script.Compiles main p) (h : Opened p top callers calls)
    (hframed : Framed p (script.reachable main.name) main m top callers booleans pushed)
    (hevents : openCalls m.events = some calls) (heffect : Effect p m r)
    (hmoves : Moves script p (script.reachable main.name) m top callers booleans pushed f following
      values words r) :
    ∃ calls', openCalls r.1.events = some calls' ∧ Opened p f following calls' := by
  have hdepth := hframed.depth
  cases hmoves with
  | goesOn => exact ⟨calls, hevents, h.congr rfl⟩
  | fails | finishes => exact ⟨calls, hevents, h⟩
  | calls hd =>
    exact h.enter hcompiles hframed.site hevents heffect (congrArg Nat.succ hdepth.symm) hd rfl
  | callsPassed hd =>
    exact h.enter hcompiles hframed.site hevents heffect (congrArg Nat.succ hdepth.symm) hd rfl
  | leaves hcallers =>
    subst hcallers
    cases h with
    | @cons _ _ _ call calls _ _ h =>
      refine ⟨calls, ?_, h.congr rfl⟩
      rw [running, openCalls, hevents]
      rfl

theorem Watched.step (hcompiles : script.Compiles main p) (h : Watched script p main m calls) :
    ∃ calls', Watched script p main (m.step p).1 calls' := by
  obtain ⟨hgrid, hevents, top, callers, booleans, pushed, hframed, hopened⟩ := h
  by_cases hfinished : m.finished = true
  · rw [Machine.step, if_pos hfinished]
    exact ⟨calls, hgrid, hevents, top, callers, booleans, pushed, hframed, hopened⟩
  · obtain ⟨f, following, values, words, hmoves⟩ :=
      hframed.exists_moves hcompiles hgrid (Bool.eq_false_iff.2 hfinished)
    obtain ⟨hnext, hgrid', -⟩ := hframed.next hgrid hmoves
    obtain ⟨calls', hevents', hopened'⟩ :=
      hopened.next hcompiles hframed hevents (effect_step p m) hmoves
    exact ⟨calls', hgrid', hevents', f, following, values, words, hnext, hopened'⟩

theorem Watched.after (hcompiles : script.Compiles main p) (h : Watched script p main m calls)
    (count : Nat) : ∃ calls', Watched script p main (m.after p count) calls' := by
  induction count generalizing m calls with
  | zero => exact ⟨calls, h⟩
  | succ count ih =>
    obtain ⟨calls', h'⟩ := h.step hcompiles
    exact ih h'

theorem Script.Compiles.watched_start (h : script.Compiles main p) {w : World}
    (hgrid : w.robot.OnGrid) : Watched script p main (Machine.start w) [] :=
  ⟨hgrid, rfl, _, _, _, _, h.framed_start w, .nil _⟩

end Watching

/-! ## What instructions tell -/

/-- The address that a value returns to. -/
def Machine.Value.returnAddress? : Value → Option UInt16
  | .returnAddress address => some address
  | _ => none

namespace Machine

/-- The return addresses on the stack, the latest first. -/
def returnAddresses (m : Machine) : List UInt16 :=
  m.stack.filterMap Value.returnAddress?

/-- The debugger was told of the calls that the stack will return from: there are as many as calls
that have not returned, and each was made by the instruction that it will return behind. -/
structure Mirrors (p : Program) (m : Machine) (calls : List OpenCall) : Prop where
  told : openCalls m.events = some calls
  depth : calls.length = m.callDepth
  sites : List.Forall₂ (fun call address => p.get? address.toNat = some call.site) calls
    m.returnAddresses

/-- What an instruction tells the debugger on its way to the machine `next`, if it runs in a program
of some segments and some calls are open. -/
inductive Tells (p : Program) (segments : List Segment) (m : Machine) (calls : List OpenCall)
    (next : Machine) : List Event → Prop
  | rests (hfinished : m.finished = true) : Tells p segments m calls next []
  | computes {site : Instruction} {op : Op} (hexecutes : m.Executes p site op)
      (hop : op.IsInternal) : Tells p segments m calls next []
  /-- A built-in command is no call, not even through a parameter. -/
  | acts {site : Instruction} {op : Op} {which : Action} (hexecutes : m.Executes p site op)
      (hperforms : m.Performs which op) : Tells p segments m calls next []
  /-- The command to start with was not called. -/
  | finishes {site : Instruction} (hexecutes : m.Executes p site .ret) (hstack : m.stack = [])
      (hcalls : calls = []) : Tells p segments m calls next []
  /-- A call reports itself, and the end of the command that is entered. -/
  | enters {site : Instruction} {op : Op} {s : Segment} (hs : s ∈ segments)
      (hexecutes : m.Executes p site op) (hcalls : m.CallsAt s.start op)
      (hpc : next.pc = s.start)
      (hlast : s.code.getLast? = some (.ofOp .ret s.command.body.closing)) :
      Tells p segments m calls next [.entered site (.ofOp .ret s.command.body.closing)]
  /-- A return closes the call behind which it returns, and it is the one that was reported. -/
  | leaves {site : Instruction} {caller : UInt16} {stack : List Value} {call : OpenCall}
      {following : List OpenCall} (hexecutes : m.Executes p site .ret)
      (hstack : m.stack = .returnAddress caller :: stack) (hcalls : calls = call :: following)
      (hsite : p.get? caller.toNat = some call.site) (hclosing : call.closing = site)
      (hpc : next.pc = caller.toNat + 1) : Tells p segments m calls next [.left]

end Machine

section Telling

variable {script : Script} {main : Command} {p : Program} {commands : List Command} {m : Machine}
  {top f : Frame} {callers following : List Frame} {booleans values : List Bool}
  {pushed words : List UInt16} {r : Machine × Outcome} {calls : List OpenCall}

theorem Frame.returnAddresses_base (arguments : List UInt16) (callers : List Frame) :
    (Frame.base arguments callers).filterMap Value.returnAddress? =
      callers.map fun f => operand f.site := by
  induction callers generalizing arguments with
  | nil => rfl
  | cons caller callers ih =>
    simp [Frame.base, ih, Value.returnAddress?, List.filterMap_map, Function.comp_def]

theorem Framed.returnAddresses_eq (h : Framed p commands main m top callers booleans pushed) :
    m.returnAddresses = callers.map fun f => operand f.site := by
  simp [returnAddresses, h.stack, Frame.stack, Frame.returnAddresses_base, Value.returnAddress?,
    List.filterMap_map, Function.comp_def]

/-- Every open call was made by the instruction that it will return behind. -/
theorem Opened.sites (hcompiles : script.Compiles main p)
    (hactive : Active p (script.reachable main.name) main top callers)
    (h : Opened p top callers calls) :
    List.Forall₂ (fun call (address : UInt16) => p.get? address.toNat = some call.site) calls
      (callers.map fun f => operand f.site) := by
  induction h with
  | nil => exact .nil
  | cons hsite hclosing h ih =>
    cases hactive with
    | called hmem hlength hpassable hcalls hat hreturn hcaller =>
      have hlt := hcompiles.at_lt (hcaller.mem hcompiles) hat
      exact .cons (by rw [toNat_operand hlt]; exact hsite) (ih hcaller)

theorem Watched.mirrors (hcompiles : script.Compiles main p)
    (h : Watched script p main m calls) : Mirrors p m calls := by
  obtain ⟨-, hevents, top, callers, booleans, pushed, hframed, hopened⟩ := h
  have hsites := hopened.sites hcompiles hframed.active
  refine ⟨hevents, ?_, by rw [hframed.returnAddresses_eq]; exact hsites⟩
  rw [hsites.length_eq, List.length_map, hframed.depth]

/-- The topmost command is left at its end only. -/
theorem Framed.eq_of_executes_ret (hcompiles : script.Compiles main p)
    (h : Framed p (script.reachable main.name) main m top callers booleans pushed)
    {site : Instruction} (hexecutes : m.Executes p site .ret) :
    site = .ofOp .ret top.command.body.closing := by
  have hmem := h.active.mem hcompiles
  have hcurrent : p.get? top.site = some site := by
    rw [← h.site]
    exact hexecutes.current
  obtain ⟨hlow, hhigh⟩ := h.shape.bounds
  rcases Nat.lt_or_eq_of_le hhigh with hlt | heq
  · obtain ⟨i, op, hget, hop, hne⟩ := hcompiles.exists_inside hmem hlow hlt
    rw [hcurrent] at hget
    cases hget
    rw [hexecutes.op] at hop
    exact absurd (Option.some_inj.1 hop).symm hne
  · rw [heq, hcompiles.get?_ret hmem] at hcurrent
    exact (Option.some_inj.1 hcurrent).symm

/-- Nothing fails but actions that the world does not allow. -/
theorem Moves.world_of_failed {fault : Fault}
    (h : Moves script p commands m top callers booleans pushed f following values words r)
    (hfailed : r.2 = .failed fault) : ∃ reason, fault = .world reason := by
  cases h with
  | goesOn | calls | callsPassed | leaves | finishes => cases hfailed
  | fails =>
    cases hfailed
    exact ⟨_, rfl⟩

/-- Calls get deeper only where a command of the program is entered. -/
theorem Moves.exists_command
    (h : Moves script p commands m top callers booleans pushed f following values words r)
    (hdepth : m.callDepth = callers.length) (hdeeper : r.1.callDepth = m.callDepth + 1) :
    ∃ d ∈ commands, r.1.pc = address commands d.name := by
  cases h with
  | goesOn | fails | finishes => simp only [running] at hdeeper; omega
  | calls hd | callsPassed hd => exact ⟨_, hd, rfl⟩
  | leaves hcallers =>
    rw [hcallers, List.length_cons] at hdepth
    simp only [running] at hdeeper
    omega

/-- The end of a segment is the end of its command. -/
theorem Segment.Closed.getLast?_code {s : Segment} (h : s.Closed) :
    s.code.getLast? = some (.ofOp .ret s.command.body.closing) := by
  obtain ⟨inside, hcode, -⟩ := h
  rw [hcode, List.getLast?_concat]

/-- **What an instruction tells the debugger.** -/
theorem Watched.tells (hcompiles : script.Compiles main p) (h : Watched script p main m calls) :
    ∃ told, m.Tells p (p.segments (script.reachable main.name)) calls (m.step p).1 told ∧
      (m.step p).1.events = told ++ m.events := by
  have hmirrors := h.mirrors hcompiles
  have heffect := effect_step p m
  obtain ⟨hgrid, hevents, top, callers, booleans, pushed, hframed, hopened⟩ := h
  by_cases hfinished : m.finished = true
  · rw [Machine.step, if_pos hfinished]
    exact ⟨[], .rests hfinished, rfl⟩
  obtain ⟨f, following, values, words, hmoves⟩ :=
    hframed.exists_moves hcompiles hgrid (Bool.eq_false_iff.2 hfinished)
  generalize m.step p = r at heffect hmoves ⊢
  have hsites := hmirrors.sites
  -- `heffect` gives what the debugger is told; `hmoves` rules out what compiled code does not do.
  cases heffect with
  | rests hfinished' => exact absurd hfinished' hfinished
  | finishes hexecutes hstack =>
    rw [returnAddresses, hstack, List.filterMap_nil, List.forall₂_nil_right_iff] at hsites
    exact ⟨[], .finishes hexecutes hstack hsites, rfl⟩
  | refused hexecutes hperforms | acts hexecutes hperforms =>
    exact ⟨[], .acts hexecutes hperforms, rfl⟩
  | fails _ hworld =>
    obtain ⟨reason, hreason⟩ := hmoves.world_of_failed rfl
    exact absurd hreason (hworld hgrid reason)
  | underflows =>
    obtain ⟨reason, hreason⟩ := hmoves.world_of_failed rfl
    cases hreason
  | computes hexecutes hop => exact ⟨[], .computes hexecutes hop, rfl⟩
  | @enters site closing op start hexecutes hcalls hclosing =>
    obtain ⟨d, hd, hpc⟩ := hmoves.exists_command hframed.depth rfl
    obtain ⟨s, hs, rfl, -⟩ := hcompiles.exists_segment hd
    obtain ⟨-, hstart, -⟩ := hcompiles.mem_segments hs
    obtain rfl : start = s.start := hpc.trans hstart.symm
    have hlast := (hcompiles.closed_segment hs).getLast?_code
    rw [hstart, hcompiles.returnFrom?_address hd] at hclosing
    cases hclosing
    exact ⟨_, .enters hs hexecutes hcalls rfl hlast, rfl⟩
  | leaves hexecutes hstack =>
    rw [returnAddresses, hstack] at hsites
    obtain ⟨call, following, hsite, -, rfl⟩ := List.forall₂_cons_right_iff.1 hsites
    cases hopened with
    | cons _ hclosing =>
      have hsame := hclosing.trans (hframed.eq_of_executes_ret hcompiles hexecutes).symm
      exact ⟨_, .leaves hexecutes hstack rfl hsite hsame rfl, rfl⟩

end Telling

/-- **The debugger's events mirror the call stack.**  After any number of instructions the calls
that the debugger was told of and that have not been left are those on the stack.  The next
instruction tells it of a call or a return only: of a call with the end of the command that is
entered, and of a return that closes the call behind which it returns. -/
theorem events_mirror_callStack {source : String} {entry : Option String} {level : Level}
    {p : Program} (h : compile source entry level = .ok p) {w : World} (hgrid : w.robot.OnGrid)
    {count : Nat} {m : Machine} (hm : (Machine.start w).after p count = m) :
    ∃ script main segments, Script.parse source = .ok script ∧
      script.find? (entry.getD script.defaultEntry) = some main ∧
      p.Segmented script (script.reachable main.name) segments ∧
      Balanced (m.events.reverse ++ List.replicate m.callDepth .left) ∧
      ∃ calls told, m.Mirrors p calls ∧ m.Tells p segments calls (m.step p).1 told ∧
        (m.step p).1.events = told ++ m.events := by
  obtain ⟨script, main, hparse, hmain, hcompiles, -⟩ := compiles_of_compile h
  obtain ⟨calls, hwatched⟩ := (hcompiles.watched_start hgrid).after hcompiles count
  rw [hm] at hwatched
  have hmirrors := hwatched.mirrors hcompiles
  obtain ⟨told, htells, htold⟩ := hwatched.tells hcompiles
  refine ⟨script, main, _, hparse, hmain, hcompiles.segmented, ?_, calls, told, hmirrors, htells,
    htold⟩
  exact balanced_of_unwinds hmirrors.told (hmirrors.depth ▸ unwinds_replicate _)

theorem events_mirror_callStack_encore :
    ∃ p m, compile encore none .basics = .ok p ∧ (Machine.start .start).after p 5 = m ∧
      m.callDepth = 3 ∧
      ∃ script main segments, Script.parse encore = .ok script ∧
        script.find? (none.getD script.defaultEntry) = some main ∧
        p.Segmented script (script.reachable main.name) segments ∧
        Balanced (m.events.reverse ++ List.replicate m.callDepth .left) ∧
        ∃ calls told, m.Mirrors p calls ∧ m.Tells p segments calls (m.step p).1 told ∧
          (m.step p).1.events = told ++ m.events := by
  obtain ⟨p, hp, hdepth⟩ := exists_encore
  exact ⟨p, _, hp, rfl, hdepth, events_mirror_callStack hp World.onGrid_start rfl⟩

end KarelRobot
