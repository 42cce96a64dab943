import KarelRobot.Proofs.Shapes

/-!
# The call stack

The one stack of the machine is a stack of frames, one for each command that has been entered and
not left.  A frame starts with what was passed to its command and the return address; above lie the
counters of its loops, and on the topmost frame what its current instruction has to do with.  Every
instruction keeps it so, and therefore finds what it needs.

* `Frame`, `Frame.stack` — an active command, and the stack that active commands make up.
* `Active` — each frame was called by the one below it.
* `Framed`, `Intact` — the stack of a machine is made up of frames.
* `Moves`, `Framed.exists_moves` — what an instruction can do to the frames.
* `Intact.step` — an instruction keeps the stack intact and fails for reasons in the world only.
-/

set_option autoImplicit false
namespace KarelRobot

open Assembly Machine

/-- A word that may be passed on: it denotes a command that takes nothing. -/
def Passable (commands : List Command) (word : UInt16) : Prop :=
  ∃ meaning, Denotes commands word meaning

/-- A command that has been entered and not left. -/
structure Frame where
  command : Command
  /-- What was passed to the command, the last one first. -/
  arguments : List UInt16
  /-- The counters of the loops that are running, the innermost first. -/
  counters : List UInt16
  /-- The next instruction of the topmost command, and the pending call of all others. -/
  site : Nat

namespace Frame

/-- What lies on the stack below the counters of a frame.  The command to start with has nothing
below it; all others have their return address, what was passed to them, and the frames of their
callers. -/
def base (arguments : List UInt16) : List Frame → List Value
  | [] => []
  | caller :: callers =>
    .returnAddress (operand caller.site) :: (arguments.map .command ++
      (caller.counters.map .loopCounter ++ base caller.arguments callers))

/-- The stack of a frame and its callers, without what the next instruction has to do with. -/
def stack (f : Frame) (callers : List Frame) : List Value :=
  f.counters.map .loopCounter ++ base f.arguments callers

end Frame

/-- The pending call of one frame is what the other one was entered by: it names its command, or it
names a parameter through which the command was passed. -/
inductive Calls (p : Program) (commands : List Command) (caller callee : Frame) : Prop
  | direct (h : p.Has caller.site (.call (operand (address commands callee.command.name))))
  | passed {index : UInt16} (h : p.Has caller.site (.callParameter index))
      (hindex : 0 < index.toNat) (hargument : caller.arguments[index.toNat - 1]? =
        some (operand (address commands callee.command.name)))

/-- A frame on top of its callers, down to the command to start with. -/
inductive Active (p : Program) (commands : List Command) (main : Command) :
    Frame → List Frame → Prop
  | entry {f : Frame} (hcommand : f.command = main) (harguments : f.arguments = []) :
      Active p commands main f []
  | called {f caller : Frame} {callers : List Frame} (hmem : f.command ∈ commands)
      (hlength : f.arguments.length = f.command.parameters.length)
      (hpassable : ∀ word ∈ f.arguments, Passable commands word)
      (hcalls : Calls p commands caller f)
      (hsite : caller.command.At commands caller.site
        ⟨caller.counters.length, 0, f.arguments.length⟩)
      (hreturn : caller.command.At commands (caller.site + 1) ⟨caller.counters.length, 0, 0⟩)
      (hcaller : Active p commands main caller callers) :
      Active p commands main f (caller :: callers)

/-- The stack of a machine is made up of a frame and its callers.  On top lie truth values or
arguments, as many as the shape at the next instruction says. -/
structure Framed (p : Program) (commands : List Command) (main : Command) (m : Machine)
    (top : Frame) (callers : List Frame) (booleans : List Bool) (pushed : List UInt16) :
    Prop where
  stack : m.stack = booleans.map .boolean ++ (pushed.map .command ++ top.stack callers)
  depth : m.callDepth = callers.length
  site : m.pc = top.site
  active : Active p commands main top callers
  shape : top.command.At commands top.site ⟨top.counters.length, booleans.length, pushed.length⟩
  passable : ∀ word ∈ pushed, Passable commands word
  finished : m.finished = true → m.stack = [] ∧ m.callDepth = 0

/-- The stack of a machine is made up of frames, and its robot is on the grid. -/
def Intact (p : Program) (commands : List Command) (main : Command) (m : Machine) : Prop :=
  m.world.robot.OnGrid ∧
    ∃ top callers booleans pushed, Framed p commands main m top callers booleans pushed

/-- An outcome that is no failure, or a failure for a reason in the world or on the clock. -/
inductive Machine.Outcome.Harmless : Outcome → Prop
  | paused : Harmless .paused
  | finished : Harmless .finished
  | world {fault : World.Fault} (h : fault ≠ .offPlan) : Harmless (.failed (.world fault))
  | infiniteLoop (position : Option Nat) : Harmless (.failed (.infiniteLoop position))

/-- What an instruction may lead to. -/
def Steady (p : Program) (commands : List Command) (main : Command)
    (next : Machine × Outcome) : Prop :=
  Intact p commands main next.1 ∧ next.2.Harmless

/-- A word that a command may pass on: it was passed to the command, or the command mentions what it
denotes. -/
inductive Frame.Gives (script : Script) (commands : List Command) (f : Frame) (word : UInt16) :
    Prop
  | passed (h : word ∈ f.arguments)
  | mentioned {meaning : Meaning} (hword : Denotes commands word meaning)
      (hmentions : ∀ d, meaning = .command d → script.Mentions f.command d)

/-- The machine that runs the frame `top`. -/
def running (top : Frame) (callers : List Frame) (w : World) (booleans : List Bool)
    (pushed : List UInt16) (events : List Event) : Machine :=
  ⟨w, top.site, booleans.map .boolean ++ (pushed.map .command ++ top.stack callers),
    callers.length, false, events⟩

/-- What an instruction leads to: the frames and what lies on top of them afterwards, and what the
machine answers. -/
inductive Moves (script : Script) (p : Program) (commands : List Command) (m : Machine)
    (top : Frame) (callers : List Frame) (booleans : List Bool) (pushed : List UInt16) :
    Frame → List Frame → List Bool → List UInt16 → Machine × Outcome → Prop
  /-- The command goes on with other values of its own. -/
  | goesOn {w : World} (hgrid : w.robot.OnGrid) (a : Nat) (values : List Bool)
      (words counters : List UInt16)
      (hat : top.command.At commands a ⟨counters.length, values.length, words.length⟩)
      (hwords : ∀ word ∈ words, word ∈ pushed ∨ top.Gives script commands word) :
      Moves script p commands m top callers booleans pushed
        { top with counters := counters, site := a } callers values words
        (running { top with counters := counters, site := a } callers w values words m.events,
          .paused)
  /-- The world does not allow the action. -/
  | fails {fault : World.Fault} (hfault : fault ≠ .offPlan) :
      Moves script p commands m top callers booleans pushed top callers booleans pushed
        (m, .failed (.world fault))
  /-- A command is entered that the topmost one mentions. -/
  | calls {d : Command} (hd : d ∈ commands)
      (hhas : p.Has top.site (.call (operand (address commands d.name))))
      (hmentions : script.Mentions top.command d) (hlength : pushed.length = d.parameters.length)
      (hbooleans : booleans = [])
      (hnext : top.command.At commands (top.site + 1) ⟨top.counters.length, 0, 0⟩)
      (events : List Event) :
      Moves script p commands m top callers booleans pushed
        ⟨d, pushed, [], address commands d.name⟩ (top :: callers) [] []
        (running ⟨d, pushed, [], address commands d.name⟩ (top :: callers) m.world [] [] events,
          .paused)
  /-- A command is entered that was passed to the topmost one. -/
  | callsPassed {d : Command} {index : UInt16} (hd : d ∈ commands)
      (hhas : p.Has top.site (.callParameter index)) (hindex : 0 < index.toNat)
      (hargument : top.arguments[index.toNat - 1]? = some (operand (address commands d.name)))
      (hparameters : d.parameters = []) (hbooleans : booleans = []) (hpushed : pushed = [])
      (hnext : top.command.At commands (top.site + 1) ⟨top.counters.length, 0, 0⟩)
      (events : List Event) :
      Moves script p commands m top callers booleans pushed
        ⟨d, [], [], address commands d.name⟩ (top :: callers) [] []
        (running ⟨d, [], [], address commands d.name⟩ (top :: callers) m.world [] [] events,
          .paused)
  /-- The topmost command is left for the one below it. -/
  | leaves {caller : Frame} {following : List Frame} (hcallers : callers = caller :: following) :
      Moves script p commands m top callers booleans pushed
        { caller with site := caller.site + 1 } following [] []
        (running { caller with site := caller.site + 1 } following m.world [] []
          (.left :: m.events), .paused)
  /-- The command to start with is left. -/
  | finishes (hcallers : callers = []) (hstack : m.stack = []) :
      Moves script p commands m top callers booleans pushed top callers booleans pushed
        ({ m with finished := true }, .finished)

section Steps

variable {script : Script} {main : Command} {p : Program} {commands : List Command} {top : Frame}
  {callers : List Frame}

theorem Active.mem (hcompiles : script.Compiles main p)
    (h : Active p (script.reachable main.name) main top callers) :
    top.command ∈ script.reachable main.name := by
  cases h with
  | entry hcommand => rw [hcommand]; exact hcompiles.main_mem
  | called hmem => exact hmem

/-- A frame stays on its callers whatever its own values and its address are. -/
theorem Active.congr {f : Frame} (h : Active p commands main top callers)
    (hcommand : f.command = top.command) (harguments : f.arguments = top.arguments) :
    Active p commands main f callers := by
  cases h with
  | entry hmain hnone => exact .entry (hcommand.trans hmain) (harguments.trans hnone)
  | called hmem hlength hpassable hcalls hsite hreturn hcaller =>
    rw [← hcommand] at hmem
    rw [← harguments] at hpassable hsite
    rw [← harguments, ← hcommand] at hlength
    refine .called hmem hlength hpassable ?_ hsite hreturn hcaller
    cases hcalls with
    | direct hhas => exact .direct (by rw [hcommand]; exact hhas)
    | passed hhas hindex hargument => exact .passed hhas hindex (by rw [hcommand]; exact hargument)

theorem Active.passable (h : Active p commands main top callers) :
    ∀ word ∈ top.arguments, Passable commands word := by
  cases h with
  | entry hcommand harguments => rw [harguments]; exact List.forall_mem_nil _
  | called hmem hlength hpassable => exact hpassable

/-- The addresses of a command are addresses of the program. -/
theorem Script.Compiles.at_lt (h : script.Compiles main p) {c : Command}
    (hc : c ∈ script.reachable main.name) {a : Nat} {shape : Shape}
    (hat : c.At (script.reachable main.name) a shape) : a < Program.maxSize :=
  Nat.lt_of_le_of_lt hat.bounds.2 (h.assembles.address_bounds hc).2

/-- What was passed to the topmost command is found below its counters. -/
theorem Active.argument_eq (hcompiles : script.Compiles main p)
    (h : Active p (script.reachable main.name) main top callers) {index : UInt16}
    (hlow : 0 < index.toNat) (hhigh : index.toNat ≤ top.command.parameters.length) (w : World)
    (pushed : List UInt16) (events : List Event) :
    ∃ word, (running top callers w [] pushed events).argument index = .ok word ∧
      top.arguments[index.toNat - 1]? = some word ∧
      Passable (script.reachable main.name) word := by
  cases h with
  | entry hcommand harguments =>
    rw [hcommand, hcompiles.parameters_main] at hhigh
    exact absurd (Nat.lt_of_lt_of_le hlow hhigh) (Nat.lt_irrefl 0)
  | @called _ caller callers hmem hlength hpassable hcalls hsite hreturn hcaller =>
    obtain ⟨i, hi⟩ : ∃ i, index.toNat = i + 1 := ⟨index.toNat - 1, by omega⟩
    have hlt : i < top.arguments.length := by omega
    obtain ⟨word, hword⟩ : ∃ word, top.arguments[i]? = some word :=
      ⟨_, List.getElem?_eq_getElem hlt⟩
    refine ⟨word, ?_, by rw [hi]; exact hword, hpassable word (List.mem_of_getElem? hword)⟩
    have hframe : frame ([].map Value.boolean ++ (pushed.map Value.command ++
        (top.counters.map Value.loopCounter ++ Frame.base top.arguments (caller :: callers)))) =
        frame (Frame.base top.arguments (caller :: callers)) := by
      rw [List.map_nil, List.nil_append, frame_append]
      refine List.dropWhile_append_of_pos fun value hvalue => ?_
      obtain ⟨n, -, rfl⟩ := List.mem_map.1 hvalue
      rfl
    refine KarelRobot.argument_eq hframe ?_
    change (Frame.base top.arguments (caller :: callers))[index.toNat]? = _
    rw [hi, Frame.base, List.getElem?_cons_succ,
      List.getElem?_append_left (by rw [List.length_map]; exact hlt), List.getElem?_map, hword]
    rfl

/-- A stack of frames has no command on its top. -/
theorem Frame.settled (f : Frame) (callers : List Frame) :
    (f.stack callers).dropWhile Value.isCommand = f.stack callers := by
  unfold Frame.stack
  cases f.counters with
  | cons n counters => rfl
  | nil =>
    cases callers with
    | nil => rfl
    | cons caller callers => rfl

/-! ## What the operations do -/

variable {w : World} {events : List Event}

/-- Going on where no arguments have been pushed. -/
theorem Moves.settles {m : Machine} {booleans : List Bool} {pushed : List UInt16}
    (hgrid : w.robot.OnGrid) (a : Nat) (values : List Bool) (counters : List UInt16)
    (hat : top.command.At commands a ⟨counters.length, values.length, 0⟩) :
    Moves script p commands m top callers booleans pushed
      { top with counters := counters, site := a } callers values []
      (running { top with counters := counters, site := a } callers w values [] m.events,
        .paused) :=
  .goesOn hgrid a values [] counters hat (List.forall_mem_nil _)

/-- Carrying out an action. -/
theorem Moves.perform (hgrid : w.robot.OnGrid)
    (hnext : top.command.At commands (top.site + 1) ⟨top.counters.length, 0, 0⟩) (which : Action) :
    ∃ f, Moves script p commands (running top callers w [] [] events) top callers [] [] f callers
      [] [] ((running top callers w [] [] events).perform which) := by
  unfold Machine.perform
  rcases World.perform_cases hgrid which with ⟨w', hw', hgrid'⟩ | ⟨fault, hfault, hne⟩
  · simp only [running, hw']
    exact ⟨_, .settles hgrid' (top.site + 1) [] top.counters hnext⟩
  · simp only [running, hfault]
    exact ⟨_, .fails hne⟩

/-- Leaving the topmost command. -/
theorem Active.moves_leave (hcompiles : script.Compiles main p)
    (h : Active p (script.reachable main.name) main top callers) (hcounters : top.counters = []) :
    ∃ f following, Moves script p (script.reachable main.name)
      (running top callers w [] [] events) top callers [] [] f following [] []
      (running top callers w [] [] events).leave := by
  cases h with
  | entry hcommand harguments =>
    have hstack : (running top [] w [] [] events).stack = [] := by
      simp [running, Frame.stack, Frame.base, hcounters]
    have hleave : (running top [] w [] [] events).leave =
        ({ running top [] w [] [] events with finished := true }, .finished) := by
      simp only [leave, hstack]
    rw [hleave]
    exact ⟨_, _, .finishes rfl hstack⟩
  | @called _ caller callers hmem hlength hpassable hcalls hsite hreturn hcaller =>
    have hbound := hcompiles.at_lt (hcaller.mem hcompiles) hsite
    have hdrop := (dropWhile_commands top.arguments (caller.stack callers)).trans
      (caller.settled callers)
    have hleave : (running top (caller :: callers) w [] [] events).leave =
        (running { caller with site := caller.site + 1 } callers w [] [] (.left :: events),
          .paused) := by
      simp only [running, leave, Frame.stack, Frame.base, hcounters] at hdrop ⊢
      simp [jump, toNat_operand hbound, hdrop]
    rw [hleave]
    exact ⟨_, _, .leaves rfl⟩

/-- **What the operations of the topmost command do.** -/
theorem Active.moves_execute (hcompiles : script.Compiles main p) (hgrid : w.robot.OnGrid)
    (h : Active p (script.reachable main.name) main top callers) {booleans : List Bool}
    {pushed : List UInt16} {op : Op} (hhas : p.Has top.site op)
    (hflows : Flows script (script.reachable main.name) top.command top.site
      ⟨top.counters.length, booleans.length, pushed.length⟩ op) (i : Instruction) :
    ∃ f following values words, Moves script p (script.reachable main.name)
      (running top callers w booleans pushed events) top callers booleans pushed
      f following values words
      ((running top callers w booleans pushed events).execute p i op) := by
  generalize hshape : (⟨top.counters.length, booleans.length, pushed.length⟩ : Shape) = shape
    at hflows
  cases hflows with simp only [Shape.mk.injEq, List.length_eq_zero_iff] at hshape
  | ret =>
    obtain ⟨hcounters, rfl, rfl⟩ := hshape
    obtain ⟨f, following, hmoves⟩ := h.moves_leave hcompiles hcounters
    exact ⟨f, following, [], [], hmoves⟩
  | action which hnext =>
    obtain ⟨rfl, rfl, rfl⟩ := hshape
    obtain ⟨f, hmoves⟩ := Moves.perform hgrid hnext which
    exact ⟨f, callers, [], [], hmoves⟩
  | query which hnext =>
    obtain ⟨rfl, rfl, rfl⟩ := hshape
    obtain ⟨answer, hanswer⟩ := World.exists_ask hgrid which
    simp only [execute, query, running, hanswer]
    exact ⟨_, _, _, _, .settles hgrid (top.site + 1) (answer :: booleans) top.counters hnext⟩
  | literal value hnext =>
    obtain ⟨rfl, rfl, rfl⟩ := hshape
    exact ⟨_, _, _, _, .settles hgrid (top.site + 1) (value :: booleans) top.counters hnext⟩
  | not hnext =>
    obtain ⟨rfl, hbooleans, rfl⟩ := hshape
    obtain ⟨value, booleans, rfl⟩ := List.exists_cons_of_length_eq_add_one hbooleans
    cases hbooleans
    exact ⟨_, _, _, _, .settles hgrid (top.site + 1) ((!value) :: booleans) top.counters hnext⟩
  | and hnext | or hnext =>
    obtain ⟨rfl, hbooleans, rfl⟩ := hshape
    obtain ⟨right, booleans, rfl⟩ := List.exists_cons_of_length_eq_add_one hbooleans
    obtain ⟨left, booleans, rfl⟩ :=
      List.exists_cons_of_length_eq_add_one (Nat.succ.inj hbooleans)
    cases hbooleans
    exact ⟨_, _, _, _, .settles hgrid (top.site + 1) (_ :: booleans) top.counters hnext⟩
  | pass hword hmentions hnext =>
    obtain ⟨rfl, rfl, rfl⟩ := hshape
    exact ⟨_, _, _, _, .goesOn hgrid (top.site + 1) [] (_ :: pushed) top.counters hnext
      (List.forall_mem_cons.2 ⟨.inr (.mentioned hword hmentions), fun _ => .inl⟩)⟩
  | forward hlow hhigh hnext =>
    obtain ⟨rfl, rfl, rfl⟩ := hshape
    obtain ⟨word, hargument, hplace, -⟩ := h.argument_eq hcompiles hlow hhigh w pushed events
    simp only [execute, hargument]
    exact ⟨_, _, _, _, .goesOn hgrid (top.site + 1) [] (word :: pushed) top.counters hnext
      (List.forall_mem_cons.2 ⟨.inr (.passed (List.mem_of_getElem? hplace)), fun _ => .inl⟩)⟩
  | callParameter hlow hhigh hnext =>
    obtain ⟨rfl, rfl, rfl⟩ := hshape
    obtain ⟨word, hargument, hplace, meaning, hdenotes⟩ :=
      h.argument_eq hcompiles hlow hhigh w [] events
    simp only [execute, hargument, callPassed]
    cases hdenotes with
    | action which =>
      rw [Action.ofOpcode?_opcode]
      obtain ⟨f, hmoves⟩ := Moves.perform hgrid hnext which
      exact ⟨f, callers, [], [], hmoves⟩
    | command hd hparameters =>
      have hle := hcompiles.entryPoint_le hd
      obtain ⟨entered, henter⟩ := hcompiles.enter_eq hd i
      rw [Action.ofOpcode?_of_le hle, if_pos hle, running, henter]
      exact ⟨_, _, _, _, .callsPassed hd hhas hlow hplace hparameters rfl rfl hnext entered⟩
  | push times hnext =>
    obtain ⟨rfl, rfl, rfl⟩ := hshape
    exact ⟨_, _, _, _, .settles hgrid (top.site + 1) [] (times :: top.counters) hnext⟩
  | @loop loops back hback hnext =>
    obtain ⟨hcounters, rfl, rfl⟩ := hshape
    obtain ⟨remaining, counters, htop⟩ := List.exists_cons_of_length_eq_add_one hcounters
    rw [htop, List.length_cons, Nat.add_right_cancel_iff] at hcounters
    subst hcounters
    have hbound := toNat_operand (hcompiles.at_lt (h.mem hcompiles) hback)
    simp only [execute, loop, running, Frame.stack, htop, List.map_nil, List.nil_append,
      List.map_cons, List.cons_append]
    split
    · rw [jump, hbound]
      exact ⟨_, _, _, _, .settles hgrid back [] ((remaining - 1) :: counters) hback⟩
    · exact ⟨_, _, _, _, .settles hgrid (top.site + 1) [] counters hnext⟩
  | call hd hmentions hnext =>
    obtain ⟨rfl, rfl, hlength⟩ := hshape
    obtain ⟨entered, henter⟩ := hcompiles.enter_eq hd i
    rw [execute, running, henter]
    exact ⟨_, _, _, _, .calls hd hhas hmentions hlength rfl hnext entered⟩
  | @jump loops target htarget =>
    obtain ⟨rfl, rfl, rfl⟩ := hshape
    rw [execute, toNat_operand (hcompiles.at_lt (h.mem hcompiles) htarget)]
    exact ⟨_, _, _, _, .settles hgrid target [] top.counters htarget⟩
  | @branch loops target negations hnext htarget =>
    obtain ⟨rfl, hbooleans, rfl⟩ := hshape
    obtain ⟨value, rfl⟩ := List.length_eq_one_iff.1 hbooleans
    have hbound := toNat_operand (hcompiles.at_lt (h.mem hcompiles) htarget)
    unfold Condition.branch
    split <;> cases value
    · rw [execute, hbound]
      exact ⟨_, _, _, _, .settles hgrid target [] top.counters htarget⟩
    · exact ⟨_, _, _, _, .settles hgrid (top.site + 1) [] top.counters hnext⟩
    · exact ⟨_, _, _, _, .settles hgrid (top.site + 1) [] top.counters hnext⟩
    · rw [execute, hbound]
      exact ⟨_, _, _, _, .settles hgrid target [] top.counters htarget⟩

end Steps

/-! ## Single instructions -/

section Instructions

variable {script : Script} {main : Command} {p : Program} {commands : List Command} {m : Machine}
  {top : Frame} {callers : List Frame} {booleans : List Bool} {pushed : List UInt16}

/-- **What an instruction does to the frames.** -/
theorem Framed.exists_moves (hcompiles : script.Compiles main p) (hgrid : m.world.robot.OnGrid)
    (h : Framed p (script.reachable main.name) main m top callers booleans pushed)
    (hfinished : m.finished = false) :
    ∃ f following values words, Moves script p (script.reachable main.name) m top callers booleans
      pushed f following values words (m.step p) := by
  obtain ⟨op, ⟨position, hget⟩, hfits, hflows⟩ :=
    hcompiles.sound (h.active.mem hcompiles) h.shape
  obtain ⟨w, pc, stack, depth, finished, events⟩ := m
  obtain ⟨rfl, rfl, rfl, hactive, -, -, -⟩ := h
  subst hfinished
  rw [step_eq hget hfits rfl]
  exact hactive.moves_execute hcompiles hgrid ⟨position, hget⟩ hflows _

theorem Frame.Gives.passable {word : UInt16} (h : top.Gives script commands word)
    (hactive : Active p commands main top callers) : Passable commands word := by
  cases h with
  | passed h => exact hactive.passable word h
  | mentioned hword => exact ⟨_, hword⟩

theorem Active.framed_running {w : World} {events : List Event}
    (h : Active p commands main top callers)
    (hat : top.command.At commands top.site ⟨top.counters.length, booleans.length, pushed.length⟩)
    (hpassable : ∀ word ∈ pushed, Passable commands word) :
    Framed p commands main (running top callers w booleans pushed events) top callers booleans
      pushed :=
  ⟨rfl, rfl, rfl, h, hat, hpassable, nofun⟩

/-- The frames after an instruction make up the stack again, and nothing fails but the world. -/
theorem Framed.next {f : Frame} {following : List Frame} {values : List Bool}
    {words : List UInt16} {next : Machine × Outcome} (hgrid : m.world.robot.OnGrid)
    (h : Framed p commands main m top callers booleans pushed)
    (hmoves : Moves script p commands m top callers booleans pushed f following values words next) :
    Framed p commands main next.1 f following values words ∧ next.1.world.robot.OnGrid ∧
      next.2.Harmless := by
  have hshape := h.shape
  cases hmoves with
  | goesOn hgrid a values words counters hat hwords =>
    have hpassable : ∀ word ∈ words, Passable commands word := fun word hword =>
      (hwords word hword).elim (h.passable word) fun hgives => hgives.passable h.active
    have hactive : Active p commands main { top with counters := counters, site := a } callers :=
      h.active.congr rfl rfl
    exact ⟨hactive.framed_running hat hpassable, hgrid, .paused⟩
  | fails hfault => exact ⟨h, hgrid, .world hfault⟩
  | @calls d hd hhas hmentions hlength hbooleans hnext events =>
    subst hbooleans
    have hactive : Active p commands main ⟨d, pushed, [], address commands d.name⟩
        (top :: callers) := .called hd hlength h.passable (.direct hhas) hshape hnext h.active
    exact ⟨hactive.framed_running (Command.at_address commands d) (List.forall_mem_nil _), hgrid,
      .paused⟩
  | @callsPassed d index hd hhas hindex hargument hparameters hbooleans hpushed hnext events =>
    subst hbooleans hpushed
    have hactive : Active p commands main ⟨d, [], [], address commands d.name⟩ (top :: callers) :=
      .called hd (by rw [hparameters]; rfl) (List.forall_mem_nil _)
        (.passed hhas hindex hargument) hshape hnext h.active
    exact ⟨hactive.framed_running (Command.at_address commands d) (List.forall_mem_nil _), hgrid,
      .paused⟩
  | @leaves caller following hcallers =>
    subst hcallers
    have hactive := h.active
    cases hactive with
    | called hmem hlength hpassable hcalls hsite hreturn hcaller =>
      have hback : Active p commands main { caller with site := caller.site + 1 } following :=
        hcaller.congr rfl rfl
      exact ⟨hback.framed_running hreturn (List.forall_mem_nil _), hgrid, .paused⟩
  | finishes hcallers hstack =>
    subst hcallers
    exact ⟨⟨h.stack, h.depth, h.site, h.active, hshape, h.passable, fun _ => ⟨hstack, h.depth⟩⟩,
      hgrid, .finished⟩

/-- **An instruction keeps the stack intact and fails for reasons in the world only.** -/
theorem Intact.step (hcompiles : script.Compiles main p)
    (h : Intact p (script.reachable main.name) main m) :
    Steady p (script.reachable main.name) main (m.step p) := by
  obtain ⟨hgrid, top, callers, booleans, pushed, hframed⟩ := h
  by_cases hfinished : m.finished = true
  · rw [Machine.step, if_pos hfinished]
    exact ⟨⟨hgrid, top, callers, booleans, pushed, hframed⟩, .finished⟩
  · obtain ⟨f, following, values, words, hmoves⟩ :=
      hframed.exists_moves hcompiles hgrid (Bool.eq_false_iff.2 hfinished)
    obtain ⟨hnext, hgrid', hharmless⟩ := hframed.next hgrid hmoves
    exact ⟨⟨hgrid', f, following, values, words, hnext⟩, hharmless⟩

end Instructions
end KarelRobot
