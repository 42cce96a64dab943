import KarelRobot.Proofs.CallStack
import KarelRobot.Proofs.Effects
import KarelRobot.Proofs.Sessions

/-!
# Sessions with compiled programs

Whatever a debugger does with a program that `compile` returns, the stack stays a stack of frames,
and nothing fails but actions that the world does not allow and programs that take too long.

* `Script.Compiles.kept` — single instructions keep the stack intact.
* `session_never_goes_wrong` — the faults that an operation can have.
* `session_keeps_callStack` — what the stack looks like between operations.
-/

set_option autoImplicit false
namespace KarelRobot

open Assembly Machine

variable {script : Script} {main : Command} {p : Program} {commands : List Command} {m : Machine}

/-! ## The stack stays intact -/

/-- At the start there is one frame, the one of the command to start with. -/
theorem Script.Compiles.framed_start (h : script.Compiles main p) (w : World) :
    Framed p (script.reachable main.name) main (Machine.start w)
      ⟨main, [], [], Program.entryPoint⟩ [] [] [] := by
  have hat := Command.at_address (script.reachable main.name) main
  rw [h.address_main] at hat
  exact ⟨rfl, rfl, rfl, .entry rfl rfl, hat, List.forall_mem_nil _, nofun⟩

theorem Script.Compiles.intact_start (h : script.Compiles main p) {w : World}
    (hgrid : w.robot.OnGrid) : Intact p (script.reachable main.name) main (Machine.start w) :=
  ⟨hgrid, _, _, _, _, h.framed_start w⟩

theorem Intact.replace (h : Intact p commands main m) {w : World} (hgrid : w.robot.OnGrid) :
    Intact p commands main { m with world := w } := by
  obtain ⟨-, top, callers, booleans, pushed, hframed⟩ := h
  exact ⟨hgrid, top, callers, booleans, pushed, hframed.stack, hframed.depth, hframed.site,
    hframed.active, hframed.shape, hframed.passable, hframed.finished⟩

/-- Giving up changes nothing but what the debugger has been told. -/
theorem Intact.giveUp (h : Intact p commands main m) :
    Steady p commands main (m.giveUp p) := by
  obtain ⟨hgrid, top, callers, booleans, pushed, hframed⟩ := h
  exact ⟨⟨hgrid, top, callers, booleans, pushed, hframed.stack, hframed.depth, hframed.site,
    hframed.active, hframed.shape, hframed.passable, hframed.finished⟩, .infiniteLoop _⟩

theorem Script.Compiles.kept (h : script.Compiles main p) :
    Kept p (Intact p (script.reachable main.name) main) Outcome.Harmless :=
  ⟨fun _ hm => hm.step h, fun _ hm => hm.giveUp, .paused⟩

theorem Session.intact (h : Session p m) (hcompiles : script.Compiles main p) :
    Intact p (script.reachable main.name) main m :=
  h.kept hcompiles.kept (fun _ hgrid => hcompiles.intact_start hgrid)
    fun _ _ hm hgrid => hm.replace hgrid

/-- A machine whose robot has run into the wall, two calls inside a loop. -/
def stranded (p : Program) : Machine :=
  ((Machine.start .start).run p 0).1

theorem session_stranded (p : Program) : Session p (stranded p) :=
  (Session.start World.onGrid_start).operate (.run 0) rfl

/-- A robot that is put back runs into the wall again. -/
theorem exists_stranded :
    ∃ p m, compile dance none .recursion = .ok p ∧ (stranded p).callDepth = 2 ∧
      (Operation.run 0).apply p { stranded p with world := .start } =
        some (m, .failed (.world .blockedByWall)) := by
  obtain ⟨p, hp, hstranded⟩ := exists_ok_of_any (x := compile dance none .recursion)
    (f := fun p => (stranded p).callDepth == 2 &&
      ({ stranded p with world := .start }.run p 0).2 == .failed (.world .blockedByWall))
    (by decide +kernel)
  obtain ⟨hdepth, hagain⟩ := Bool.and_eq_true_iff.1 hstranded
  exact ⟨p, _, hp, eq_of_beq hdepth, congrArg some (Prod.ext rfl (eq_of_beq hagain))⟩

/-! ## Faults -/

/-- **Compiled programs never go wrong.**  An operation fails only because an action is impossible
in the world, or because the time is up. -/
theorem session_never_goes_wrong {source : String} {entry : Option String} {level : Level}
    {p : Program} (h : compile source entry level = .ok p) {m m' : Machine} (hm : Session p m)
    {operation : Operation} {fault : Fault}
    (happly : operation.apply p m = some (m', .failed fault)) :
    (∃ reason, fault = .world reason ∧ reason ≠ .offPlan) ∨
      ∃ position, fault = .infiniteLoop position := by
  obtain ⟨script, main, -, -, hcompiles, -⟩ := compiles_of_compile h
  obtain ⟨-, hharmless⟩ := hcompiles.kept.apply (hm.intact hcompiles) happly
  cases hharmless with
  | world hreason => exact .inl ⟨_, rfl, hreason⟩
  | infiniteLoop position => exact .inr ⟨position, rfl⟩

theorem session_never_goes_wrong_dance :
    ∃ p m m' fault, compile dance none .recursion = .ok p ∧ Session p m ∧ m.callDepth = 2 ∧
      (Operation.run 0).apply p m = some (m', .failed fault) ∧
      ((∃ reason, fault = .world reason ∧ reason ≠ .offPlan) ∨
        ∃ position, fault = .infiniteLoop position) := by
  obtain ⟨p, m, hp, hdepth, hagain⟩ := exists_stranded
  have hm := (session_stranded p).replace World.onGrid_start
  exact ⟨p, _, m, _, hp, hm, hdepth, hagain, session_never_goes_wrong hp hm hagain⟩

/-! ## Frames -/

/-- Values of another kind than return addresses do not count. -/
theorem Machine.returnCount_map_append {α : Type} (f : α → Value)
    (hf : ∀ a, (f a).isReturnAddress = false) (xs : List α) (stack : List Value) :
    returnCount (xs.map f ++ stack) = returnCount stack :=
  returnCount_append (List.forall_mem_map.2 fun a _ => hf a) stack

theorem Frame.returnCount_base (arguments : List UInt16) (callers : List Frame) :
    returnCount (Frame.base arguments callers) = callers.length := by
  induction callers generalizing arguments with
  | nil => rfl
  | cons caller callers ih =>
    rw [Frame.base, returnCount_cons, returnCount_map_append .command fun _ => rfl,
      returnCount_map_append .loopCounter fun _ => rfl, ih, List.length_cons]

/-- As many calls have not returned as there are return addresses. -/
theorem Framed.returnCount_stack {top : Frame} {callers : List Frame} {booleans : List Bool}
    {pushed : List UInt16} (h : Framed p commands main m top callers booleans pushed) :
    m.callDepth = returnCount m.stack := by
  rw [h.stack, h.depth, Frame.stack, returnCount_map_append .boolean fun _ => rfl,
    returnCount_map_append .command fun _ => rfl,
    returnCount_map_append .loopCounter fun _ => rfl, Frame.returnCount_base]

theorem Command.At.covers {c : Command} {a : Nat} {shape : Shape} (h : c.At commands a shape) :
    c.Covers commands a :=
  Command.covers_iff.2 h.bounds

/-- The pending calls of all callers lie in their code. -/
theorem Active.covers {top : Frame} {callers : List Frame}
    (h : Active p commands main top callers) :
    ∀ f ∈ callers, f.command.Covers commands f.site := by
  induction h with
  | entry => exact fun f hf => by cases hf
  | called _ _ _ _ hsite _ _ ih => exact List.forall_mem_cons.2 ⟨hsite.covers, ih⟩

/-- A condition that has been decided in part and arguments that have been pushed are never on the
stack together. -/
theorem Flows.booleans_or_arguments {c : Command} {a : Nat} {shape : Shape} {op : Op}
    (h : Flows script commands c a shape op) : shape.booleans = 0 ∨ shape.arguments = 0 := by
  cases h with
  | query | literal | not | and | or | branch => exact .inr rfl
  | ret | action | pass | forward | callParameter | push | loop | call | jump => exact .inl rfl

/-- **The stack is a stack of frames.**  It begins with the frame of the command to start with;
above lies a frame for each pending call, with what was passed and the address of the call; and on
top lie the truth values or the arguments that the next instruction finds there. -/
theorem session_keeps_callStack {source : String} {entry : Option String} {level : Level}
    {p : Program} (h : compile source entry level = .ok p) {m : Machine} (hm : Session p m) :
    ∃ script main, Script.parse source = .ok script ∧
      script.find? (entry.getD script.defaultEntry) = some main ∧
      m.callDepth = returnCount m.stack ∧
      (∃ top callers booleans pushed,
        Framed p (script.reachable main.name) main m top callers booleans pushed ∧
        (booleans = [] ∨ pushed = []) ∧
        ∀ f ∈ top :: callers, f.command.Covers (script.reachable main.name) f.site) ∧
      (m.finished = true → m.stack = [] ∧ m.callDepth = 0) := by
  obtain ⟨script, main, hparse, hmain, hcompiles, -⟩ := compiles_of_compile h
  obtain ⟨-, top, callers, booleans, pushed, hframed⟩ := hm.intact hcompiles
  obtain ⟨op, -, -, hflows⟩ := hcompiles.sound (hframed.active.mem hcompiles) hframed.shape
  refine ⟨script, main, hparse, hmain, hframed.returnCount_stack, ⟨top, callers, booleans, pushed,
    hframed, ?_, List.forall_mem_cons.2 ⟨hframed.shape.covers, hframed.active.covers⟩⟩,
    hframed.finished⟩
  exact hflows.booleans_or_arguments.imp List.length_eq_zero_iff.1 List.length_eq_zero_iff.1

theorem session_keeps_callStack_dance :
    ∃ p m, compile dance none .recursion = .ok p ∧ Session p m ∧ m.callDepth = 2 ∧
      ∃ script main, Script.parse dance = .ok script ∧
        script.find? (none.getD script.defaultEntry) = some main ∧
        m.callDepth = returnCount m.stack ∧
        (∃ top callers booleans pushed,
          Framed p (script.reachable main.name) main m top callers booleans pushed ∧
          (booleans = [] ∨ pushed = []) ∧
          ∀ f ∈ top :: callers, f.command.Covers (script.reachable main.name) f.site) ∧
        (m.finished = true → m.stack = [] ∧ m.callDepth = 0) := by
  obtain ⟨p, -, hp, hdepth, -⟩ := exists_stranded
  exact ⟨p, _, hp, session_stranded p, hdepth, session_keeps_callStack hp (session_stranded p)⟩

end KarelRobot
