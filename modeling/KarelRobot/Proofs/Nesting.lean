import KarelRobot.Proofs.Safety
import KarelRobot.Proofs.Stepping
import Mathlib.Data.List.Chain
import Mathlib.Tactic.Linarith

/-!
# How deep calls nest without recursion

Below the level of recursion no command may lead back to itself along what commands call or pass on.
A call of a parameter is not part of that graph.  It can enter any command that was passed on, also
one of a higher rank than the command that makes the call, and so a command can be active more than
once.  But everything that is passed on was mentioned by a frame further down, and that keeps the
calls from nesting deeper than the square of the number of commands.

* `Entered`, `Traced` — how frames were entered, and where what was passed to them comes from.
* `Traced.next`, `Script.Compiles.explained_after` — single instructions keep track of that.
* `Frame.Bounded` — a bound on the rank of a command and of what was passed to it.
* `callDepth_lt_sq` — how deep calls nest.
* `active_again` — how a command comes to be active twice.
-/

set_option autoImplicit false
namespace KarelRobot

open Assembly Machine

/-! ## Where frames come from -/

/-- How the frame `f` was entered by the frame below it. -/
inductive Entered (script : Script) (p : Program) (commands : List Command) (f caller : Frame) :
    Prop
  /-- The caller mentions the command, and gives what is passed to it. -/
  | named (hmentions : script.Mentions caller.command f.command)
      (hgives : ∀ word ∈ f.arguments, caller.Gives script commands word)
  /-- The command was passed to the caller, which has called a parameter. -/
  | passed {index : UInt16} (hhas : p.Has caller.site (.callParameter index))
      (hword : operand (address commands f.command.name) ∈ caller.arguments)
      (harguments : f.arguments = [])

/-- Every frame was entered by the one below it, and what is about to be passed on is given by the
topmost one. -/
structure Traced (script : Script) (p : Program) (commands : List Command) (top : Frame)
    (callers : List Frame) (pushed : List UInt16) : Prop where
  chain : (top :: callers).IsChain (Entered script p commands)
  gives : ∀ word ∈ pushed, top.Gives script commands word

/-- The stack of a machine is made up of frames of which it is known how they were entered. -/
def Explained (script : Script) (p : Program) (main : Command) (m : Machine) : Prop :=
  m.world.robot.OnGrid ∧ ∃ top callers booleans pushed,
    Framed p (script.reachable main.name) main m top callers booleans pushed ∧
      Traced script p (script.reachable main.name) top callers pushed

section Tracing

variable {script : Script} {main : Command} {p : Program} {commands : List Command} {m : Machine}
  {top : Frame} {callers : List Frame} {booleans : List Bool} {pushed : List UInt16}

/-- How a frame was entered does not depend on what it has done since. -/
theorem Entered.congr {f g caller : Frame} (h : Entered script p commands f caller)
    (hcommand : g.command = f.command) (harguments : g.arguments = f.arguments) :
    Entered script p commands g caller := by
  cases h with
  | named hmentions hgives =>
    exact .named (by rw [hcommand]; exact hmentions) (by rw [harguments]; exact hgives)
  | passed hhas hword hnone =>
    exact .passed hhas (by rw [hcommand]; exact hword) (by rw [harguments]; exact hnone)

/-- **An instruction keeps track of where frames come from.** -/
theorem Traced.next {f : Frame} {following : List Frame} {values : List Bool}
    {words : List UInt16} {next : Machine × Outcome}
    (h : Traced script p commands top callers pushed)
    (hmoves : Moves script p commands m top callers booleans pushed f following values words next) :
    Traced script p commands f following words := by
  cases hmoves with
  | goesOn hgrid a values words counters hat hwords =>
    have hgives : ∀ word ∈ words, top.Gives script commands word := fun word hword =>
      (hwords word hword).elim (h.gives word) id
    refine ⟨h.chain.imp_head fun hentered => hentered.congr rfl rfl, fun word hword => ?_⟩
    cases hgives word hword with
    | passed hpassed => exact .passed hpassed
    | mentioned hdenotes hmentions => exact .mentioned hdenotes hmentions
  | fails hfault => exact h
  | calls hd hhas hmentions hlength hbooleans hnext events =>
    exact ⟨.cons_cons (.named hmentions h.gives) h.chain, List.forall_mem_nil _⟩
  | callsPassed hd hhas hindex hargument hparameters hbooleans hpushed hnext events =>
    exact ⟨.cons_cons (.passed hhas (List.mem_of_getElem? hargument) rfl) h.chain,
      List.forall_mem_nil _⟩
  | leaves hcallers =>
    subst hcallers
    have hchain := (List.isChain_cons_cons.1 h.chain).2
    exact ⟨hchain.imp_head fun hentered => hentered.congr rfl rfl, List.forall_mem_nil _⟩
  | finishes hcallers hstack => exact h

theorem Explained.step (hcompiles : script.Compiles main p) (h : Explained script p main m) :
    Explained script p main (m.step p).1 := by
  obtain ⟨hgrid, top, callers, booleans, pushed, hframed, htraced⟩ := h
  by_cases hfinished : m.finished = true
  · rw [Machine.step, if_pos hfinished]
    exact ⟨hgrid, top, callers, booleans, pushed, hframed, htraced⟩
  · obtain ⟨f, following, values, words, hmoves⟩ :=
      hframed.exists_moves hcompiles hgrid (Bool.eq_false_iff.2 hfinished)
    obtain ⟨hnext, hgrid', -⟩ := hframed.next hgrid hmoves
    exact ⟨hgrid', f, following, values, words, hnext, htraced.next hmoves⟩

theorem Explained.after (hcompiles : script.Compiles main p) (h : Explained script p main m)
    (count : Nat) : Explained script p main (m.after p count) := by
  induction count generalizing m with
  | zero => exact h
  | succ count ih => exact ih (h.step hcompiles)

theorem Script.Compiles.explained_after (h : script.Compiles main p) {w : World}
    (hgrid : w.robot.OnGrid) (count : Nat) :
    Explained script p main ((Machine.start w).after p count) := by
  refine Explained.after h ⟨hgrid, _, _, _, _, h.framed_start w, ?_, List.forall_mem_nil _⟩ count
  exact .singleton _

end Tracing

/-! ## Ranks of frames -/

/-- The command of a frame has at most the rank `s`.  What was passed to it has a lower rank, unless
it is among the given words. -/
structure Frame.Bounded (script : Script) (commands : List Command) (given : List UInt16) (s : Nat)
    (f : Frame) : Prop where
  rank : script.rank f.command ≤ s
  arguments : ∀ d ∈ commands, operand (address commands d.name) ∈ f.arguments →
    operand (address commands d.name) ∈ given ∨ script.rank d < s

section Ranks

variable {script : Script} {main : Command} {p : Program} {f caller : Frame}
  {given : List UInt16} {s : Nat}

/-- A command that takes nothing is bounded by its own rank. -/
theorem Frame.bounded_of_nil {commands : List Command} (hrank : script.rank f.command ≤ s)
    (harguments : f.arguments = []) : f.Bounded script commands given s :=
  ⟨hrank, fun d hd hword => by rw [harguments] at hword; cases hword⟩

/-- What a command mentions has a lower rank, and so has what it passes on. -/
theorem Frame.Bounded.named (hcompiles : script.Compiles main p)
    (hcalm : ∀ c ∈ script.reachable main.name, script.isRecursive c = false)
    (hcaller : caller.Bounded script (script.reachable main.name) given s)
    (hmem : caller.command ∈ script.reachable main.name)
    (hmentions : script.Mentions caller.command f.command)
    (hgives : ∀ word ∈ f.arguments, caller.Gives script (script.reachable main.name) word) :
    script.rank f.command < script.rank caller.command ∧
      f.Bounded script (script.reachable main.name) given s := by
  have hlower {d : Command} (hd : script.Mentions caller.command d) :
      script.rank d < script.rank caller.command :=
    Script.rank_lt (Script.find?_of_mem_reachable hmem) (hcalm _ hmem) hd
  refine ⟨hlower hmentions, Nat.le_trans (Nat.le_of_lt (hlower hmentions)) hcaller.rank, ?_⟩
  intro d hd hword
  cases hgives _ hword with
  | passed hpassed => exact hcaller.arguments d hd hpassed
  | mentioned hdenotes hmentioned =>
    have hd := hmentioned d (hdenotes.eq_command hcompiles hd)
    exact .inr (Nat.lt_of_lt_of_le (hlower hd) hcaller.rank)

theorem Script.rank_pos {name : String} {c : Command} (h : c ∈ script.reachable name) :
    0 < script.rank c := by
  obtain ⟨following, hfollowing⟩ := Script.reachable_eq_cons (Script.find?_of_mem_reachable h)
  rw [Script.rank, hfollowing]
  exact Nat.succ_pos _

end Ranks

/-! ## The depth of calls -/

section Depth

variable {script : Script} {main : Command} {p : Program} {top : Frame} {callers : List Frame}

/-- With the bound `s` for the topmost frame, its callers leave room for the calls to come: one for
each rank as long as commands are called by their names, and the next smaller square as soon as one
is called that was passed on. -/
theorem Active.exists_bounded (hcompiles : script.Compiles main p)
    (hcalm : ∀ c ∈ script.reachable main.name, script.isRecursive c = false)
    (h : Active p (script.reachable main.name) main top callers)
    (hchain : (top :: callers).IsChain (Entered script p (script.reachable main.name))) :
    ∃ s, top.Bounded script (script.reachable main.name) [] (s + 1) ∧
      callers.length + script.rank top.command + s ^ 2 ≤ script.rank main ^ 2 := by
  induction h with
  | @entry f hcommand harguments =>
    obtain ⟨s, hs⟩ := Nat.exists_eq_add_of_lt (Script.rank_pos hcompiles.main_mem)
    rw [Nat.zero_add] at hs
    refine ⟨s, Frame.bounded_of_nil (by rw [hcommand, hs]) harguments, ?_⟩
    rw [hcommand, hs, List.length_nil]
    nlinarith
  | @called f caller callers hmem hlength hpassable hcalls hsite hreturn hcaller ih =>
    obtain ⟨hentered, hchain⟩ := List.isChain_cons_cons.1 hchain
    obtain ⟨s, hbounded, hroom⟩ := ih hchain
    have hcallerMem := hcaller.mem hcompiles
    rw [List.length_cons]
    cases hentered with
    | named hmentions hgives =>
      obtain ⟨hlower, hbelow⟩ := hbounded.named hcompiles hcalm hcallerMem hmentions hgives
      exact ⟨s, hbelow, by omega⟩
    | passed hhas hword harguments =>
      have hlower : script.rank f.command < s + 1 :=
        (hbounded.arguments f.command hmem hword).resolve_left List.not_mem_nil
      have hpos := Script.rank_pos hcallerMem
      obtain ⟨r, hr⟩ := Nat.exists_eq_add_of_lt (Script.rank_pos hmem)
      rw [Nat.zero_add] at hr
      refine ⟨r, Frame.bounded_of_nil (by rw [hr]) harguments, ?_⟩
      have hsquare : (r + 1) ^ 2 ≤ s ^ 2 := Nat.pow_le_pow_left (by omega) 2
      rw [hr]
      nlinarith

/-- **Without recursion calls nest less deep than the square of the number of commands.**  This is
so although a parameter may be called, which can lead back to a command that is active. -/
theorem callDepth_lt_sq {source : String} {entry : Option String} {level : Level} {p : Program}
    (h : compile source entry level = .ok p) (hlevel : level = .basics ∨ level = .loops)
    {w : World} (hgrid : w.robot.OnGrid) (count : Nat) :
    ∃ script main, Script.parse source = .ok script ∧
      script.find? (entry.getD script.defaultEntry) = some main ∧
      ((Machine.start w).after p count).callDepth < (script.reachable main.name).length ^ 2 := by
  obtain ⟨script, main, hparse, hmain, hcompiles, hkeeps⟩ := compiles_of_compile h
  have hcalm := hkeeps.noRecursion (by rcases hlevel with rfl | rfl <;> rfl)
  refine ⟨script, main, hparse, hmain, ?_⟩
  obtain ⟨-, top, callers, booleans, pushed, hframed, htraced⟩ :=
    hcompiles.explained_after hgrid count
  obtain ⟨s, -, hroom⟩ := hframed.active.exists_bounded hcompiles hcalm htraced.chain
  have hpos := Script.rank_pos (hframed.active.mem hcompiles)
  calc ((Machine.start w).after p count).callDepth
      = callers.length := hframed.depth
    _ < callers.length + script.rank top.command + s ^ 2 := by omega
    _ ≤ script.rank main ^ 2 := hroom

end Depth

/-- A script without recursion in which a command is active twice: the command that `twice` is given
calls `twice` again. -/
def encore : String :=
  "void main() { twice(hop); }" ++
  "void twice(void action()) { action(); action(); }" ++
  "void hop() { twice(turnLeft); }"

/-- After five instructions the calls nest as deep as there are commands. -/
theorem exists_encore :
    ∃ p, compile encore none .basics = .ok p ∧
      ((Machine.start .start).after p 5).callDepth = 3 := by
  obtain ⟨p, hp, hdepth⟩ := exists_ok_of_any (x := compile encore none .basics)
    (f := fun p => ((Machine.start .start).after p 5).callDepth == 3) (by decide +kernel)
  exact ⟨p, hp, eq_of_beq hdepth⟩

theorem callDepth_lt_sq_encore :
    ∃ p, compile encore none .basics = .ok p ∧
      ((Machine.start .start).after p 5).callDepth = 3 ∧
      ∃ script main, Script.parse encore = .ok script ∧
        script.find? (none.getD script.defaultEntry) = some main ∧
        ((Machine.start .start).after p 5).callDepth < (script.reachable main.name).length ^ 2 := by
  obtain ⟨p, hp, hdepth⟩ := exists_encore
  exact ⟨p, hp, hdepth, callDepth_lt_sq hp (.inl rfl) World.onGrid_start 5⟩

/-! ## Commands that are active twice -/

section Reentry

variable {script : Script} {main : Command} {p : Program} {top : Frame} {callers : List Frame}

theorem Active.forall_mem (hcompiles : script.Compiles main p)
    (h : Active p (script.reachable main.name) main top callers) :
    ∀ f ∈ top :: callers, f.command ∈ script.reachable main.name ∧
      f.arguments.length = f.command.parameters.length := by
  induction h with
  | entry hcommand harguments =>
    refine List.forall_mem_cons.2 ⟨?_, List.forall_mem_nil _⟩
    rw [hcommand, harguments, hcompiles.parameters_main]
    exact ⟨hcompiles.main_mem, rfl⟩
  | called hmem hlength hpassable hcalls hsite hreturn hcaller ih =>
    exact List.forall_mem_cons.2 ⟨⟨hmem, hlength⟩, ih⟩

/-- Among some frames there is one whose command was passed to the frame `lower`, and which was
entered by calling a parameter. -/
def CalledBack (p : Program) (commands : List Command) (lower : Frame) (frames : List Frame) :
    Prop :=
  ∃ f caller index, [f, caller] <:+: frames ∧ p.Has caller.site (.callParameter index) ∧
    f.arguments = [] ∧ operand (address commands f.command.name) ∈ lower.arguments

/-- One call more: the rank stays lower, or something is called that was passed to `lower`. -/
theorem Entered.rank_lt_or_mem {f caller lower : Frame} (hcompiles : script.Compiles main p)
    (hcalm : ∀ c ∈ script.reachable main.name, script.isRecursive c = false)
    (h : Entered script p (script.reachable main.name) f caller)
    (hcaller : caller.Bounded script (script.reachable main.name) lower.arguments
      (script.rank lower.command))
    (hcallerMem : caller.command ∈ script.reachable main.name)
    (hmem : f.command ∈ script.reachable main.name) :
    (script.rank f.command < script.rank lower.command ∧
      f.Bounded script (script.reachable main.name) lower.arguments
        (script.rank lower.command)) ∨
      ((∃ index, p.Has caller.site (.callParameter index)) ∧ f.arguments = [] ∧
        operand (address (script.reachable main.name) f.command.name) ∈ lower.arguments) := by
  cases h with
  | named hmentions hgives =>
    obtain ⟨hlower, hbelow⟩ := hcaller.named hcompiles hcalm hcallerMem hmentions hgives
    exact .inl ⟨Nat.lt_of_lt_of_le hlower hcaller.rank, hbelow⟩
  | passed hhas hword harguments =>
    rcases hcaller.arguments f.command hmem hword with hgiven | hlower
    · exact .inr ⟨⟨_, hhas⟩, harguments, hgiven⟩
    · exact .inl ⟨hlower, Frame.bounded_of_nil (Nat.le_of_lt hlower) harguments⟩

/-- **Above a frame the ranks stay lower, unless something is called that was passed to it.** -/
theorem rank_lt_or_calledBack (hcompiles : script.Compiles main p)
    (hcalm : ∀ c ∈ script.reachable main.name, script.isRecursive c = false) {lower : Frame}
    (between : List Frame) {upper : Frame}
    (hchain : (upper :: (between ++ [lower])).IsChain
      (Entered script p (script.reachable main.name)))
    (hmem : ∀ f ∈ upper :: (between ++ [lower]), f.command ∈ script.reachable main.name) :
    (script.rank upper.command < script.rank lower.command ∧
      upper.Bounded script (script.reachable main.name) lower.arguments
        (script.rank lower.command)) ∨
      CalledBack p (script.reachable main.name) lower (upper :: (between ++ [lower])) := by
  -- Below `upper` stands `lower` itself, or a frame between them for which this is known.
  induction between generalizing upper with
  | nil =>
    obtain ⟨hentered, -⟩ := List.isChain_cons_cons.1 hchain
    obtain ⟨hupper, hmem⟩ := List.forall_mem_cons.1 hmem
    have hself : lower.Bounded script (script.reachable main.name) lower.arguments
        (script.rank lower.command) := ⟨Nat.le_refl _, fun _ _ => .inl⟩
    refine (hentered.rank_lt_or_mem hcompiles hcalm hself (hmem lower List.mem_cons_self)
      hupper).imp_right ?_
    rintro ⟨⟨index, hhas⟩, harguments, hword⟩
    exact ⟨upper, lower, index, List.infix_rfl, hhas, harguments, hword⟩
  | cons caller between ih =>
    obtain ⟨hentered, hchain⟩ := List.isChain_cons_cons.1 hchain
    obtain ⟨hupper, hmem⟩ := List.forall_mem_cons.1 hmem
    rcases ih hchain hmem with ⟨-, hbounded⟩ | ⟨f, below, index, hpiece, hhas, harguments, hword⟩
    · refine (hentered.rank_lt_or_mem hcompiles hcalm hbounded (hmem caller List.mem_cons_self)
        hupper).imp_right ?_
      rintro ⟨⟨index, hhas⟩, harguments, hword⟩
      exact ⟨upper, caller, index, ⟨[], between ++ [lower], rfl⟩, hhas, harguments, hword⟩
    · exact .inr ⟨f, below, index, List.infix_cons hpiece, hhas, harguments, hword⟩

/-- A command that is active twice has been passed something that is called in between. -/
theorem Active.calledBack (hcompiles : script.Compiles main p)
    (hcalm : ∀ c ∈ script.reachable main.name, script.isRecursive c = false)
    (h : Active p (script.reachable main.name) main top callers)
    (hchain : (top :: callers).IsChain (Entered script p (script.reachable main.name)))
    {above between below : List Frame} {upper lower : Frame}
    (hsplit : top :: callers = above ++ upper :: (between ++ lower :: below))
    (hsame : upper.command = lower.command) :
    CalledBack p (script.reachable main.name) lower (between ++ [lower]) := by
  have hpiece : upper :: (between ++ [lower]) <:+: top :: callers :=
    ⟨above, below, by rw [hsplit]; simp⟩
  have hframes := h.forall_mem hcompiles
  have hmem : ∀ f ∈ upper :: (between ++ [lower]), f.command ∈ script.reachable main.name :=
    fun f hf => (hframes f (hpiece.subset hf)).1
  have hpieceChain := List.IsChain.infix hchain hpiece
  rcases rank_lt_or_calledBack hcompiles hcalm between hpieceChain hmem with
    ⟨hlt, -⟩ | ⟨f, caller, index, hplace, hhas, harguments, hword⟩
  · rw [hsame] at hlt
    exact absurd hlt (Nat.lt_irrefl _)
  · refine ⟨f, caller, index, ?_, hhas, harguments, hword⟩
    rcases List.infix_cons_iff.1 hplace with hhead | htail
    · -- `upper` itself cannot be meant: it takes as much as `lower`, which was passed something.
      obtain ⟨rfl, -⟩ := List.cons_prefix_cons.1 hhead
      have hupper := (hframes f (hpiece.subset List.mem_cons_self)).2
      have hlower := (hframes lower (hpiece.subset (by simp))).2
      rw [harguments, hsame, ← hlower] at hupper
      rw [List.length_eq_zero_iff.1 hupper.symm] at hword
      cases hword
    · exact htail

/-- **A command is active twice only if the lower one of its frames was passed a command that has
been entered in between by calling a parameter.** -/
theorem active_again {source : String} {entry : Option String} {level : Level} {p : Program}
    (h : compile source entry level = .ok p) (hlevel : level = .basics ∨ level = .loops)
    {w : World} (hgrid : w.robot.OnGrid) (count : Nat) :
    ∃ script main, Script.parse source = .ok script ∧
      script.find? (entry.getD script.defaultEntry) = some main ∧
      ∃ top callers booleans pushed,
        Framed p (script.reachable main.name) main ((Machine.start w).after p count) top callers
          booleans pushed ∧
        ∀ above upper between lower below,
          top :: callers = above ++ upper :: (between ++ lower :: below) →
          upper.command = lower.command →
          CalledBack p (script.reachable main.name) lower (between ++ [lower]) := by
  obtain ⟨script, main, hparse, hmain, hcompiles, hkeeps⟩ := compiles_of_compile h
  have hcalm := hkeeps.noRecursion (by rcases hlevel with rfl | rfl <;> rfl)
  obtain ⟨-, top, callers, booleans, pushed, hframed, htraced⟩ :=
    hcompiles.explained_after hgrid count
  exact ⟨script, main, hparse, hmain, top, callers, booleans, pushed, hframed,
    fun above upper between lower below hsplit hsame =>
      hframed.active.calledBack hcompiles hcalm htraced.chain hsplit hsame⟩

theorem active_again_encore :
    ∃ p, compile encore none .basics = .ok p ∧
      ((Machine.start .start).after p 5).callDepth = 3 ∧
      ∃ script main, Script.parse encore = .ok script ∧
        script.find? (none.getD script.defaultEntry) = some main ∧
        ∃ top callers booleans pushed,
          Framed p (script.reachable main.name) main ((Machine.start .start).after p 5) top callers
            booleans pushed ∧
          ∀ above upper between lower below,
            top :: callers = above ++ upper :: (between ++ lower :: below) →
            upper.command = lower.command →
            CalledBack p (script.reachable main.name) lower (between ++ [lower]) := by
  obtain ⟨p, hp, hdepth⟩ := exists_encore
  exact ⟨p, hp, hdepth, active_again hp (.inl rfl) World.onGrid_start 5⟩

/-- Calls that nest as deep as there are commands make some command active twice. -/
theorem Framed.not_nodup {m : Machine} {booleans : List Bool} {pushed : List UInt16}
    (hcompiles : script.Compiles main p)
    (h : Framed p (script.reachable main.name) main m top callers booleans pushed)
    (hdepth : (script.reachable main.name).length ≤ m.callDepth) :
    ¬ ((top :: callers).map Frame.command).Nodup := by
  intro hnodup
  have hsubset : (top :: callers).map Frame.command ⊆ script.reachable main.name := by
    intro c hc
    obtain ⟨f, hf, rfl⟩ := List.mem_map.1 hc
    exact (h.active.forall_mem hcompiles f hf).1
  have hle := (List.subperm_of_subset hnodup hsubset).length_le
  rw [List.length_map, List.length_cons, ← h.depth] at hle
  omega

/-- The graph of calls knows nothing of calls through parameters, so a command can be active twice
at a level without recursion. -/
theorem encore_active_twice :
    ∃ p script main, compile encore none .basics = .ok p ∧ Script.parse encore = .ok script ∧
      script.find? (none.getD script.defaultEntry) = some main ∧ World.start.robot.OnGrid ∧
      (∃ top callers booleans pushed,
        Framed p (script.reachable main.name) main ((Machine.start .start).after p 5) top callers
          booleans pushed) ∧
      ∀ top callers booleans pushed,
        Framed p (script.reachable main.name) main ((Machine.start .start).after p 5) top callers
          booleans pushed →
        ¬ ((top :: callers).map Frame.command).Nodup := by
  obtain ⟨p, hp, hdepth⟩ := exists_encore
  obtain ⟨script, main, hparse, hmain, hcompiles, -⟩ := compiles_of_compile hp
  obtain ⟨-, top, callers, booleans, pushed, hframed, -⟩ :=
    hcompiles.explained_after World.onGrid_start 5
  have hcount : (script.reachable main.name).length = 3 := by
    obtain ⟨other, hother, hthree⟩ := exists_ok_of_any (x := Script.parse encore)
      (f := fun script => (script.reachable script.defaultEntry).length == 3) (by decide +kernel)
    rw [hparse] at hother
    cases hother
    rw [Script.name_of_find? hmain]
    exact eq_of_beq hthree
  exact ⟨p, script, main, hp, hparse, hmain, World.onGrid_start,
    ⟨top, callers, booleans, pushed, hframed⟩,
    fun _ _ _ _ h => h.not_nodup hcompiles (by rw [hcount, hdepth])⟩

end Reentry
end KarelRobot
