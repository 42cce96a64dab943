import KarelRobot.Proofs.Simulation

/-!
# Compiled programs are correct

A program that `compile` returns does what the script says, for every world on the grid: it comes to
an end with the same world, or it fails at the same call with the same world, or both go on forever.

* `Program.Refines` — a program and a script agree.
* `compile_correct` — the program of a source text agrees with its script.
-/

set_option autoImplicit false
namespace KarelRobot

open Assembly Machine

/-- The program and the script from which it comes agree about every world on the grid: about the
worlds in which they come to an end, and about the calls at which they fail. -/
structure Program.Refines (p : Program) (script : Script) (main : Command) : Prop where
  finished_iff : ∀ w : World, w.robot.OnGrid → ∀ w' : World,
    (∃ looks m, (Machine.start w).run p looks = (m, .finished) ∧ m.world = w') ↔
      script.Runs [] (.block main.body) w (.done w')
  failed_iff : ∀ w : World, w.robot.OnGrid → ∀ (fault : World.Fault) (w' : World),
    ∀ call ∈ script.calls,
      (∃ looks m, (Machine.start w).run p looks = (m, .failed (.world fault)) ∧
          (m.current? p).bind Instruction.position = some call.target.position ∧ m.world = w') ↔
        script.Runs [] (.block main.body) w (.failed fault call.target w')
  /-- Nothing else stops the machine, except that its time is up. -/
  stopped : ∀ w : World, w.robot.OnGrid → ∀ (looks : Nat) (m : Machine) (outcome : Outcome),
    (Machine.start w).run p looks = (m, outcome) →
      outcome = .finished ∨
      (∃ fault, ∃ call ∈ script.calls, outcome = .failed (.world fault) ∧
        (m.current? p).bind Instruction.position = some call.target.position) ∨
      ∃ position, outcome = .failed (.infiniteLoop position)

/-- A machine that has stopped shows a result of the script. -/
def Shows (script : Script) (p : Program) (m : Machine) (outcome : Outcome) : Result → Prop
  | .done w => outcome = .finished ∧ m.world = w
  | .failed fault target w =>
    (∃ call ∈ script.calls, call.target = target) ∧ outcome = .failed (.world fault) ∧
      m.world = w ∧ (m.current? p).bind Instruction.position = some target.position

namespace Script.Compiles

variable {script : Script} {main : Command} {p : Program} {w : World}

theorem serves_main (h : script.Compiles main p) :
    Serves (script.reachable main.name) main [] [] :=
  ⟨h.main_mem, by rw [h.parameters_main]; rfl, by nofun, rfl⟩

theorem contains_main (h : script.Compiles main p) :
    p.Contains (script.reachable main.name) main (.block main.body) Program.entryPoint := by
  rw [← h.address_main]
  exact h.contains_body h.main_mem

/-- The machine stops and shows the result of the script. -/
theorem exists_stops (h : script.Compiles main p) {r : Result}
    (hr : script.Runs [] (.block main.body) w r) :
    ∃ m outcome, Stops p (Machine.start w) m outcome ∧ Shows script p m outcome r := by
  have hleads := hr.leads h h.serves_main h.contains_main 0 []
  cases r with
  | done w' =>
    obtain ⟨events, hreaches⟩ := hleads
    have hret := h.has_ret h.main_mem
    rw [h.address_main] at hret
    have hstep : step p ⟨w', _, [], 0, false, events⟩ = (⟨w', _, [], 0, true, events⟩, .finished) :=
      step_of_has hret (Op.fits_of_none rfl) rfl fun _ => rfl
    exact ⟨_, _, hreaches.stops (.of_step hstep (by nofun)), rfl, rfl⟩
  | failed fault target w' =>
    obtain ⟨hcall, m, hstops, hm⟩ := hleads
    exact ⟨m, _, hstops, hcall, rfl, hm⟩

/-- A machine that stops shows a result that the script has. -/
theorem exists_shows (h : script.Compiles main p) (hgrid : w.robot.OnGrid) {m : Machine}
    {outcome : Outcome} (hstops : Stops p (Machine.start w) m outcome) :
    ∃ r, script.Runs [] (.block main.body) w r ∧ Shows script p m outcome r := by
  obtain ⟨n, hn⟩ := hstops.not_lasts
  obtain ⟨r, hr⟩ :=
    (h.proceeds n _ h.serves_main h.contains_main hgrid 0 []).resolve_right hn
  obtain ⟨m', outcome', hstops', hshows⟩ := h.exists_stops hr
  obtain ⟨rfl, rfl⟩ := hstops.unique hstops'
  exact ⟨r, hr, hshows⟩

/-- The results of the script are what the machine shows.  A call is known by the position of its
target. -/
theorem refines (h : script.Compiles main p) (hposition : ∀ c ∈ script.calls, ∀ d ∈ script.calls,
    c.target.position = d.target.position → c = d) : p.Refines script main := by
  constructor
  case finished_iff =>
    intro w hgrid w'
    constructor
    · rintro ⟨looks, m, hrun, rfl⟩
      obtain ⟨r, hr, hshows⟩ := h.exists_shows hgrid ((run_eq_iff_stops (by nofun)).1 ⟨looks, hrun⟩)
      cases r with
      | done w' =>
        obtain ⟨-, rfl⟩ := hshows
        exact hr
      | failed fault target w' => cases hshows.2.1
    · intro hr
      obtain ⟨m, outcome, hstops, rfl, hworld⟩ := h.exists_stops hr
      obtain ⟨looks, hrun⟩ := hstops.exists_run
      exact ⟨looks, m, hrun, hworld⟩
  case failed_iff =>
    intro w hgrid fault w' call hcall
    constructor
    · rintro ⟨looks, m, hrun, hat, rfl⟩
      obtain ⟨r, hr, hshows⟩ := h.exists_shows hgrid ((run_eq_iff_stops (by nofun)).1 ⟨looks, hrun⟩)
      cases r with
      | done w' => cases hshows.1
      | failed fault' target w' =>
        obtain ⟨⟨other, hother, rfl⟩, houtcome, rfl, hat'⟩ := hshows
        cases houtcome
        rw [hat, Option.some_inj] at hat'
        rw [hposition call hcall other hother hat']
        exact hr
    · intro hr
      obtain ⟨m, outcome, hstops, -, rfl, hworld, hat⟩ := h.exists_stops hr
      obtain ⟨looks, hrun⟩ := hstops.exists_run
      exact ⟨looks, m, hrun, hat, hworld⟩
  case stopped =>
    intro w hgrid looks m outcome hrun
    rcases run_cases (p := p) looks (Machine.start w) with hstops | htime
    · rw [hrun] at hstops
      obtain ⟨r, -, hshows⟩ := h.exists_shows hgrid hstops
      cases r with
      | done w' => exact .inl hshows.1
      | failed fault target w' =>
        obtain ⟨⟨call, hcall, rfl⟩, houtcome, -, hat⟩ := hshows
        exact .inr (.inl ⟨fault, call, hcall, houtcome, hat⟩)
    · rw [hrun] at htime
      exact .inr (.inr htime)

end Script.Compiles

/-- **Compiled programs are correct.**  Whatever the level, the program of a source text and the
command to start with do the same to every world on the grid. -/
theorem compile_correct {source : String} {entry : Option String} {level : Level} {p : Program}
    (h : compile source entry level = .ok p) :
    ∃ script main, Script.parse source = .ok script ∧
      script.find? (entry.getD script.defaultEntry) = some main ∧ p.Refines script main := by
  obtain ⟨script, main, hparse, hmain, hcompiles, -⟩ := compiles_of_compile h
  exact ⟨script, main, hparse, hmain,
    hcompiles.refines fun _ hc _ hd => Script.call_eq_of_position hparse hc hd⟩

theorem compile_correct_dance :
    ∃ p, compile dance none .recursion = .ok p ∧
      ∃ script main, Script.parse dance = .ok script ∧
        script.find? script.defaultEntry = some main ∧ p.Refines script main := by
  obtain ⟨p, hp⟩ := exists_compile_dance
  exact ⟨p, hp, compile_correct hp⟩

end KarelRobot
