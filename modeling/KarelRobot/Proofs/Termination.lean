import KarelRobot.Proofs.Correctness
import KarelRobot.Proofs.Safety

/-!
# Programs that come to an end

Without conditional loops and without recursion every script has a result.  Commands that are passed
on make this more than an induction over the call graph: the call of a parameter runs a command that
the caller has chosen.  But what is passed on takes nothing itself, so it is enough that everything
that parameters are bound to comes to an end on its own.

* `Script.Ends` — a statement has a result in every world.
* `Script.ends_of_calls` — without conditional loops a statement ends if its calls do.
* `Script.Compiles.ends_body` — without recursion the body of every command ends.
* `basics_terminates` — programs of the first level always stop.
-/

set_option autoImplicit false
namespace KarelRobot

open Assembly Machine

/-! ## Statements without conditional loops -/

/-- The statement has a result in every world. -/
def Script.Ends (script : Script) (b : Bindings) (s : Statement) : Prop :=
  ∀ w : World, w.robot.OnGrid → ∃ r, script.Runs b s w r

section Statements

variable {script : Script} {b : Bindings}

theorem Script.Ends.cons {opening closing : Nat} {first : Statement} {following : List Statement}
    (hfirst : script.Ends b first)
    (hfollowing : script.Ends b (.block (.mk opening following closing))) :
    script.Ends b (.block (.mk opening (first :: following) closing)) := by
  intro w hgrid
  obtain ⟨r, hr⟩ := hfirst w hgrid
  cases r with
  | done w' =>
    obtain ⟨r, hrest⟩ := hfollowing w' (hr.onGrid hgrid)
    exact ⟨r, .next hr hrest⟩
  | failed fault target w' => exact ⟨_, .nextFails hr⟩

theorem Script.Ends.repeatTimes {body : Block} (h : script.Ends b (.block body))
    (position times : Nat) : script.Ends b (.repeatTimes position times body) := by
  induction times with
  | zero => exact fun w _ => ⟨_, .repeatDone⟩
  | succ times ih =>
    intro w hgrid
    obtain ⟨r, hr⟩ := h w hgrid
    cases r with
    | done w' =>
      obtain ⟨r, hmore⟩ := ih w' (hr.onGrid hgrid)
      exact ⟨r, .repeatMore hr hmore⟩
    | failed fault target w' => exact ⟨_, .repeatFails hr⟩

/-- Not a conditional loop, and if it is a call, then one that ends. -/
def Statement.Bounded (script : Script) (b : Bindings) (part : Statement) : Prop :=
  (∀ call, part = .call call → script.Ends b part) ∧
    ∀ position condition body, part ≠ .whileLoop position condition body

theorem Statement.bounded_block (body : Block) : (Statement.block body).Bounded script b :=
  ⟨by nofun, by nofun⟩

/-- **Without conditional loops a statement ends if its calls do.** -/
theorem Script.ends_of_calls (s : Statement) (h : s.Everywhere (Statement.Bounded script b)) :
    script.Ends b s := by
  induction s using Statement.induction with
  | call call => exact (Statement.everywhere_call.1 h).1 call rfl
  | nil opening closing => exact fun w _ => ⟨_, .skip⟩
  | cons opening first following closing hfirst hfollowing =>
    refine .cons (hfirst fun part hpart => h part ?_) (hfollowing ?_)
    · exact List.mem_cons_of_mem _ (List.mem_append_left _ hpart)
    · exact h.block Statement.bounded_block fun _ hpart =>
        List.mem_cons_of_mem _ (List.mem_append_right _ hpart)
  | repeatTimes position times body hbody =>
    exact (hbody (h.block Statement.bounded_block (List.subset_cons_self _ _))).repeatTimes _ _
  | ifThen position condition body hbody =>
    have hbody := hbody (h.block Statement.bounded_block (List.subset_cons_self _ _))
    intro w hgrid
    obtain ⟨value, hvalue⟩ := condition.exists_value hgrid
    cases value with
    | true =>
      obtain ⟨r, hr⟩ := hbody w hgrid
      exact ⟨r, .ifThen hvalue hr⟩
    | false => exact ⟨_, .ifThenSkips hvalue⟩
  | ifElse position condition body otherwise hbody hother =>
    have hbody := hbody (h.block Statement.bounded_block fun _ hpart =>
      List.mem_cons_of_mem _ (List.mem_append_left _ hpart))
    have hother := hother fun part hpart =>
      h part (List.mem_cons_of_mem _ (List.mem_append_right _ hpart))
    intro w hgrid
    obtain ⟨value, hvalue⟩ := condition.exists_value hgrid
    cases value with
    | true =>
      obtain ⟨r, hr⟩ := hbody w hgrid
      exact ⟨r, .ifElse hvalue hr⟩
    | false =>
      obtain ⟨r, hr⟩ := hother w hgrid
      exact ⟨r, .ifElseSkips hvalue hr⟩
  | whileLoop position condition body hbody =>
    exact absurd rfl ((h _ List.mem_cons_self).2 position condition body)

end Statements

/-! ## Calls -/

/-- Calling it without passing anything on ends. -/
def Meaning.Ends (script : Script) : Meaning → Prop
  | action _ => True
  | command c => c.parameters = [] ∧ script.Ends [] (.block c.body)

/-- The body of a command ends whenever its parameters are bound to what ends. -/
def Command.Ends (script : Script) (c : Command) : Prop :=
  ∀ b : Bindings, b.map Prod.fst = c.parameters.map Ident.text →
    (∀ binding ∈ b, binding.2.Ends script) → script.Ends b (.block c.body)

theorem Command.Ends.meaning {script : Script} {c : Command} (h : c.Ends script)
    (hparameters : c.parameters = []) : (Meaning.command c).Ends script :=
  ⟨hparameters, h [] (by rw [hparameters]; rfl) (by nofun)⟩

section Calls

variable {script : Script} {main c : Command} {p : Program} {b : Bindings}

theorem Command.Ends.bind (h : c.Ends script) {meanings : List Meaning}
    (hlength : meanings.length = c.parameters.length)
    (hends : ∀ meaning ∈ meanings, meaning.Ends script) :
    script.Ends (c.bind meanings) (.block c.body) := by
  have hle : (c.parameters.map Ident.text).length ≤ meanings.length :=
    Nat.le_of_eq (by rw [List.length_map, hlength])
  exact h _ (List.map_fst_zip hle) fun binding hbinding => hends _ (List.of_mem_zip hbinding).2

/-- A call that passes nothing on ends if its target does. -/
theorem Meaning.Ends.call {call : Call} {meaning : Meaning} (h : meaning.Ends script)
    (hmeaning : script.meaning? b call.target.text = some meaning)
    (harguments : call.arguments = []) : script.Ends b (.call call) := by
  intro w hgrid
  cases meaning with
  | action which => exact Script.exists_runs_action hmeaning w
  | command d =>
    obtain ⟨r, hr⟩ := h.2 w hgrid
    have hnone : call.arguments.mapM (fun argument => script.meaning? b argument.text) =
        some [] := by
      rw [harguments]
      rfl
    have hbind : d.bind [] = [] := List.zip_nil_right
    exact ⟨r, .enter hmeaning hnone (by rw [hbind]; exact hr)⟩

variable (hnames : b.map Prod.fst = c.parameters.map Ident.text)
  (hends : ∀ binding ∈ b, binding.2.Ends script)
  (hcallees : ∀ d ∈ script.reachable main.name, script.Mentions c d → d.Ends script)

include hnames hends hcallees

/-- What takes nothing and is passed on ends. -/
theorem Script.Located.exists_ends {name : String} {reference : Reference}
    (h : script.Located (script.reachable main.name) c name 0 reference) :
    ∃ meaning, script.meaning? b name = some meaning ∧ meaning.Ends script := by
  obtain ⟨meaning, hmeaning, hmeans⟩ := h.exists_meaning hnames
  refine ⟨meaning, hmeaning, ?_⟩
  generalize hn : 0 = n at hmeans
  cases hmeans with
  | parameter hget => exact hends _ (List.mem_of_getElem? hget)
  | builtin which => trivial
  | direct hd hmentions =>
    exact (hcallees _ hd hmentions).meaning (List.length_eq_zero_iff.1 hn.symm)

theorem exists_meanings {arguments : List Ident}
    (hlocated : ∀ argument ∈ arguments, ∃ reference,
      script.Located (script.reachable main.name) c argument.text 0 reference) :
    ∃ meanings, arguments.mapM (fun argument => script.meaning? b argument.text) = some meanings ∧
      meanings.length = arguments.length ∧ ∀ meaning ∈ meanings, meaning.Ends script := by
  induction arguments with
  | nil => exact ⟨[], rfl, rfl, by nofun⟩
  | cons argument arguments ih =>
    obtain ⟨⟨reference, hreference⟩, hrest⟩ := List.forall_mem_cons.1 hlocated
    obtain ⟨meaning, hmeaning, hmeans⟩ := hreference.exists_ends hnames hends hcallees
    obtain ⟨meanings, hmeanings, hlength, hall⟩ := ih hrest
    refine ⟨meaning :: meanings, ?_, congrArg (· + 1) hlength,
      List.forall_mem_cons.2 ⟨hmeans, hall⟩⟩
    rw [List.mapM_cons, hmeaning, hmeanings]
    rfl

/-- A call ends if the commands that `c` mentions do. -/
theorem Script.Compiles.ends_call (h : script.Compiles main p)
    (hc : c ∈ script.reachable main.name) {call : Call} (hcall : call ∈ c.body.calls) :
    script.Ends b (.call call) := by
  obtain ⟨meaning, hmeaning, hmeans⟩ := (h.located_target hc hcall).exists_meaning hnames
  generalize hn : call.arguments.length = n, locate (script.reachable main.name) c _ = reference
    at hmeans
  cases hmeans with
  | parameter hget =>
    exact (hends _ (List.mem_of_getElem? hget)).call hmeaning (List.length_eq_zero_iff.1 hn)
  | builtin which =>
    have hends : (Meaning.action which).Ends script := trivial
    exact hends.call hmeaning (List.length_eq_zero_iff.1 hn)
  | direct hd hmentions =>
    obtain ⟨meanings, hmeanings, hlength, hall⟩ := exists_meanings hnames hends hcallees
      fun argument hargument => ⟨_, h.located_argument hc hcall hargument⟩
    have hbody := (hcallees _ hd hmentions).bind (hlength.trans hn) hall
    intro w hgrid
    obtain ⟨r, hr⟩ := hbody w hgrid
    exact ⟨r, .enter hmeaning hmeanings hr⟩

end Calls

/-! ## The first level -/

/-- **Without recursion and conditional loops all commands end.**  The induction is on the number of
commands that a command reaches. -/
theorem Script.Compiles.ends_body {script : Script} {main : Command} {p : Program}
    (h : script.Compiles main p) (hkeeps : script.KeepsTo main .basics) (c : Command)
    (hc : c ∈ script.reachable main.name) : c.Ends script := by
  induction hrank : script.rank c using Nat.strongRecOn generalizing c with
  | _ rank ih =>
    intro b hnames hends
    have hcallees : ∀ d ∈ script.reachable main.name, script.Mentions c d → d.Ends script := by
      intro d hd hmentions
      have hlt := rank_lt (find?_of_mem_reachable hc) (hkeeps.noRecursion rfl c hc) hmentions
      exact ih _ (hrank ▸ hlt) d hd rfl
    refine ends_of_calls _
      (List.forall_mem_cons.2 ⟨Statement.bounded_block _, fun part hpart => ⟨?_, ?_⟩⟩)
    · rintro call rfl
      refine h.ends_call hnames hends hcallees hc ?_
      rw [Block.calls_eq]
      exact List.mem_filterMap.2 ⟨_, hpart, rfl⟩
    · rintro position condition body rfl
      exact hkeeps.noWhile rfl c hc position condition body hpart

/-- **Programs of the first level always stop.**  After some number of instructions the program has
finished, or an action was impossible. -/
theorem basics_terminates {source : String} {entry : Option String} {p : Program}
    (h : compile source entry .basics = .ok p) {w : World} (hgrid : w.robot.OnGrid) :
    ∃ n m, (Machine.start w).runSlice p n = (m, .finished) ∨
      ∃ reason, reason ≠ .offPlan ∧
        (Machine.start w).runSlice p n = (m, .failed (.world reason)) := by
  obtain ⟨script, main, -, -, hcompiles, hkeeps⟩ := compiles_of_compile h
  obtain ⟨r, hr⟩ := hcompiles.ends_body hkeeps main hcompiles.main_mem []
    (by rw [hcompiles.parameters_main]; rfl) (by nofun) w hgrid
  obtain ⟨m, outcome, ⟨-, n, hn⟩, hshows⟩ := hcompiles.exists_stops hr
  refine ⟨n, m, ?_⟩
  cases r with
  | done w' =>
    obtain ⟨rfl, -⟩ := hshows
    exact .inl hn
  | failed reason target w' =>
    obtain ⟨-, rfl, -, -⟩ := hshows
    have hharmless := (hcompiles.kept.runSlice n (hcompiles.intact_start hgrid)).2
    rw [hn] at hharmless
    cases hharmless with
    | world hreason => exact .inr ⟨reason, hreason, hn⟩

/-- A script for the first level. -/
def paving : String :=
  "void main() { repeat (9) { twice(pave); turnLeft(); } }" ++
  "void twice(void lay()) { lay(); lay(); }" ++
  "void pave() { if (!onBeeper()) { dropBeeper(); } moveForward(); }"

theorem basics_terminates_paving :
    World.start.robot.OnGrid ∧ ∃ p, compile paving none .basics = .ok p ∧
      ∃ n m, (Machine.start .start).runSlice p n = (m, .finished) ∨
        ∃ reason, reason ≠ .offPlan ∧
          (Machine.start .start).runSlice p n = (m, .failed (.world reason)) := by
  obtain ⟨p, hp, -⟩ : ∃ p, compile paving none .basics = .ok p ∧ true = true :=
    exists_ok_of_any (by decide +kernel)
  exact ⟨World.onGrid_start, p, hp, basics_terminates hp World.onGrid_start⟩

end KarelRobot
