import KarelRobot.Compile
import KarelRobot.Proofs.Linking
import KarelRobot.Proofs.Reachability
import KarelRobot.Proofs.Scoping

/-!
# What compiling guarantees

A program that `compile` returns comes from a well scoped script, is made of the commands that can
be reached from the command it starts with, and these keep to what the level allows.

* `Script.Compiles` — a program belongs to a script and the command to start with.
* `compiles_of_compile` — what a successful compilation says about text, script and program.
* `Script.Compiles.length_parameters_lt` — a command takes fewer commands than there are addresses.
* `Script.Located` — what a name in the code has become.
-/

set_option autoImplicit false
namespace KarelRobot

open Assembly

/-- The program `p` belongs to the script when it starts with the command `main`. -/
structure Script.Compiles (script : Script) (main : Command) (p : Program) : Prop where
  wellScoped : script.WellScoped
  find?_main : script.find? main.name = some main
  parameters_main : main.parameters = []
  assembled : Program.ofCommands (script.reachable main.name) = .ok p

/-- What is allowed at a level, for the commands that `main` reaches. -/
structure Script.KeepsTo (script : Script) (main : Command) (level : Level) : Prop where
  noWhile : level.allowsWhile = false → ∀ c ∈ script.reachable main.name,
    ∀ position condition body, Statement.whileLoop position condition body ∉ c.body.walk
  noRecursion : level.allowsRecursion = false → ∀ c ∈ script.reachable main.name,
    script.isRecursive c = false

namespace Script

/-- A review that finds nothing has nothing to complain about. -/
theorem review_eq_nil {script : Script} {entry : String} {level : Level}
    (h : script.review entry level = []) :
    script.entryProblems entry = [] ∧ script.earlyLoops entry level = [] ∧
      script.earlyRecursion entry level = [] := by
  have hlength := congrArg List.length h
  rw [review, List.length_mergeSort, List.length_nil, List.length_eq_zero_iff] at hlength
  simp only [List.append_eq_nil_iff] at hlength
  exact ⟨hlength.1.1.2, hlength.1.2, hlength.2⟩

theorem entry_of_entryProblems {script : Script} {entry : String}
    (h : script.entryProblems entry = []) :
    ∃ main, script.find? entry = some main ∧ main.parameters = [] := by
  unfold entryProblems at h
  split at h
  · cases h
  next main hmain =>
    split at h
    next hempty => exact ⟨main, hmain, List.isEmpty_iff.1 hempty⟩
    · cases h

/-- The problems with loops, one for each loop with a condition that can be reached. -/
theorem mem_earlyLoops_iff {script : Script} {entry : String} {level : Level} {d : Diagnostic} :
    d ∈ script.earlyLoops entry level ↔
      level.allowsWhile = false ∧ ∃ c ∈ script.reachable entry, ∃ position condition body,
        Statement.whileLoop position condition body ∈ c.body.walk ∧
          d = ⟨position, .whileNotAllowed, none⟩ := by
  have hpositions (c : Command) (position : Nat) : position ∈ whilePositions c ↔
      ∃ condition body, Statement.whileLoop position condition body ∈ c.body.walk := by
    rw [whilePositions, List.mem_filterMap]
    constructor
    · rintro ⟨s, hs, hposition⟩
      split at hposition
      · cases hposition
        exact ⟨_, _, hs⟩
      · cases hposition
    · rintro ⟨condition, body, hs⟩
      exact ⟨_, hs, rfl⟩
  rw [earlyLoops]
  cases level.allowsWhile with
  | true => simp
  | false =>
    simp only [Bool.false_eq_true, if_false, List.mem_flatMap, List.mem_map, hpositions, true_and]
    constructor
    · rintro ⟨c, hc, position, ⟨condition, body, hloop⟩, rfl⟩
      exact ⟨c, hc, position, condition, body, hloop, rfl⟩
    · rintro ⟨c, hc, position, condition, body, hloop, rfl⟩
      exact ⟨c, hc, position, ⟨condition, body, hloop⟩, rfl⟩

theorem not_mem_of_earlyLoops {script : Script} {entry : String} {level : Level}
    (h : script.earlyLoops entry level = []) (hlevel : level.allowsWhile = false) {c : Command}
    (hc : c ∈ script.reachable entry) (position : Nat) (condition : Condition) (body : Block) :
    Statement.whileLoop position condition body ∉ c.body.walk := by
  intro hloop
  have hmem := mem_earlyLoops_iff.2 ⟨hlevel, c, hc, position, condition, body, hloop, rfl⟩
  rw [h] at hmem
  cases hmem

theorem isRecursive_of_earlyRecursion {script : Script} {entry : String} {level : Level}
    (h : script.earlyRecursion entry level = []) (hlevel : level.allowsRecursion = false)
    {c : Command} (hc : c ∈ script.reachable entry) : script.isRecursive c = false := by
  rw [earlyRecursion, if_neg (by rw [hlevel]; exact Bool.false_ne_true), List.map_eq_nil_iff,
    recursive, List.filter_eq_nil_iff] at h
  exact Bool.eq_false_iff.2 (h c hc)

end Script

/-- A source text that can be read is compiled as a script. -/
theorem compile_of_parse {source : String} {script : Script} (h : Script.parse source = .ok script)
    (entry : Option String) (level : Level) :
    compile source entry level = script.compile (entry.getD script.defaultEntry) level := by
  rw [compile, h]

/-- A script with which nothing is wrong is put into machine code. -/
theorem Script.compile_of_review {script : Script} {entry : String} {level : Level}
    (h : script.review entry level = []) :
    script.compile entry level =
      (Program.ofCommands (script.reachable entry)).mapError fun d => [d] := by
  rw [Script.compile, h]

/-- **What a successful compilation says.** -/
theorem compiles_of_compile {source : String} {entry : Option String} {level : Level}
    {p : Program} (h : compile source entry level = .ok p) :
    ∃ script main, Script.parse source = .ok script ∧
      script.find? (entry.getD script.defaultEntry) = some main ∧ script.Compiles main p ∧
      script.KeepsTo main level := by
  unfold compile at h
  split at h
  · cases h
  next script hparse =>
    unfold Script.compile at h
    split at h
    next hreview =>
      obtain ⟨hentry, hloops, hrecursion⟩ := Script.review_eq_nil hreview
      obtain ⟨main, hmain, hparameters⟩ := Script.entry_of_entryProblems hentry
      have hname := Script.name_of_find? hmain
      rw [← hname] at hmain hloops hrecursion h
      refine ⟨script, main, hparse, by rw [← hname]; exact hmain, ?_, ?_⟩
      · refine ⟨Script.wellScoped_of_parse hparse, hmain, hparameters, ?_⟩
        cases hassembled : Program.ofCommands (script.reachable main.name) with
        | error d =>
          rw [hassembled] at h
          cases h
        | ok q =>
          rw [hassembled] at h
          cases h
          rfl
      · exact ⟨fun hlevel c hc => Script.not_mem_of_earlyLoops hloops hlevel hc,
          fun hlevel c hc => Script.isRecursive_of_earlyRecursion hrecursion hlevel hc⟩
    · cases h

/-- A script that can be compiled.  It passes a command on under the name of a built-in one. -/
def dance : String :=
  "void main() { repeat (2) { if (!onBeeper()) { twice(go); } } }" ++
  "void twice(void turnLeft()) { turnLeft(); turnLeft(); }" ++
  "void go() { while (frontIsClear()) { moveForward(); } moveForward(); }"

theorem exists_compile_dance : ∃ p, compile dance none .recursion = .ok p := by
  obtain ⟨p, hp, -⟩ : ∃ p, compile dance none .recursion = .ok p ∧ true = true :=
    exists_ok_of_any (by decide +kernel)
  exact ⟨p, hp⟩

namespace Script.Compiles

variable {script : Script} {main : Command} {p : Program}

theorem assembles (h : script.Compiles main p) : p.Assembles (script.reachable main.name) :=
  ⟨h.assembled, script.nodup_reachable _⟩

theorem main_mem (h : script.Compiles main p) : main ∈ script.reachable main.name :=
  mem_reachable_iff.2 ⟨main, h.find?_main, .refl⟩

/-- The program starts with the command to start with. -/
theorem address_main (h : script.Compiles main p) :
    address (script.reachable main.name) main.name = Program.entryPoint := by
  obtain ⟨following, hfollowing⟩ := reachable_eq_cons h.find?_main
  exact h.assembles.address_first hfollowing

/-- A call passes as many commands as its target takes, and passes on what takes nothing. -/
theorem hasArity_target (h : script.Compiles main p) {c : Command}
    (hc : c ∈ script.reachable main.name) {call : Call} (hcall : call ∈ c.body.calls) :
    script.HasArity c call.target.text call.arguments.length :=
  h.wellScoped.target c (mem_commands_of_mem_reachable hc) call hcall

theorem hasArity_argument (h : script.Compiles main p) {c : Command}
    (hc : c ∈ script.reachable main.name) {call : Call} (hcall : call ∈ c.body.calls)
    {argument : Ident} (hargument : argument ∈ call.arguments) :
    script.HasArity c argument.text 0 :=
  h.wellScoped.argument c (mem_commands_of_mem_reachable hc) call hcall argument hargument

/-- A command that is called has a line for each command that it takes, so it takes fewer than there
are addresses. -/
theorem length_parameters_lt (h : script.Compiles main p) {c : Command}
    (hc : c ∈ script.reachable main.name) : c.parameters.length < 0x1000 := by
  rcases mentioned_of_mem_reachable hc with hmain | ⟨parent, hparent, name, hname, hfind⟩
  · rw [h.find?_main] at hmain
    cases hmain
    rw [h.parameters_main]
    decide
  · obtain ⟨ident, hident, rfl⟩ := List.mem_map.1 hname
    obtain ⟨hident, hparameter⟩ := List.mem_filter.1 hident
    obtain ⟨call, hcall, hident⟩ := List.mem_flatMap.1 hident
    rw [← Block.calls_eq] at hcall
    have hglobal {n : Nat} (harity : script.HasArity parent ident.text n) :
        c.parameters.length = n := by
      cases harity with
      | parameter hyes => simp [hyes] at hparameter
      | builtin _ hwhich =>
        have hnew := h.wellScoped.new c (mem_commands_of_mem_reachable hc)
        rw [name_of_find? hfind, hwhich] at hnew
        cases hnew
      | command _ _ hd =>
        rw [hfind] at hd
        cases hd
        rfl
    rcases List.mem_cons.1 hident with rfl | hident
    · rw [hglobal (h.hasArity_target hparent hcall)]
      have hbounds := h.assembles.address_bounds hparent
      have hwords := Statement.length_words_le (.block parent.body)
      have hcallWords : call.arguments.length ≤ (Statement.block parent.body).words.length := by
        have hsub := List.sublist_flatten_of_mem (List.mem_map_of_mem
          (f := fun c : Call => (c.arguments ++ [c.target]).map Ident.text) hcall)
        have hle := hsub.length_le
        rw [List.length_map, List.length_append] at hle
        exact Nat.le_trans (Nat.le_add_right _ _) hle
      simp only [Program.entryPoint, Program.maxSize] at hbounds
      omega
    · rw [hglobal (h.hasArity_argument hparent hcall hident)]
      decide

end Script.Compiles

/-! ## What names refer to -/

/-- What a name with an arity has become in the code of the command `c`: a parameter by its
distance from the return address, a built-in command, or the address of a command. -/
inductive Script.Located (script : Script) (commands : List Command) (c : Command) (name : String) :
    Nat → Reference → Prop
  | parameter {index : Nat}
      (hindex : c.parameters.findIdx? (fun parameter => parameter.text == name) = some index)
      (hlt : index < c.parameters.length) :
      Located script commands c name 0 (.parameter (UInt16.ofNat (c.parameters.length - index)))
  | builtin {which : Action}
      (hindex : c.parameters.findIdx? (fun parameter => parameter.text == name) = none)
      (hwhich : Action.ofName? name = some which) :
      Located script commands c name 0 (.builtin which)
  | direct {d : Command}
      (hindex : c.parameters.findIdx? (fun parameter => parameter.text == name) = none)
      (hwhich : Action.ofName? name = none) (hd : script.find? name = some d)
      (hmem : d ∈ commands) (hmentions : script.Mentions c d) :
      Located script commands c name d.parameters.length
        (.direct (operand (address commands d.name)))

/-- **Every name in the code refers to what it stands for.** -/
theorem Script.located_of_hasArity {script : Script} {entry : String} {c : Command}
    (hc : c ∈ script.reachable entry) {call : Call} (hcall : call ∈ c.body.calls)
    {ident : Ident} (hident : ident ∈ call.references) {n : Nat}
    (harity : script.HasArity c ident.text n) :
    script.Located (script.reachable entry) c ident.text n
      (locate (script.reachable entry) c ident.text) := by
  have hnone (hno : c.hasParameter ident.text = false) :
      c.parameters.findIdx? (fun parameter => parameter.text == ident.text) = none := by
    rw [List.findIdx?_eq_none_iff]
    exact fun parameter hparameter =>
      Bool.eq_false_iff.2 (List.any_eq_false.1 hno parameter hparameter)
  unfold locate
  cases harity with
  | parameter hyes =>
    rw [Command.hasParameter, ← List.findIdx?_isSome] at hyes
    obtain ⟨index, hindex⟩ := Option.isSome_iff_exists.1 hyes
    rw [hindex]
    exact .parameter hindex (List.findIdx?_eq_some_iff_findIdx_eq.1 hindex).1
  | builtin hno hwhich =>
    rw [hnone hno, hwhich]
    exact .builtin (hnone hno) hwhich
  | command hno hbuiltin hd =>
    rw [hnone hno, hbuiltin]
    rw [Block.calls_eq] at hcall
    have hglobal : ident.text ∈ c.globalNames := List.mem_map_of_mem (List.mem_filter.2
      ⟨List.mem_flatMap.2 ⟨call, hcall, hident⟩, by rw [hno]; rfl⟩)
    have hmentions : script.Mentions c _ := ⟨ident.text, hglobal, hd⟩
    have hlocated := Script.Located.direct (hnone hno) hbuiltin hd
      (mem_reachable_of_mentions hc hmentions) hmentions
    rw [name_of_find? hd] at hlocated
    exact hlocated

namespace Script.Compiles

variable {script : Script} {main c : Command} {p : Program} {call : Call}

theorem located_target (h : script.Compiles main p) (hc : c ∈ script.reachable main.name)
    (hcall : call ∈ c.body.calls) :
    script.Located (script.reachable main.name) c call.target.text call.arguments.length
      (locate (script.reachable main.name) c call.target.text) :=
  located_of_hasArity hc hcall List.mem_cons_self (h.hasArity_target hc hcall)

theorem located_argument (h : script.Compiles main p) (hc : c ∈ script.reachable main.name)
    (hcall : call ∈ c.body.calls) {argument : Ident} (hargument : argument ∈ call.arguments) :
    script.Located (script.reachable main.name) c argument.text 0
      (locate (script.reachable main.name) c argument.text) :=
  located_of_hasArity hc hcall (List.mem_cons_of_mem _ hargument)
    (h.hasArity_argument hc hcall hargument)

/-- The number of a parameter is that of one of the commands that are passed. -/
theorem parameter_bounds (h : script.Compiles main p)
    (hc : c ∈ script.reachable main.name) {index : Nat} (hlt : index < c.parameters.length) :
    operand (c.parameters.length - index) < 0x1000 ∧
      0 < (operand (c.parameters.length - index)).toNat ∧
      (operand (c.parameters.length - index)).toNat ≤ c.parameters.length := by
  have hbound : c.parameters.length - index < Program.maxSize :=
    Nat.lt_of_le_of_lt (Nat.sub_le _ _) (h.length_parameters_lt hc)
  rw [toNat_operand hbound]
  exact ⟨operand_lt hbound, Nat.sub_pos_of_lt hlt, Nat.sub_le _ _⟩

end Script.Compiles
end KarelRobot
