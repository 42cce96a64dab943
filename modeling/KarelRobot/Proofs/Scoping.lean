import KarelRobot.Proofs.Tokens

/-!
# Names in scope

A script that can be read uses its names rightly: every name that a command calls or passes on
stands for a parameter, a built-in command or another command of the script, a call passes as many
commands as its target takes, and what is passed on takes nothing.

* `Script.HasArity` — what a name stands for inside a command, and how much that takes.
* `Script.WellScoped` — all names of a script are used rightly.
* `Script.wellScoped_of_parse` — a script that can be read is well scoped.
-/

set_option autoImplicit false
namespace KarelRobot

/-- Inside the command `c`, a name stands for something that takes `n` commands: a parameter hides a
built-in command, and that a command of the script. -/
inductive Script.HasArity (script : Script) (c : Command) (name : String) : Nat → Prop
  | parameter (h : c.hasParameter name = true) : HasArity script c name 0
  | builtin {which : Action} (h : c.hasParameter name = false)
      (hwhich : Action.ofName? name = some which) : HasArity script c name 0
  | command {d : Command} (h : c.hasParameter name = false)
      (hbuiltin : Action.ofName? name = none) (hd : script.find? name = some d) :
      HasArity script c name d.parameters.length

/-- The names of a script are new, distinct and used rightly, and its loops are in range. -/
structure Script.WellScoped (script : Script) : Prop where
  distinct : (script.commands.map Command.name).Nodup
  /-- No command has the name of a built-in one. -/
  new : ∀ c ∈ script.commands, Action.ofName? c.name = none
  /-- A call passes as many commands as its target takes. -/
  target : ∀ c ∈ script.commands, ∀ call ∈ c.body.calls,
    script.HasArity c call.target.text call.arguments.length
  /-- What is passed on takes nothing. -/
  argument : ∀ c ∈ script.commands, ∀ call ∈ c.body.calls, ∀ argument ∈ call.arguments,
    script.HasArity c argument.text 0
  inRange : ∀ c ∈ script.commands, ∀ s ∈ c.body.walk, s.InRange

namespace Scope

/-! ## Looking names up -/

/-- Looking up a name in a table made of a list is looking for it in the list. -/
theorem lookup_map {α : Type} (key : α → String) (arity : α → Nat) (name : String) (xs : List α) :
    (xs.map fun x => (key x, arity x)).lookup name =
      (xs.find? fun x => key x == name).map arity := by
  induction xs with
  | nil => rfl
  | cons x xs ih =>
    rw [List.map_cons, List.lookup_cons, List.find?_cons]
    by_cases hname : key x = name
    · simp [hname]
    · rw [beq_false_of_ne hname, beq_false_of_ne (Ne.symm hname)]
      exact ih

theorem arity?_builtins (name : String) :
    builtins.arity? name = (Action.ofName? name).map fun _ => 0 := by
  rw [arity?, builtins, Action.names, List.map_map]
  exact lookup_map Action.name (fun _ => 0) name Action.all

/-- What is known inside a command. -/
theorem arity?_inside (commands : List Command) (parameters : List Ident) (name : String) :
    ((ofCommands commands).inside parameters).arity? name =
      (((parameters.find? fun parameter => parameter.text == name).map fun _ => 0).or
        (((commands.find? fun command => command.name == name).map
          fun command => command.parameters.length).or
          ((Action.ofName? name).map fun _ => 0))) := by
  rw [← arity?_builtins, arity?, arity?, inside, ofCommands, List.lookup_append,
    List.lookup_append, lookup_map, lookup_map]

theorem hasArity_of_arity? {script : Script} (hnew : ∀ c ∈ script.commands,
    Action.ofName? c.name = none) {c : Command} {name : String} {n : Nat}
    (h : ((ofCommands script.commands).inside c.parameters).arity? name = some n) :
    script.HasArity c name n := by
  rw [arity?_inside] at h
  cases hparameter : c.parameters.find? fun parameter => parameter.text == name with
  | some parameter =>
    rw [hparameter] at h
    cases h
    have hname := List.find?_some hparameter
    exact .parameter
      (List.any_eq_true.2 ⟨parameter, List.mem_of_find?_eq_some hparameter, hname⟩)
  | none =>
    have hno : c.hasParameter name = false :=
      List.any_eq_false.2 (List.find?_eq_none.1 hparameter)
    rw [hparameter, Option.map_none, Option.none_or] at h
    cases hcommand : script.find? name with
    | some d =>
      rw [Script.find?] at hcommand
      rw [hcommand] at h
      cases h
      have hname : d.name = name := by simpa using List.find?_some hcommand
      exact .command hno (by rw [← hname]; exact hnew d (List.mem_of_find?_eq_some hcommand))
        hcommand
    | none =>
      rw [Script.find?] at hcommand
      rw [hcommand, Option.map_none, Option.none_or] at h
      obtain ⟨which, hwhich, rfl⟩ := Option.map_eq_some_iff.1 h
      exact .builtin hno hwhich

/-! ## Checks that find nothing -/

/-- A command that may be defined has a new name. -/
theorem arity?_of_definitionProblem? {scope : Scope} {c : Command}
    (h : scope.definitionProblem? c = none) : scope.arity? c.name = none := by
  rw [definitionProblem?] at h
  split at h
  · assumption
  · cases h

theorem arity?_cons_eq_none {name other : String} {n : Nat} {scope : Scope}
    (h : arity? ((name, n) :: scope) other = none) :
    other ≠ name ∧ scope.arity? other = none := by
  rw [arity?, List.lookup_cons] at h
  split at h
  · cases h
  next hne => exact ⟨by simpa using hne, h⟩

/-- Commands that may be defined one after the other have new and distinct names. -/
theorem nodup_of_definitionsProblem? {scope : Scope} {commands : List Command}
    (h : scope.definitionsProblem? commands = none) :
    (commands.map Command.name).Nodup ∧ ∀ c ∈ commands, scope.arity? c.name = none := by
  induction commands generalizing scope with
  | nil => exact ⟨List.nodup_nil, List.forall_mem_nil _⟩
  | cons first following ih =>
    rw [definitionsProblem?] at h
    split at h
    · cases h
    next hnone =>
      obtain ⟨hnodup, hnew⟩ := ih h
      refine ⟨List.nodup_cons.2 ⟨fun hmem => ?_, hnodup⟩, List.forall_mem_cons.2
        ⟨arity?_of_definitionProblem? hnone, fun c hc => (arity?_cons_eq_none (hnew c hc)).2⟩⟩
      obtain ⟨c, hc, hname⟩ := List.mem_map.1 hmem
      exact (arity?_cons_eq_none (hnew c hc)).1 hname

/-- A call with which nothing is wrong passes what its target takes. -/
theorem arity?_of_callProblem? {scope : Scope} {call : Call} (h : scope.callProblem? call = none) :
    scope.arity? call.target.text = some call.arguments.length ∧
      ∀ argument ∈ call.arguments, scope.arity? argument.text = some 0 := by
  unfold callProblem? at h
  split at h
  · cases h
  next arity harity =>
    split at h
    · cases h
    next hne =>
      rw [ne_eq, Decidable.not_not] at hne
      refine ⟨by rw [harity, hne], fun argument hargument => ?_⟩
      have hnone := List.findSome?_eq_none_iff.1 h argument hargument
      unfold argumentProblem? at hnone
      split at hnone
      · cases hnone
      · assumption
      · cases hnone

end Scope

/-- **A script that can be read is well scoped.** -/
theorem Script.wellScoped_of_parse {source : String} {script : Script}
    (h : Script.parse source = .ok script) : script.WellScoped := by
  obtain ⟨-, -, -, hdefinitions, hscope⟩ := parse_sound h
  obtain ⟨hdistinct, hbuiltins⟩ := Scope.nodup_of_definitionsProblem? hdefinitions
  have hnew : ∀ c ∈ script.commands, Action.ofName? c.name = none := by
    intro c hc
    have hnone := hbuiltins c hc
    rw [Scope.arity?_builtins] at hnone
    exact Option.map_eq_none_iff.1 hnone
  have hcalls : ∀ c ∈ script.commands, ∀ call ∈ c.body.calls,
      ((Scope.ofCommands script.commands).inside c.parameters).callProblem? call = none := by
    intro c hc call hcall
    have hcommand := List.findSome?_eq_none_iff.1 hscope c hc
    unfold Scope.commandProblem? at hcommand
    split at hcommand
    · cases hcommand
    · exact List.findSome?_eq_none_iff.1 hcommand call hcall
  refine ⟨hdistinct, hnew, fun c hc call hcall => ?_, fun c hc call hcall argument hargument => ?_,
    fun c hc => inRange_of_parse h hc⟩
  · exact Scope.hasArity_of_arity? hnew (Scope.arity?_of_callProblem? (hcalls c hc call hcall)).1
  · exact Scope.hasArity_of_arity? hnew
      ((Scope.arity?_of_callProblem? (hcalls c hc call hcall)).2 argument hargument)

end KarelRobot
