import KarelRobot.Proofs.Suggestions
import KarelRobot.Script.Scope

/-!
# Shadowing in one table is lexical scoping

The check of the calls keeps one table of names, into which the parameters of a command are put and
from which they are taken away again.  Putting a name back undoes putting it in, so a table is
restored entry by entry if the last name is put back first, whether the names were known before or
not.  In between the table knows what is known inside the command.

* `Scope.restore_shadow` — a restored table is the table of before.
* `Scope.arity?_shadow` — the table in between is as good as the scope inside the command.
* `Scope.checkCaller_eq`, `Scope.checkCallers_eq` — what the check finds and leaves.
* `Script.callsProblem?_eq` — the check of a script comes to the rule.
-/

set_option autoImplicit false
namespace KarelRobot
namespace Scope

variable (scope : Scope) (name : String)

/-! ## The table -/

theorem arity?_cons (entry : String × Nat) :
    arity? (entry :: scope) name = if entry.1 = name then some entry.2 else scope.arity? name := by
  obtain ⟨key, n⟩ := entry
  rw [arity?, List.lookup_cons]
  by_cases hname : key = name
  · simp [hname]
  · simp [hname, beq_false_of_ne (Ne.symm hname), arity?]

theorem arity?_put (arity : Nat) (other : String) :
    (put name arity scope).arity? other =
      if name = other then some arity else scope.arity? other := by
  induction scope with
  | nil => rw [put, arity?_cons]
  | cons entry scope ih =>
    rw [put]
    split
    next heq =>
      rw [arity?_cons, arity?_cons, heq]
      split <;> rfl
    next hne =>
      rw [arity?_cons, arity?_cons, ih]
      split
      next heq => rw [if_neg (heq ▸ Ne.symm hne)]
      · rfl

/-- A name that was overwritten gets its number back. -/
theorem put_put {n : Nat} (h : scope.arity? name = some n) (arity : Nat) :
    put name n (put name arity scope) = scope := by
  induction scope with
  | nil => cases h
  | cons entry scope ih =>
    rw [arity?_cons] at h
    by_cases hname : entry.1 = name
    · rw [if_pos hname] at h
      cases h
      simp [put, ← hname]
    · rw [if_neg hname] at h
      simp [put, hname, ih h]

/-- A name that was not there is taken away again. -/
theorem forget_put (h : scope.arity? name = none) (arity : Nat) :
    (put name arity scope).forget name = scope := by
  induction scope with
  | nil => simp [put, forget]
  | cons entry scope ih =>
    rw [arity?_cons] at h
    by_cases hname : entry.1 = name
    · rw [if_pos hname] at h
      cases h
    · rw [if_neg hname] at h
      rw [put, if_neg hname, forget, List.filter_cons_of_pos (by simpa using hname)]
      exact congrArg (entry :: ·) (ih h)

/-- **Putting a name back undoes putting it in.** -/
theorem putBack_put (arity : Nat) :
    (put name arity scope).putBack (name, scope.arity? name) = scope := by
  cases h : scope.arity? name with
  | some n => exact put_put scope name h arity
  | none => exact forget_put scope name h arity

/-! ## The parameters of a caller -/

variable (displaced : Displaced) (parameters : List Ident)

/-- **A restored table is the table of before**, up to what had been displaced already. -/
theorem restore_shadow :
    (scope.shadow displaced parameters).1.restore (scope.shadow displaced parameters).2.1 =
      scope.restore displaced := by
  induction parameters generalizing scope displaced with
  | nil => rfl
  | cons parameter following ih =>
    rw [shadow]
    split
    · rfl
    · rw [ih, restore, List.foldl_cons, putBack_put]
      rfl

theorem problem_shadow :
    (scope.shadow displaced parameters).2.2 =
      duplicateParameter? (displaced.map Prod.fst) parameters := by
  induction parameters generalizing scope displaced with
  | nil => rfl
  | cons parameter following ih =>
    rw [shadow, duplicateParameter?]
    split
    · rfl
    · rw [ih]
      rfl

theorem arity?_inside_eq :
    (scope.inside parameters).arity? name =
      if name ∈ parameters.map Ident.text then some 0 else scope.arity? name := by
  induction parameters with
  | nil => simp [inside]
  | cons parameter following ih =>
    rw [inside, List.map_cons, List.cons_append, arity?_cons, ← inside, ih]
    by_cases hname : parameter.text = name
    · simp [hname]
    · simp [hname, Ne.symm hname]

/-- **While the parameters are in the table, it knows what is known inside the command.** -/
theorem arity?_shadow (h : (scope.shadow displaced parameters).2.2 = none) :
    (scope.shadow displaced parameters).1.arity? name = (scope.inside parameters).arity? name := by
  induction parameters generalizing scope displaced with
  | nil => rfl
  | cons parameter following ih =>
    rw [shadow] at h ⊢
    split at h
    · cases h
    next hnew =>
      rw [if_neg hnew, ih _ _ h, arity?_inside_eq, arity?_inside_eq, arity?_put]
      by_cases hname : parameter.text = name
      · simp [hname]
      · simp [hname, Ne.symm hname]

/-! ## The calls of a caller -/

variable {scope} {scope' : Scope}

theorem mem_names_iff : name ∈ scope.map Prod.fst ↔ scope.arity? name ≠ none := by
  induction scope with
  | nil => simp [arity?]
  | cons entry scope ih =>
    rw [List.map_cons, List.mem_cons, arity?_cons, ih]
    by_cases hname : entry.1 = name
    · simp [hname]
    · simp [hname, Ne.symm hname]

/-- What is wrong with a call depends on what is known, not on how the table holds it. -/
theorem callProblem?_congr (h : ∀ name, scope.arity? name = scope'.arity? name) (call : Call) :
    scope.callProblem? call = scope'.callProblem? call := by
  have hundefined (ident : Ident) : scope.undefined ident = scope'.undefined ident :=
    Diagnostic.unknownName_congr _ _ _ fun candidate => by
      rw [mem_names_iff, mem_names_iff, h]
  have hargument : scope.argumentProblem? = scope'.argumentProblem? := by
    funext argument
    rw [argumentProblem?, argumentProblem?, h, hundefined]
  rw [callProblem?, callProblem?, h, hundefined, hargument]

/-! ## All callers -/

/-- The first thing wrong with a caller, as a rule. -/
def callerProblem? (scope : Scope) (caller : Caller) : Option Diagnostic :=
  (duplicateParameter? [] caller.parameters).or
    (caller.calls.findSome? (scope.inside caller.parameters).callProblem?)

/-- **A caller is checked by the rule, and the table is as it was.** -/
theorem checkCaller_eq (scope : Scope) (caller : Caller) :
    scope.checkCaller caller = (scope, scope.callerProblem? caller) := by
  have hrestored := restore_shadow scope [] caller.parameters
  have hproblem := problem_shadow scope [] caller.parameters
  have harity := fun name => arity?_shadow scope name [] caller.parameters
  rw [checkCaller, callerProblem?]
  generalize scope.shadow [] caller.parameters = result at *
  obtain ⟨shadowed, displaced, problem⟩ := result
  change problem = duplicateParameter? [] caller.parameters at hproblem
  rw [← hproblem]
  cases problem with
  | some problem => exact Prod.ext hrestored rfl
  | none =>
    rw [Option.none_or]
    refine Prod.ext hrestored (congrArg caller.calls.findSome? (funext fun call => ?_))
    exact callProblem?_congr (fun name => harity name rfl) call

/-- **All callers are checked by the rule**, each of them in the same table. -/
theorem checkCallers_eq (scope : Scope) (callers : List Caller) :
    scope.checkCallers callers = (scope, callers.findSome? scope.callerProblem?) := by
  induction callers with
  | nil => rfl
  | cons caller following ih =>
    rw [checkCallers, checkCaller_eq, List.findSome?_cons]
    cases scope.callerProblem? caller with
    | some problem => rfl
    | none => exact ih

theorem callerProblem?_caller (scope : Scope) (c : Command) :
    scope.callerProblem? c.caller = scope.commandProblem? c := by
  rw [callerProblem?, commandProblem?, Command.caller]
  cases duplicateParameter? [] c.parameters <;> rfl

end Scope

/-- The check of a script comes to the rule. -/
theorem Script.callsProblem?_eq (script : Script) :
    script.callsProblem? = script.scopeProblem? := by
  rw [callsProblem?, Manuscript.callsProblem?, scopeProblem?, Scope.checkCallers_eq,
    List.findSome?_map]
  exact congrArg script.commands.findSome? (funext fun c => Scope.callerProblem?_caller _ c)

end KarelRobot
