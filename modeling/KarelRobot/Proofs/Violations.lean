import KarelRobot.Proofs.Scoping

/-!
# The first violation of the scoping rules

The rules for names say what is in order and what is not: the parameters of a command are distinct,
a call passes as many commands as its target takes inside the command, and what it passes takes
nothing there.  A check that goes through the commands, their parameters, their calls and the
arguments of these one after the other finds nothing if and only if all of them are in order, and
otherwise it finds the first violation.

* `Finds` — a check that finds nothing in what is in order, and the violation in anything else.
* `Finds.findSome?` — the same of a check that goes through a list.
* `Script.CommandViolation`, `Script.CallViolation`, `Script.ArgumentViolation` — the violations.
* `check_is_lexical` — the check of a script in a table of names finds the first violation, and
  leaves the table as it was.
-/

set_option autoImplicit false
namespace KarelRobot

/-! ## Checks -/

section Checks

variable {α : Type} {f : α → Option Diagnostic} {InOrder : α → Prop}
  {Violates : α → Diagnostic → Prop}

/-- The check `f` finds nothing in what is in order, and a diagnostic in what violates a rule. -/
structure Finds (f : α → Option Diagnostic) (InOrder : α → Prop)
    (Violates : α → Diagnostic → Prop) : Prop where
  none_iff : ∀ x, f x = none ↔ InOrder x
  some_iff : ∀ x d, f x = some d ↔ Violates x d

/-- A member of the list is in violation, and all before it are in order. -/
def FirstViolation (InOrder : α → Prop) (Violates : α → Diagnostic → Prop) (xs : List α)
    (d : Diagnostic) : Prop :=
  ∃ before x following, xs = before ++ x :: following ∧ Violates x d ∧ ∀ y ∈ before, InOrder y

/-- A check of all members of a list. -/
theorem Finds.findSome? (h : Finds f InOrder Violates) :
    Finds (List.findSome? f) (fun xs => ∀ x ∈ xs, InOrder x)
      (FirstViolation InOrder Violates) where
  none_iff xs := by simp only [List.findSome?_eq_none_iff, h.none_iff]
  some_iff xs d := by simp only [List.findSome?_eq_some_iff, FirstViolation, h.none_iff, h.some_iff]

end Checks

/-! ## The rules -/

namespace Script

variable (script : Script) (c : Command)

/-- The diagnostic for a name that stands for nothing inside the command, with the nearest of the
names that do. -/
def undefinedIn (ident : Ident) : Diagnostic :=
  .unknownName ident.text ident.position (some (Problem.undefinedCommandHeadline ident.text))
    (c.parameters.map Ident.text ++ (script.commands.map Command.name ++ Action.names))

/-- What is wrong with an argument. -/
inductive ArgumentViolation (argument : Ident) : Diagnostic → Prop
  | undefined (h : ∀ n, ¬ script.HasArity c argument.text n) :
      ArgumentViolation argument (script.undefinedIn c argument)
  | higherOrder {n : Nat} (h : script.HasArity c argument.text n) (hn : n ≠ 0) :
      ArgumentViolation argument ⟨argument.position, .higherOrderArgument, none⟩

/-- A call passes as many commands as its target takes, and they take nothing. -/
structure CallInOrder (call : Call) : Prop where
  target : script.HasArity c call.target.text call.arguments.length
  arguments : ∀ argument ∈ call.arguments, script.HasArity c argument.text 0

/-- What is wrong with a call. -/
inductive CallViolation (call : Call) : Diagnostic → Prop
  | undefined (h : ∀ n, ¬ script.HasArity c call.target.text n) :
      CallViolation call (script.undefinedIn c call.target)
  | count {n : Nat} (h : script.HasArity c call.target.text n) (hn : n ≠ call.arguments.length) :
      CallViolation call ⟨call.target.position,
        .wrongArgumentCount call.target.text n call.arguments.length, none⟩
  | argument {d : Diagnostic} (h : script.HasArity c call.target.text call.arguments.length)
      (hfirst : FirstViolation (fun argument => script.HasArity c argument.text 0)
        (script.ArgumentViolation c) call.arguments d) : CallViolation call d

/-- The parameters of a command have distinct names, and the calls that it makes are in order. -/
structure CommandInOrder (calls : Command → List Call) (c : Command) : Prop where
  parameters : (c.parameters.map Ident.text).Nodup
  calls : ∀ call ∈ calls c, script.CallInOrder c call

/-- What is wrong with a command that makes some calls. -/
inductive CommandViolation (calls : Command → List Call) (c : Command) : Diagnostic → Prop
  /-- The first parameter with the name of one before it. -/
  | parameter {before following : List Ident} {parameter : Ident}
      (hsplit : c.parameters = before ++ parameter :: following)
      (hbefore : (before.map Ident.text).Nodup) (h : parameter.text ∈ before.map Ident.text) :
      CommandViolation calls c
        ⟨parameter.position, .duplicateParameter parameter.text, none⟩
  | call {d : Diagnostic} (hparameters : (c.parameters.map Ident.text).Nodup)
      (hfirst : FirstViolation (script.CallInOrder c) (script.CallViolation c) (calls c) d) :
      CommandViolation calls c d

end Script

/-! ## The checks find the violations -/

namespace Scope

section Inside

variable {script : Script} (hnew : ∀ c ∈ script.commands, Action.ofName? c.name = none)
  (c : Command)

include hnew

/-- What a name stands for inside a command. -/
theorem arity?_eq_some_iff (name : String) (n : Nat) :
    ((ofCommands script.commands).inside c.parameters).arity? name = some n ↔
      script.HasArity c name n := by
  refine ⟨hasArity_of_arity? hnew, fun h => ?_⟩
  have hparameter : c.hasParameter name = true ↔ name ∈ c.parameters.map Ident.text := by
    simp [Command.hasParameter]
  have hcommands := arity?_inside script.commands [] name
  rw [arity?_inside_eq]
  cases h with
  | parameter h => exact if_pos (hparameter.1 h)
  | builtin h hwhich =>
    have hfind : (script.commands.find? fun d => d.name == name) = none := by
      refine List.find?_eq_none.2 fun d hd hname => ?_
      rw [← eq_of_beq hname, hnew d hd] at hwhich
      cases hwhich
    rw [hfind, hwhich] at hcommands
    rw [if_neg (by rw [← hparameter, h]; exact Bool.false_ne_true)]
    exact hcommands
  | command h hbuiltin hd =>
    rw [Script.find?] at hd
    rw [hd] at hcommands
    rw [if_neg (by rw [← hparameter, h]; exact Bool.false_ne_true)]
    exact hcommands

theorem arity?_eq_none_iff (name : String) :
    ((ofCommands script.commands).inside c.parameters).arity? name = none ↔
      ∀ n, ¬ script.HasArity c name n := by
  simp only [← arity?_eq_some_iff hnew c, Option.eq_none_iff_forall_ne_some, ne_eq]

omit hnew in
theorem undefined_inside (ident : Ident) :
    ((ofCommands script.commands).inside c.parameters).undefined ident =
      script.undefinedIn c ident := by
  simp [undefined, Script.undefinedIn, inside, ofCommands, builtins, Function.comp_def]

theorem argumentProblem?_finds :
    Finds ((ofCommands script.commands).inside c.parameters).argumentProblem?
      (fun argument => script.HasArity c argument.text 0) (script.ArgumentViolation c) where
  none_iff argument := by
    rw [← arity?_eq_some_iff hnew c, argumentProblem?]
    split <;> simp_all
  some_iff argument d := by
    constructor
    · intro h
      rw [argumentProblem?] at h
      split at h
      next hnone =>
        cases h
        rw [undefined_inside]
        exact .undefined ((arity?_eq_none_iff hnew c _).1 hnone)
      · cases h
      next n hn hsome =>
        cases h
        exact .higherOrder ((arity?_eq_some_iff hnew c _ n).1 hsome) fun hzero => hn (hzero ▸ rfl)
    · rintro (h | @⟨n, h, hn⟩)
      · rw [argumentProblem?, (arity?_eq_none_iff hnew c _).2 h, undefined_inside]
      · rw [argumentProblem?, (arity?_eq_some_iff hnew c _ n).2 h]
        obtain ⟨n, rfl⟩ := Nat.exists_eq_succ_of_ne_zero hn
        rfl

theorem callProblem?_finds :
    Finds ((ofCommands script.commands).inside c.parameters).callProblem?
      (script.CallInOrder c) (script.CallViolation c) where
  none_iff call := by
    have harguments := (argumentProblem?_finds hnew c).findSome?.none_iff call.arguments
    constructor
    · intro h
      obtain ⟨htarget, hzero⟩ := arity?_of_callProblem? h
      exact ⟨(arity?_eq_some_iff hnew c _ _).1 htarget,
        fun argument hargument => (arity?_eq_some_iff hnew c _ _).1 (hzero argument hargument)⟩
    · intro h
      rw [callProblem?, (arity?_eq_some_iff hnew c _ _).2 h.target]
      simpa using harguments.2 h.arguments
  some_iff call d := by
    have harguments := (argumentProblem?_finds hnew c).findSome?.some_iff call.arguments d
    constructor
    · intro h
      rw [callProblem?] at h
      split at h
      next hnone =>
        cases h
        rw [undefined_inside]
        exact .undefined ((arity?_eq_none_iff hnew c _).1 hnone)
      next n hsome =>
        rw [arity?_eq_some_iff hnew c] at hsome
        split at h
        next hn =>
          cases h
          exact .count hsome hn
        next hn =>
          obtain rfl := not_ne_iff.1 hn
          exact .argument hsome (harguments.1 h)
    · rintro (h | ⟨h, hn⟩ | ⟨h, hfirst⟩)
      · rw [callProblem?, (arity?_eq_none_iff hnew c _).2 h, undefined_inside]
      · rw [callProblem?, (arity?_eq_some_iff hnew c _ _).2 h]
        exact if_pos hn
      · rw [callProblem?, (arity?_eq_some_iff hnew c _ _).2 h]
        exact (if_neg (not_ne_iff.2 rfl)).trans (harguments.2 hfirst)

end Inside

/-! ## Parameters -/

/-- The parameters up to one whose name is taken already. -/
theorem duplicateParameter?_eq_none_iff {seen : List String} (hseen : seen.Nodup)
    (parameters : List Ident) :
    duplicateParameter? seen parameters = none ↔ (parameters.map Ident.text ++ seen).Nodup := by
  induction parameters generalizing seen with
  | nil => simpa [duplicateParameter?] using hseen
  | cons parameter following ih =>
    rw [duplicateParameter?]
    by_cases hmem : parameter.text ∈ seen
    · simp [hmem]
    · rw [if_neg hmem, ih (List.nodup_cons.2 ⟨hmem, hseen⟩), List.nodup_middle, List.map_cons,
        List.cons_append]

theorem duplicateParameter?_eq_some_iff {seen : List String} (hseen : seen.Nodup)
    (parameters : List Ident) (d : Diagnostic) :
    duplicateParameter? seen parameters = some d ↔
      ∃ before parameter following, parameters = before ++ parameter :: following ∧
        (before.map Ident.text ++ seen).Nodup ∧
        parameter.text ∈ before.map Ident.text ++ seen ∧
        d = ⟨parameter.position, .duplicateParameter parameter.text, none⟩ := by
  induction parameters generalizing seen with
  | nil => simp [duplicateParameter?]
  | cons first rest ih =>
    rw [duplicateParameter?]
    by_cases hmem : first.text ∈ seen
    · rw [if_pos hmem, Option.some_inj]
      constructor
      · rintro rfl
        exact ⟨[], first, rest, rfl, hseen, hmem, rfl⟩
      · rintro ⟨before, parameter, following, hsplit, hnodup, -, rfl⟩
        cases before with
        | nil =>
          cases hsplit
          rfl
        | cons other before =>
          cases hsplit
          exact absurd (List.mem_append_right _ hmem) (List.nodup_cons.1 hnodup).1
    · rw [if_neg hmem, ih (List.nodup_cons.2 ⟨hmem, hseen⟩)]
      constructor
      · rintro ⟨before, parameter, following, rfl, hnodup, hparameter, rfl⟩
        refine ⟨first :: before, parameter, following, rfl, List.nodup_middle.1 hnodup, ?_, rfl⟩
        simpa [or_left_comm] using hparameter
      · rintro ⟨before, parameter, following, hsplit, hnodup, hparameter, rfl⟩
        cases before with
        | nil =>
          cases hsplit
          exact absurd hparameter hmem
        | cons other before =>
          cases hsplit
          refine ⟨before, parameter, following, rfl, List.nodup_middle.2 hnodup, ?_, rfl⟩
          simpa [or_left_comm] using hparameter

/-- **The rule for a caller finds what is wrong with the command.** -/
theorem callerProblem?_finds {script : Script}
    (hnew : ∀ c ∈ script.commands, Action.ofName? c.name = none) (calls : Command → List Call) :
    Finds (fun c => (ofCommands script.commands).callerProblem? ⟨c.parameters, calls c⟩)
      (script.CommandInOrder calls) (script.CommandViolation calls) where
  none_iff c := by
    rw [callerProblem?, Option.or_eq_none_iff, duplicateParameter?_eq_none_iff List.nodup_nil,
      List.append_nil, (callProblem?_finds hnew c).findSome?.none_iff]
    exact ⟨fun h => ⟨h.1, h.2⟩, fun h => ⟨h.parameters, h.calls⟩⟩
  some_iff c d := by
    rw [callerProblem?, Option.or_eq_some_iff, duplicateParameter?_eq_some_iff List.nodup_nil,
      duplicateParameter?_eq_none_iff List.nodup_nil, List.append_nil,
      (callProblem?_finds hnew c).findSome?.some_iff]
    simp only [List.append_nil]
    constructor
    · rintro (⟨before, parameter, following, hsplit, hbefore, hmem, rfl⟩ | ⟨hnodup, hfirst⟩)
      · exact .parameter hsplit hbefore hmem
      · exact .call hnodup hfirst
    · rintro (⟨hsplit, hbefore, hmem⟩ | ⟨hnodup, hfirst⟩)
      · exact .inl ⟨_, _, _, hsplit, hbefore, hmem, rfl⟩
      · exact .inr ⟨hnodup, hfirst⟩

end Scope

/-- **The check in one table is lexical scoping.**  Commands without the name of a built-in one are
checked together with the calls that they make.  Checking a command leaves any table as it was, and
so does checking all of them.  Nothing is found if and only if every command is in order, and what
is found otherwise is the first violation: commands and their calls in their order, parameters
before calls, and of a call first its target, then how many commands it passes, then each of
them. -/
theorem check_is_lexical (script : Script)
    (hnew : ∀ c ∈ script.commands, Action.ofName? c.name = none) (calls : Command → List Call) :
    let table := Scope.ofCommands script.commands
    let checked := table.checkCallers (script.commands.map fun c => ⟨c.parameters, calls c⟩)
    (∀ (scope : Scope) (caller : Caller), (scope.checkCaller caller).1 = scope) ∧
      checked.1 = table ∧
      (checked.2 = none ↔ ∀ c ∈ script.commands, script.CommandInOrder calls c) ∧
      ∀ d, checked.2 = some d ↔
        FirstViolation (script.CommandInOrder calls) (script.CommandViolation calls)
          script.commands d := by
  intro table checked
  have hchecked : checked = (table, script.commands.findSome? fun c =>
      table.callerProblem? ⟨c.parameters, calls c⟩) := by
    simp only [checked, Scope.checkCallers_eq, List.findSome?_map, Function.comp_def]
  have hfinds := (Scope.callerProblem?_finds hnew calls).findSome?
  refine ⟨fun scope caller => by rw [Scope.checkCaller_eq], by rw [hchecked], ?_, fun d => ?_⟩
  · rw [hchecked]
    exact hfinds.none_iff script.commands
  · rw [hchecked]
    exact hfinds.some_iff script.commands d

/-- A script with a command whose parameters have the name of a built-in command and its own.  In
the other command these names have their usual meaning again. -/
def masquerade : Script :=
  ⟨[⟨0, ⟨"outer", 5⟩, [⟨"turnLeft", 16⟩, ⟨"outer", 33⟩],
      .mk 42 [.call ⟨⟨"turnLeft", 44⟩, []⟩, .call ⟨⟨"outer", 56⟩, []⟩] 65⟩,
    ⟨67, ⟨"main", 72⟩, [], .mk 79 [.call ⟨⟨"outer", 81⟩, [⟨"turnLeft", 87⟩]⟩] 98⟩]⟩

theorem check_is_lexical_masquerade :
    (∀ c ∈ masquerade.commands, Action.ofName? c.name = none) ∧
      masquerade.callsProblem? = some ⟨81, .wrongArgumentCount "outer" 2 1, none⟩ ∧
      FirstViolation (masquerade.CommandInOrder fun c => c.body.calls)
        (masquerade.CommandViolation fun c => c.body.calls) masquerade.commands
        ⟨81, .wrongArgumentCount "outer" 2 1, none⟩ := by
  have hnew : ∀ c ∈ masquerade.commands, Action.ofName? c.name = none := by decide +kernel
  have hfound : masquerade.callsProblem? = some ⟨81, .wrongArgumentCount "outer" 2 1, none⟩ := by
    decide +kernel
  exact ⟨hnew, hfound, ((check_is_lexical masquerade hnew fun c => c.body.calls).2.2.2 _).1 hfound⟩

end KarelRobot
