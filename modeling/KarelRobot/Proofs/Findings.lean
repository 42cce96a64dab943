import KarelRobot.Proofs.Occurrences
import KarelRobot.Script.Review

/-!
# A review finds every problem once

What is wrong with a script is said here of places in it: of a definition, of a name that a
statement uses, of the command to start with, of a loop and of a command that leads back to itself.
At each place there is at most one problem.  A review lists the problems of all places, sorted by
their positions, and problems at one position in the order in which the kinds of places are named
above.  This holds of any script, also of one with repeated and undefined names.

* `Site` — the places.
* `Script.Finding` — what is wrong at a place.
* `Script.lists_redefinitions`, … — each of the checks lists the problems of its places.
* `review_lists_findings` — so does the review.
-/

set_option autoImplicit false
namespace KarelRobot

open Relation

/-! ## Problems and their places -/

/-- A place at which something can be wrong. -/
inductive Site where
  /-- The definition at an index. -/
  | definition (i : Nat)
  /-- The name at the index `word` of the call at a path into the command at the index `i`. -/
  | name (i : Nat) (path : List Nat) (word : Nat)
  /-- The command to start with. -/
  | entry
  /-- The loop at a path into the command at an index. -/
  | loop (i : Nat) (path : List Nat)
  /-- The command at an index, as part of the call graph. -/
  | cycle (i : Nat)
deriving Repr, DecidableEq

/-- The kinds of places are numbered. -/
def Site.kind : Site → Nat
  | definition _ => 0
  | name _ _ _ => 1
  | entry => 2
  | loop _ _ => 3
  | cycle _ => 4

namespace Script

variable (script : Script) (entry : String) (level : Level)

/-- The name of a definition is taken already, by an earlier one or by a built-in command. -/
inductive Redefinition (i : Nat) : Diagnostic → Prop
  | command {j : Nat} {c first : Command} (hc : script.commands[i]? = some c)
      (hfirst : script.First c.name j first) (hj : j ≠ i) :
      Redefinition i
        ⟨c.ident.position, .redefinedCommand c.name first.ident.position, none⟩
  | builtin {c : Command} {which : Action} (hfirst : script.First c.name i c)
      (hwhich : Action.ofName? c.name = some which) :
      Redefinition i ⟨c.ident.position, .redefinedBuiltin c.name, none⟩

/-- A name that is called or passed on stands for no parameter, no command and no built-in one. -/
inductive UndefinedName (i : Nat) (path : List Nat) (word : Nat) : Diagnostic → Prop
  | mk {c : Command} {ident : Ident} (hc : script.commands[i]? = some c)
      (huses : c.Uses path word ident) (hcommand : ∀ d ∈ script.commands, d.name ≠ ident.text)
      (hbuiltin : Action.ofName? ident.text = none) :
      UndefinedName i path word
        (.unknownName ident.text ident.position
          (some (Problem.undefinedCommandHeadline ident.text))
          (script.commands.map Command.name ++ Action.names))

/-- There is no command to start with, or it takes something. -/
inductive EntryProblem : Diagnostic → Prop
  | undefined (h : ∀ c ∈ script.commands, c.name ≠ entry) :
      EntryProblem ⟨0, .undefinedEntry entry, none⟩
  | takesParameters {i : Nat} {c : Command} (hfirst : script.First entry i c)
      (h : c.parameters ≠ []) :
      EntryProblem ⟨c.ident.position, .entryTakesParameters entry, none⟩

/-- A loop with a condition can be reached before the course has introduced such loops. -/
inductive EarlyLoop (i : Nat) (path : List Nat) : Diagnostic → Prop
  | mk {c : Command} {position : Nat} {condition : Condition} {body : Block}
      (hlevel : level = .basics) (hleads : script.LeadsTo entry i)
      (hc : script.commands[i]? = some c)
      (hloop : c.at? path = some (.whileLoop position condition body)) :
      EarlyLoop i path ⟨position, .whileNotAllowed, none⟩

/-- A command that can be reached lies on a cycle of calls before the course has introduced
recursion. -/
inductive EarlyRecursion (i : Nat) : Diagnostic → Prop
  | mk {c : Command} (hlevel : level ≠ .recursion) (hleads : script.LeadsTo entry i)
      (hc : script.commands[i]? = some c) (hcycle : TransGen script.Calls i i) :
      EarlyRecursion i ⟨c.ident.position, .recursionNotAllowed, none⟩

/-- What is wrong at a place of a script that is to start with the command `entry`. -/
def Finding : Site → Diagnostic → Prop
  | .definition i => script.Redefinition i
  | .name i path word => script.UndefinedName i path word
  | .entry => script.EntryProblem entry
  | .loop i path => script.EarlyLoop entry level i path
  | .cycle i => script.EarlyRecursion entry level i

/-! ## The checks -/

variable {script entry level}

section Redefinitions

variable {earlier following : List Command} {c first : Command}

/-- The first command of a name among the earlier ones is the first of all. -/
theorem exists_first_of_earlier (hsplit : script.commands = earlier ++ c :: following)
    (h : (earlier.find? fun other => other.name == c.name) = some first) :
    ∃ j, j < earlier.length ∧ script.First c.name j first := by
  obtain ⟨hname, j, hj, hget, hbefore⟩ := List.find?_eq_some_iff_getElem.1 h
  refine ⟨j, hj, ?_, eq_of_beq hname, fun k d hk hd => ?_⟩
  · rw [hsplit, List.getElem?_append_left hj, List.getElem?_eq_getElem hj, hget]
  · have hlt := Nat.lt_trans hk hj
    rw [hsplit, List.getElem?_append_left hlt, List.getElem?_eq_getElem hlt] at hd
    cases hd
    simpa using hbefore k hk

/-- A command whose name no earlier one has is the first one. -/
theorem first_of_earlier (hsplit : script.commands = earlier ++ c :: following)
    (h : (earlier.find? fun other => other.name == c.name) = none) :
    script.First c.name earlier.length c := by
  refine ⟨by simp [hsplit], rfl, fun k d hk hd => ?_⟩
  rw [hsplit, List.getElem?_append_left hk] at hd
  simpa using List.find?_eq_none.1 h d (List.mem_of_getElem? hd)

/-- What is wrong with the definition behind the earlier ones. -/
def redefinition? (earlier : List Command) (c : Command) : Option Diagnostic :=
  match earlier.find? fun other => other.name == c.name with
  | some first => some ⟨c.ident.position, .redefinedCommand c.name first.ident.position, none⟩
  | none =>
    if (Action.ofName? c.name).isSome then
      some ⟨c.ident.position, .redefinedBuiltin c.name, none⟩
    else none

theorem redefinitionsFrom_cons (earlier following : List Command) (c : Command) :
    redefinitionsFrom earlier (c :: following) =
      (redefinition? earlier c).toList ++ redefinitionsFrom (earlier ++ [c]) following := by
  rw [redefinitionsFrom, redefinition?]
  cases earlier.find? fun other => other.name == c.name with
  | some first => rfl
  | none =>
    dsimp only
    split <;> rfl

theorem redefinition_iff (hsplit : script.commands = earlier ++ c :: following) (d : Diagnostic) :
    script.Redefinition earlier.length d ↔ redefinition? earlier c = some d := by
  have hget : script.commands[earlier.length]? = some c := by simp [hsplit]
  rw [redefinition?]
  split
  next first hfind =>
    obtain ⟨j, hj, hfirst⟩ := exists_first_of_earlier hsplit hfind
    constructor
    · rintro (⟨hc, hother, hne⟩ | ⟨hother, hwhich⟩)
      · obtain rfl := Option.some_inj.1 (hget.symm.trans hc)
        obtain rfl := hother.index_eq hfirst
        obtain rfl := hother.command_eq hfirst.get
        rfl
      · obtain rfl := hother.command_eq hget
        exact absurd (hother.index_eq hfirst) (Nat.ne_of_gt hj)
    · intro hd
      cases hd
      exact .command hget hfirst (Nat.ne_of_lt hj)
  next hfind =>
    have hfirst := first_of_earlier hsplit hfind
    constructor
    · rintro (⟨hc, hother, hne⟩ | ⟨hother, hwhich⟩)
      · obtain rfl := Option.some_inj.1 (hget.symm.trans hc)
        exact absurd (hother.index_eq hfirst) hne
      · obtain rfl := hother.command_eq hget
        rw [hwhich]
        rfl
    · intro hd
      split at hd
      next hsome =>
        cases hd
        obtain ⟨which, hwhich⟩ := Option.isSome_iff_exists.1 hsome
        exact .builtin hfirst hwhich
      · cases hd

end Redefinitions

theorem Redefinition.index_lt {i : Nat} {d : Diagnostic} (h : script.Redefinition i d) :
    i < script.commands.length := by
  cases h with
  | command hc => exact (List.getElem?_eq_some_iff.1 hc).1
  | builtin hfirst => exact (List.getElem?_eq_some_iff.1 hfirst.get).1

theorem lists_redefinitionsFrom {earlier following : List Command}
    (hsplit : script.commands = earlier ++ following) :
    Lists (fun i d => earlier.length ≤ i ∧ script.Redefinition i d)
      (redefinitionsFrom earlier following) := by
  induction following generalizing earlier with
  | nil =>
    refine Lists.nil fun i d ⟨hi, hredefinition⟩ => ?_
    have hlt := hredefinition.index_lt
    rw [hsplit, List.append_nil] at hlt
    omega
  | cons c following ih =>
    have hrest := ih (show script.commands = (earlier ++ [c]) ++ following by simp [hsplit])
    rw [List.length_append, List.length_singleton] at hrest
    rw [redefinitionsFrom_cons]
    have hhere := Lists.toList earlier.length (redefinition? earlier c)
    refine (hhere.append hrest fun i _ _ hi hlt => by omega).congr fun i d => ?_
    rw [← redefinition_iff hsplit]
    constructor
    · rintro (⟨rfl, hredefinition⟩ | ⟨hlt, hredefinition⟩)
      · exact ⟨Nat.le_refl _, hredefinition⟩
      · exact ⟨Nat.le_of_succ_le hlt, hredefinition⟩
    · rintro ⟨hle, hredefinition⟩
      rcases Nat.eq_or_lt_of_le hle with rfl | hlt
      · exact .inl ⟨rfl, hredefinition⟩
      · exact .inr ⟨hlt, hredefinition⟩

theorem lists_redefinitions (script : Script) :
    Lists script.Redefinition script.redefinitions :=
  (lists_redefinitionsFrom (List.nil_append _).symm).congr fun i d => by simp

theorem lists_undefinedNames (script : Script) :
    Lists (fun (site : Nat × List Nat × Nat) d =>
      script.UndefinedName site.1 site.2.1 site.2.2 d) script.undefinedNames := by
  have hnames := (Lists.getElem? script.commands).flatMap fun c _ =>
    (c.lists_globals.filter fun ident => !script.isDefined ident.text).map fun ident =>
      Diagnostic.unknownName ident.text ident.position
        (some (Problem.undefinedCommandHeadline ident.text))
        (script.commands.map Command.name ++ Action.names)
  refine hnames.congr fun site d => ?_
  have hdefined (name : String) : (!script.isDefined name) = true ↔
      (∀ d ∈ script.commands, d.name ≠ name) ∧ Action.ofName? name = none := by
    rw [← find?_eq_none_iff]
    simp [isDefined]
  simp only [hdefined]
  constructor
  · rintro ⟨c, hc, ident, ⟨huses, hcommand, hbuiltin⟩, rfl⟩
    exact .mk hc huses hcommand hbuiltin
  · rintro ⟨hc, huses, hcommand, hbuiltin⟩
    exact ⟨_, hc, _, ⟨huses, hcommand, hbuiltin⟩, rfl⟩

theorem lists_entryProblems (script : Script) (entry : String) :
    Lists (fun (_ : Unit) d => script.EntryProblem entry d) (script.entryProblems entry) := by
  rw [entryProblems]
  split
  next hnone =>
    rw [find?_eq_none_iff] at hnone
    refine (Lists.single () _).congr fun _ d => ⟨?_, ?_⟩
    · rintro ⟨-, rfl⟩
      exact .undefined hnone
    · rintro (_ | ⟨hfirst, -⟩)
      · exact ⟨rfl, rfl⟩
      · exact absurd hfirst.name_eq (hnone _ (List.mem_of_getElem? hfirst.get))
  next c hc =>
    obtain ⟨i, hfirst⟩ := find?_eq_some_iff.1 hc
    have hdefined : ¬ ∀ c ∈ script.commands, c.name ≠ entry := fun h =>
      h c (List.mem_of_getElem? hfirst.get) hfirst.name_eq
    split
    next hempty =>
      refine Lists.nil fun _ d hproblem => ?_
      rcases hproblem with hnone | ⟨hother, hparameters⟩
      · exact hdefined hnone
      · obtain rfl := hother.index_eq hfirst
        obtain rfl := hother.command_eq hfirst.get
        exact hparameters (List.isEmpty_iff.1 hempty)
    next hparameters =>
      refine (Lists.single () _).congr fun _ d => ⟨?_, ?_⟩
      · rintro ⟨-, rfl⟩
        exact .takesParameters hfirst (by simpa using hparameters)
      · rintro (hnone | ⟨hother, -⟩)
        · exact absurd hnone hdefined
        · obtain rfl := hother.index_eq hfirst
          obtain rfl := hother.command_eq hfirst.get
          exact ⟨rfl, rfl⟩

theorem lists_whilePositions (c : Command) :
    Lists (fun path position =>
      ∃ condition body, c.at? path = some (.whileLoop position condition body))
      (whilePositions c) := by
  refine (c.lists_filterMap fun _ => rfl).congr fun path position => ?_
  constructor
  · rintro ⟨s, hs, hposition⟩
    cases s with
    | whileLoop position condition body =>
      cases hposition
      exact ⟨condition, body, hs⟩
    | _ => cases hposition
  · rintro ⟨condition, body, hs⟩
    exact ⟨_, hs, rfl⟩

theorem lists_earlyLoops (script : Script) (entry : String) (level : Level) :
    Lists (fun (site : Nat × List Nat) d => script.EarlyLoop entry level site.1 site.2 d)
      (script.earlyLoops entry level) := by
  rw [earlyLoops]
  cases level with
  | basics =>
    have hloops := (lists_reachable script entry).flatMap fun c _ =>
      (lists_whilePositions c).map fun position => (⟨position, .whileNotAllowed, none⟩ : Diagnostic)
    refine hloops.congr fun site d => ⟨?_, ?_⟩
    · rintro ⟨c, ⟨hleads, hc⟩, position, ⟨condition, body, hloop⟩, rfl⟩
      exact .mk rfl hleads hc hloop
    · rintro ⟨-, hleads, hc, hloop⟩
      exact ⟨_, ⟨hleads, hc⟩, _, ⟨_, _, hloop⟩, rfl⟩
  | loops | recursion => exact Lists.nil fun _ _ ⟨hlevel, _, _, _⟩ => by cases hlevel

theorem lists_earlyRecursion (script : Script) (entry : String) (level : Level) :
    Lists (script.EarlyRecursion entry level) (script.earlyRecursion entry level) := by
  have hcycles := ((lists_reachable script entry).filter script.isRecursive).map fun c =>
    (⟨c.ident.position, .recursionNotAllowed, none⟩ : Diagnostic)
  have hcycle {i : Nat} {c : Command} (hleads : script.LeadsTo entry i)
      (hc : script.commands[i]? = some c) :
      script.isRecursive c = true ↔ TransGen script.Calls i i := by
    obtain ⟨d, -, hfirst⟩ := leadsTo_iff.1 hleads
    obtain rfl := hfirst.command_eq hc
    rw [isRecursive_iff (find?_eq_some_iff.2 ⟨i, hfirst⟩), transGen_calls_iff hfirst]
  have hiff (hlevel : level ≠ .recursion) : Lists (script.EarlyRecursion entry level)
      ((script.recursive entry).map fun c => ⟨c.ident.position, .recursionNotAllowed, none⟩) := by
    refine hcycles.congr fun i d => ⟨?_, ?_⟩
    · rintro ⟨c, ⟨⟨hleads, hc⟩, hrecursive⟩, rfl⟩
      exact .mk hlevel hleads hc ((hcycle hleads hc).1 hrecursive)
    · rintro ⟨-, hleads, hc, hrecursive⟩
      exact ⟨_, ⟨⟨hleads, hc⟩, (hcycle hleads hc).2 hrecursive⟩, rfl⟩
  rw [earlyRecursion]
  cases level with
  | basics | loops => exact hiff (by simp)
  | recursion => exact Lists.nil fun _ _ ⟨hlevel, _, _, _⟩ => hlevel rfl

end Script

/-- The problems of the places of one kind. -/
theorem Lists.ofKind {σ : Type} {Finds : Site → Diagnostic → Prop} {ds : List Diagnostic}
    {k : Nat} (site : σ → Site) (h : Lists (fun label d => Finds (site label) d) ds)
    (hinjective : Function.Injective site) (hkind : ∀ s, s.kind = k ↔ ∃ label, site label = s) :
    Lists (fun s d => s.kind = k ∧ Finds s d) ds := by
  refine (h.relabel hinjective).congr fun s d => ?_
  rw [hkind]
  constructor
  · rintro ⟨label, rfl, hfinds⟩
    exact ⟨⟨label, rfl⟩, hfinds⟩
  · rintro ⟨⟨label, rfl⟩, hfinds⟩
    exact ⟨label, rfl, hfinds⟩

/-- The checks are made one after the other. -/
theorem Script.staged_findings (script : Script) (entry : String) (level : Level) :
    Staged Site.kind (script.Finding entry level) 5
      (script.redefinitions ++ script.undefinedNames ++ script.entryProblems entry ++
        script.earlyLoops entry level ++ script.earlyRecursion entry level) := by
  refine ((((Staged.nil.append ?_).append ?_).append ?_).append ?_).append ?_
  · refine Lists.ofKind Site.definition script.lists_redefinitions (fun i j => ?_) fun s => ?_
    · simp
    · cases s <;> simp [Site.kind]
  · refine Lists.ofKind (fun site : Nat × List Nat × Nat => .name site.1 site.2.1 site.2.2)
      script.lists_undefinedNames (fun site site' => ?_) fun s => ?_
    · simp [Prod.ext_iff]
    · cases s <;> simp [Site.kind]
  · refine Lists.ofKind (fun _ => Site.entry) (script.lists_entryProblems entry)
      (fun _ _ _ => rfl) fun s => ?_
    cases s <;> simp [Site.kind]
  · refine Lists.ofKind (fun site : Nat × List Nat => .loop site.1 site.2)
      (script.lists_earlyLoops entry level) (fun site site' => ?_) fun s => ?_
    · simp [Prod.ext_iff]
    · cases s <;> simp [Site.kind]
  · refine Lists.ofKind Site.cycle (script.lists_earlyRecursion entry level) (fun i j => ?_)
      fun s => ?_
    · simp
    · cases s <;> simp [Site.kind]

/-- **A review lists what is wrong with a script, place by place.**  Each place with a problem is
found once, with that problem and no other, and nothing else is found.  The findings are sorted by
their positions, and findings at one position by the kinds of their places. -/
theorem review_lists_findings (script : Script) (entry : String) (level : Level) :
    ∃ findings, Enumerates (script.Finding entry level) findings ∧
      script.review entry level = findings.map Prod.snd ∧
      findings.Pairwise fun a b => a.2.position < b.2.position ∨
        a.2.position = b.2.position ∧ a.1.kind ≤ b.1.kind := by
  obtain ⟨findings, hfindings, hsorted, horder⟩ :=
    (script.staged_findings entry level).mergeSort Diagnostic.position
  refine ⟨findings, ⟨hfindings.nodup, fun site d => ?_⟩, hsorted.symm, horder⟩
  rw [hfindings.mem_iff, and_iff_right]
  cases site <;> simp [Site.kind]

/-- A script put together from one source twice.  Both findings have the position of the name. -/
example :
    let main : Command := ⟨0, ⟨"main", 5⟩, [], .mk 12 [.call ⟨⟨"main", 14⟩, []⟩] 22⟩
    Script.review ⟨[main, main]⟩ "main" .loops =
      [⟨5, .redefinedCommand "main" 5, none⟩, ⟨5, .recursionNotAllowed, none⟩] := by
  cbv

end KarelRobot
