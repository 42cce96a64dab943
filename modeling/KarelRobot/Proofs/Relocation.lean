import KarelRobot.Proofs.Linking
import KarelRobot.Proofs.Reachability
import KarelRobot.Compile
import Mathlib.Data.List.Forall2
import Mathlib.Order.Monotone.Basic

/-!
# Scripts at other positions

Trees keep the positions of their words, and so do the instructions and the diagnostics made from
them.  Moving all positions of a script moves those of its code and of its review and does nothing
else: names alone decide which commands are reached, and words alone what is put into machine code.
Positions are compared in one place only, where a review is sorted, and there their order is all
that counts.

* `Script.relocate` — a script with all its positions moved.
* `Matches` — two computations come to the same thing, positions apart.
* `Script.reachable_relocate` — the search over the call graph does not look at positions.
* `Script.refusals_relocate` — neither does a review, as long as the order stays the same.
* `Program.ofCommands_relocate` — the code has the same words.
* `Script.gist_relocate` — so a script compiles to the same wherever it stands.
-/

set_option autoImplicit false
namespace KarelRobot

/-! ## Results that match -/

/-- Two computations succeed with related results, or fail for the same reason, wherever that is. -/
inductive Matches {α β : Type} (R : α → β → Prop) :
    Except Diagnostic α → Except Diagnostic β → Prop
  | ok {a : α} {b : β} (h : R a b) : Matches R (.ok a) (.ok b)
  | error {d e : Diagnostic} (h : e.problem = d.problem) : Matches R (.error d) (.error e)

section Matching

variable {α β α' β' : Type} {R : α → β → Prop} {S : α' → β' → Prop}

theorem Matches.bind {x : Except Diagnostic α} {y : Except Diagnostic β}
    {k : α → Except Diagnostic α'} {l : β → Except Diagnostic β'} (h : Matches R x y)
    (hkl : ∀ a b, R a b → Matches S (k a) (l b)) : Matches S (x >>= k) (y >>= l) := by
  cases h with
  | ok h => exact hkl _ _ h
  | error h => exact .error h

/-- Computations match that go on unless something is wrong, if that is the same in both. -/
theorem Matches.unless {x : Except Diagnostic α} {y : Except Diagnostic β}
    {found found' : Option Diagnostic} :
    found'.map Diagnostic.problem = found.map Diagnostic.problem → Matches R x y →
      Matches R (match found with | some d => .error d | none => x)
        (match found' with | some d => .error d | none => y) := by
  intro hfound h
  cases found with
  | none =>
    cases found' with
    | none => exact h
    | some e => cases hfound
  | some d =>
    cases found' with
    | none => cases hfound
    | some e => exact .error (Option.some.inj hfound)

/-- Computations that match for all members of a list match for the list. -/
theorem Matches.mapM {k : α → Except Diagnostic α'} {l : β → Except Diagnostic β'}
    {move : α → β} (h : ∀ a, Matches S (k a) (l (move a))) (xs : List α) :
    Matches (List.Forall₂ S) (xs.mapM k) ((xs.map move).mapM l) := by
  induction xs with
  | nil => exact .ok .nil
  | cons a xs ih =>
    rw [List.map_cons, List.mapM_cons, List.mapM_cons]
    refine (h a).bind fun b c hbc => ih.bind fun bs cs hbcs => .ok (.cons hbc hbcs)

end Matching

/-! ## Moving trees -/

/-- A name at another position. -/
def Ident.relocate (f : Nat → Nat) (ident : Ident) : Ident :=
  ⟨ident.text, f ident.position⟩

/-- A condition with all its positions moved. -/
def Condition.relocate (f : Nat → Nat) : Condition → Condition
  | literal value position => literal value (f position)
  | predicate which position => predicate which (f position)
  | not position operand => not (f position) (operand.relocate f)
  | and position left right => and (f position) (left.relocate f) (right.relocate f)
  | or position left right => or (f position) (left.relocate f) (right.relocate f)

/-- A call with all its positions moved. -/
def Call.relocate (f : Nat → Nat) (c : Call) : Call :=
  ⟨c.target.relocate f, c.arguments.map (Ident.relocate f)⟩

mutual

/-- A statement with all its positions moved. -/
def Statement.relocate (f : Nat → Nat) : Statement → Statement
  | .call c => .call (c.relocate f)
  | .repeatTimes position times body => .repeatTimes (f position) times (body.relocate f)
  | .ifThen position condition body =>
    .ifThen (f position) (condition.relocate f) (body.relocate f)
  | .ifElse position condition body otherwise =>
    .ifElse (f position) (condition.relocate f) (body.relocate f) (otherwise.relocate f)
  | .whileLoop position condition body =>
    .whileLoop (f position) (condition.relocate f) (body.relocate f)
  | .block body => .block (body.relocate f)

/-- A block with all its positions moved. -/
def Block.relocate (f : Nat → Nat) : Block → Block
  | .mk opening statements closing =>
    .mk (f opening) (Statement.relocateAll f statements) (f closing)

/-- Statements with all their positions moved. -/
def Statement.relocateAll (f : Nat → Nat) : List Statement → List Statement
  | [] => []
  | statement :: following => statement.relocate f :: Statement.relocateAll f following

end

/-- A command with all its positions moved. -/
def Command.relocate (f : Nat → Nat) (c : Command) : Command :=
  ⟨f c.introduced, c.ident.relocate f, c.parameters.map (Ident.relocate f), c.body.relocate f⟩

/-- A script with all its positions moved. -/
def Script.relocate (f : Nat → Nat) (script : Script) : Script :=
  ⟨script.commands.map (Command.relocate f)⟩

/-! ## Names -/

variable (f : Nat → Nat)

@[simp] theorem Ident.text_relocate (ident : Ident) : (ident.relocate f).text = ident.text := rfl

@[simp] theorem Ident.map_text_relocate (idents : List Ident) :
    (idents.map (Ident.relocate f)).map Ident.text = idents.map Ident.text := by
  rw [List.map_map]
  rfl

@[simp] theorem Call.references_relocate (c : Call) :
    (c.relocate f).references = c.references.map (Ident.relocate f) := rfl

@[simp] theorem Command.body_relocate (c : Command) : (c.relocate f).body = c.body.relocate f := rfl

@[simp] theorem Command.parameters_relocate (c : Command) :
    (c.relocate f).parameters = c.parameters.map (Ident.relocate f) := rfl

@[simp] theorem Command.name_relocate (c : Command) : (c.relocate f).name = c.name := rfl

@[simp] theorem Script.commands_relocate (script : Script) :
    (script.relocate f).commands = script.commands.map (Command.relocate f) := rfl

@[simp] theorem Command.hasParameter_relocate (c : Command) (word : String) :
    (c.relocate f).hasParameter word = c.hasParameter word := by
  simp [hasParameter, Function.comp_def]

@[simp] theorem Statement.call?_relocate (s : Statement) :
    (s.relocate f).call? = s.call?.map (Call.relocate f) := by
  cases s <;> rfl

/-- A walk over a moved statement meets the moved statements. -/
theorem Statement.walk_relocate (s : Statement) :
    (s.relocate f).walk = s.walk.map (Statement.relocate f) := by
  induction s using Statement.induction with
  | call c => rfl
  | nil opening closing => rfl
  | cons opening first following closing hfirst hfollowing =>
    simp only [walk, relocate, Block.relocate, Block.walk, relocateAll, walkAll, List.map_cons,
      List.map_append, List.cons.injEq] at hfollowing ⊢
    rw [hfirst, hfollowing.2]
    exact ⟨trivial, rfl⟩
  | repeatTimes position times body hbody =>
    simp [walk, relocate, (List.cons.inj hbody).2]
  | ifThen position condition body hbody =>
    simp [walk, relocate, (List.cons.inj hbody).2]
  | ifElse position condition body otherwise hbody hother =>
    simp [walk, relocate, (List.cons.inj hbody).2, hother]
  | whileLoop position condition body hbody =>
    simp [walk, relocate, (List.cons.inj hbody).2]

@[simp] theorem Block.walk_relocate (b : Block) :
    (b.relocate f).walk = b.walk.map (Statement.relocate f) :=
  (List.cons.inj (Statement.walk_relocate f (.block b))).2

@[simp] theorem Block.calls_relocate (b : Block) :
    (b.relocate f).calls = b.calls.map (Call.relocate f) := by
  simp [Block.calls_eq, List.filterMap_map, List.map_filterMap]

/-- A moved command calls and passes on the same names. -/
@[simp] theorem Command.globalNames_relocate (c : Command) :
    (c.relocate f).globalNames = c.globalNames := by
  simp only [globalNames, globals, ← Block.calls_eq, body_relocate, Block.calls_relocate,
    hasParameter_relocate, List.flatMap_map, Call.references_relocate, ← List.map_flatMap,
    List.filter_map, Ident.map_text_relocate]
  rfl

@[simp] theorem Command.numberedNames_relocate (c : Command) :
    (c.relocate f).numberedNames = c.numberedNames := by
  simp only [numberedNames, name_relocate, body_relocate, Block.calls_relocate, List.flatMap_map,
    hasParameter_relocate]
  simp only [Call.relocate, List.map_append, Ident.map_text_relocate, List.map_cons,
    Ident.text_relocate, List.map_nil]

/-! ## Names in scope -/

theorem Diagnostic.problem_unknownName (name : String) (position : Nat)
    (headline : Option String) (candidates : List String) :
    (unknownName name position headline candidates).problem =
      .unknownName headline (Text.nearest name candidates) := by
  simp only [unknownName]
  split <;> rfl

namespace Scope

variable (scope : Scope)

theorem argumentProblem?_relocate (argument : Ident) :
    (scope.argumentProblem? (argument.relocate f)).map Diagnostic.problem =
      (scope.argumentProblem? argument).map Diagnostic.problem := by
  simp only [argumentProblem?, Ident.text_relocate]
  split
  · simp [undefined, Diagnostic.problem_unknownName]
  · rfl
  · rfl

theorem callProblem?_relocate (call : Call) :
    (scope.callProblem? (call.relocate f)).map Diagnostic.problem =
      (scope.callProblem? call).map Diagnostic.problem := by
  simp only [callProblem?, Call.relocate, Ident.text_relocate, List.length_map]
  split
  · simp [undefined, Diagnostic.problem_unknownName]
  · split
    · rfl
    · simp [List.map_findSome?, List.findSome?_map, Function.comp_def, argumentProblem?_relocate]

theorem duplicateParameter?_relocate (seen : List String) (parameters : List Ident) :
    (duplicateParameter? seen (parameters.map (Ident.relocate f))).map Diagnostic.problem =
      (duplicateParameter? seen parameters).map Diagnostic.problem := by
  induction parameters generalizing seen with
  | nil => rfl
  | cons parameter following ih =>
    simp only [List.map_cons, duplicateParameter?, Ident.text_relocate]
    by_cases hseen : parameter.text ∈ seen
    · simp [hseen]
    · simpa [hseen] using ih _

theorem inside_relocate (parameters : List Ident) :
    scope.inside (parameters.map (Ident.relocate f)) = scope.inside parameters := by
  simp [inside, Function.comp_def]

theorem commandProblem?_eq (c : Command) :
    scope.commandProblem? c = (duplicateParameter? [] c.parameters).or
      (c.body.calls.findSome? (scope.inside c.parameters).callProblem?) := by
  unfold commandProblem?
  cases duplicateParameter? [] c.parameters <;> rfl

theorem commandProblem?_relocate (c : Command) :
    (scope.commandProblem? (c.relocate f)).map Diagnostic.problem =
      (scope.commandProblem? c).map Diagnostic.problem := by
  simp [commandProblem?_eq, Option.map_or, duplicateParameter?_relocate, inside_relocate,
    List.map_findSome?, List.findSome?_map, Function.comp_def, callProblem?_relocate]

theorem definitionProblem?_relocate (c : Command) :
    (scope.definitionProblem? (c.relocate f)).map Diagnostic.problem =
      (scope.definitionProblem? c).map Diagnostic.problem := by
  simp only [definitionProblem?, Command.name_relocate]
  split <;> rfl

end Scope

theorem Script.scopeProblem?_relocate (script : Script) :
    (script.relocate f).scopeProblem?.map Diagnostic.problem =
      script.scopeProblem?.map Diagnostic.problem := by
  have hscope : Scope.ofCommands (script.relocate f).commands =
      Scope.ofCommands script.commands := by
    simp [Scope.ofCommands, Function.comp_def]
  rw [scopeProblem?, scopeProblem?, hscope]
  simp [List.map_findSome?, List.findSome?_map, Function.comp_def, Scope.commandProblem?_relocate]

/-! ## The call graph -/

namespace CallGraph

theorem first?_relocate (commands : List Command) (name : String) :
    first? (commands.map (Command.relocate f)) name =
      (first? commands name).map (Command.relocate f) :=
  List.find?_map

theorem without_relocate (name : String) (commands : List Command) :
    without name (commands.map (Command.relocate f)) =
      (without name commands).map (Command.relocate f) :=
  List.filter_map

/-- **The search does not look at positions.** -/
theorem visit_relocate (remaining : List Command) (pending : List String) :
    visit (remaining.map (Command.relocate f)) pending =
      (visit remaining pending).map (Command.relocate f) := by
  fun_induction visit remaining pending with
  | case1 remaining => rw [visit, List.map_nil]
  | case2 remaining name pending hnone ih =>
    have hnone' := (first?_relocate f remaining name).trans (congrArg _ hnone)
    rw [visit_cons_of_none hnone', ih]
  | case3 remaining name pending visited hvisited ih =>
    have hvisited' := (first?_relocate f remaining name).trans (congrArg _ hvisited)
    rw [visit_cons_of_some hvisited', Command.globalNames_relocate, without_relocate, ih,
      List.map_cons]

end CallGraph

namespace Script

theorem find?_relocate (script : Script) (name : String) :
    (script.relocate f).find? name = (script.find? name).map (Command.relocate f) :=
  CallGraph.first?_relocate f script.commands name

theorem reachable_relocate (script : Script) (name : String) :
    (script.relocate f).reachable name = (script.reachable name).map (Command.relocate f) :=
  CallGraph.visit_relocate f script.commands [name]

theorem callees_relocate (script : Script) (c : Command) :
    (script.relocate f).callees (c.relocate f) = (script.callees c).map (Command.relocate f) := by
  simp only [callees, Command.globalNames_relocate, List.map_filterMap, find?_relocate]

theorem isRecursive_relocate (script : Script) (c : Command) :
    (script.relocate f).isRecursive (c.relocate f) = script.isRecursive c := by
  simp only [isRecursive, callees_relocate, List.any_map, Function.comp_def, Command.name_relocate,
    reachable_relocate]

theorem recursive_relocate (script : Script) (name : String) :
    (script.relocate f).recursive name = (script.recursive name).map (Command.relocate f) := by
  simp only [recursive, reachable_relocate, List.filter_map, Function.comp_def,
    isRecursive_relocate]

end Script

/-! ## Reviews -/

/-- A diagnostic at another position. -/
def Diagnostic.relocate (f : Nat → Nat) (d : Diagnostic) : Diagnostic :=
  ⟨f d.position, d.problem, d.highlight⟩

@[simp] theorem Diagnostic.map_message_relocate (ds : List Diagnostic) :
    (ds.map (Diagnostic.relocate f)).map Diagnostic.message = ds.map Diagnostic.message := by
  rw [List.map_map]
  rfl

namespace Script

theorem whilePositions_relocate (c : Command) :
    whilePositions (c.relocate f) = (whilePositions c).map f := by
  simp only [whilePositions, Command.body_relocate, Block.walk_relocate, List.filterMap_map,
    List.map_filterMap]
  congr 1
  funext s
  cases s <;> rfl

theorem earlyLoops_relocate (script : Script) (entry : String) (level : Level) :
    (script.relocate f).earlyLoops entry level =
      (script.earlyLoops entry level).map (Diagnostic.relocate f) := by
  unfold earlyLoops
  split
  · rfl
  · simp [reachable_relocate, List.flatMap_map, List.map_flatMap, whilePositions_relocate,
      Diagnostic.relocate, Function.comp_def]

theorem earlyRecursion_relocate (script : Script) (entry : String) (level : Level) :
    (script.relocate f).earlyRecursion entry level =
      (script.earlyRecursion entry level).map (Diagnostic.relocate f) := by
  unfold earlyRecursion
  split
  · rfl
  · simp [recursive_relocate, Diagnostic.relocate, Command.relocate, Ident.relocate]

/-- Everything that a review can find in a script that could be read: it has nothing to say about
the names then. -/
def refusals (script : Script) (entry : String) (level : Level) : List Diagnostic :=
  (script.entryProblems entry ++ script.earlyLoops entry level ++
    script.earlyRecursion entry level).mergeSort fun a b => decide (a.position ≤ b.position)

/-- If the command to start with is missing nothing else is looked at. -/
theorem refusals_of_none {script : Script} {entry : String} (h : script.find? entry = none)
    (level : Level) : script.refusals entry level = [⟨0, .undefinedEntry entry, none⟩] := by
  have hreachable : script.reachable entry = [] := by
    rw [reachable, CallGraph.visit_cons_of_none h, CallGraph.visit]
  simp [refusals, entryProblems, earlyLoops, earlyRecursion, recursive, h, hreachable]

theorem entryProblems_relocate {script : Script} {entry : String} {c : Command}
    (h : script.find? entry = some c) :
    (script.relocate f).entryProblems entry =
      (script.entryProblems entry).map (Diagnostic.relocate f) := by
  simp only [entryProblems, find?_relocate, h, Option.map_some, Command.parameters_relocate,
    List.isEmpty_map]
  split <;> rfl

/-- **A review does not look at positions but for their order.** -/
theorem refusals_relocate {f : Nat → Nat} (hf : StrictMono f) (script : Script) (entry : String)
    (level : Level) :
    ((script.relocate f).refusals entry level).map Diagnostic.message =
      (script.refusals entry level).map Diagnostic.message := by
  cases hentry : script.find? entry with
  | none =>
    -- The diagnostic stands at position 0 and does not move along, but nothing else is found.
    have hentry' : (script.relocate f).find? entry = none := by
      rw [find?_relocate, hentry, Option.map_none]
    rw [refusals_of_none hentry, refusals_of_none hentry']
  | some c =>
    have hsort : (script.relocate f).refusals entry level =
        (script.refusals entry level).map (Diagnostic.relocate f) := by
      rw [refusals, refusals, List.map_mergeSort (s := fun a b => decide (a.position ≤ b.position)),
        List.map_append, List.map_append, entryProblems_relocate f hentry, earlyLoops_relocate,
        earlyRecursion_relocate]
      intro a _ b _
      exact decide_eq_decide.2 hf.le_iff_le.symm
    rw [hsort, Diagnostic.map_message_relocate]

end Script

/-! ## Machine code -/

/-- An instruction that comes from another position. -/
def Instruction.relocate (f : Nat → Nat) (i : Instruction) : Instruction :=
  ⟨i.bytecode, i.position.map f⟩

namespace Assembly

/-- A line that comes from another position. -/
def Line.relocate (f : Nat → Nat) (l : Line) : Line :=
  ⟨l.instruction.relocate f, l.isPending⟩

/-- A context with all its positions moved. -/
def Context.relocate (f : Nat → Nat) (context : Context) : Context :=
  ⟨context.parameters.map (Ident.relocate f), context.names⟩

@[simp] theorem relocate_line (op : Op) (position : Nat) :
    (line op position).relocate f = line op (f position) := rfl

@[simp] theorem Context.resolve_relocate (context : Context) (name : String) :
    (context.relocate f).resolve name = context.resolve name := by
  simp [resolve, relocate, List.findIdx?_map, Function.comp_def]

theorem Context.call_relocate (context : Context) (c : Call) :
    (context.relocate f).call (c.relocate f) = (context.call c).map (Line.relocate f) := by
  simp [call, argument, Call.relocate, Line.relocate, Instruction.relocate, Instruction.ofOp,
    Ident.relocate, Function.comp_def]

end Assembly

open Assembly

theorem Condition.code_relocate (c : Condition) :
    (c.relocate f).code = c.code.map (Line.relocate f) := by
  induction c with
  | literal value position => rfl
  | predicate which position => rfl
  | not position operand ih => simp [relocate, code, ih]
  | and position left right hleft hright => simp [relocate, code, hleft, hright]
  | or position left right hleft hright => simp [relocate, code, hleft, hright]

/-- Negations at the end of a condition are recognised by their words. -/
theorem Condition.test_relocate (c : Condition) :
    (c.relocate f).test = (c.test.1.map (Line.relocate f), c.test.2) := by
  have hnegation : isNegation ∘ Line.relocate f = isNegation := rfl
  simp only [test, fold, code_relocate, ← List.map_reverse, List.takeWhile_map, List.dropWhile_map,
    hnegation, List.length_map]

@[simp] theorem Block.closing_relocate (b : Block) : (b.relocate f).closing = f b.closing := by
  cases b
  rfl

/-- **The code of a moved statement has the same words.** -/
theorem Statement.code_relocate (context : Context) (start : Nat) (s : Statement) :
    (s.relocate f).code (context.relocate f) start =
      (s.code context start).map (Line.relocate f) := by
  induction s using Statement.induction generalizing start with
  | call c => exact context.call_relocate f c
  | nil opening closing => rfl
  | cons opening first following closing hfirst hfollowing =>
    simp only [relocate, Block.relocate, relocateAll] at hfollowing ⊢
    rw [code_cons, code_cons, hfirst, hfollowing, List.length_map, List.map_append]
  | repeatTimes position times body hbody =>
    simp only [relocate, code_repeatTimes] at hbody ⊢
    simp [hbody]
  | ifThen position condition body hbody =>
    simp only [relocate, code_ifThen] at hbody ⊢
    simp [hbody, Condition.test_relocate]
  | ifElse position condition body otherwise hbody hother =>
    simp only [relocate, code_ifElse] at hbody ⊢
    simp [hbody, hother, Condition.test_relocate]
  | whileLoop position condition body hbody =>
    simp only [relocate, code_whileLoop] at hbody ⊢
    simp [hbody, Condition.test_relocate]

theorem Command.code_relocate (names : List String) (start : Nat) (c : Command) :
    (c.relocate f).code names start = (c.code names start).map (Line.relocate f) := by
  have hbody := Statement.code_relocate f ⟨c.parameters, names⟩ start (.block c.body)
  rw [code_eq, code_eq, List.map_append, ← hbody]
  simp [Statement.relocate, Context.relocate]

namespace Assembly

theorem numbering_relocate (commands : List Command) :
    numbering (commands.map (Command.relocate f)) = numbering commands := by
  simp [numbering, List.flatMap_map]

/-- A placed command with all its positions moved. -/
def Placed.relocate (f : Nat → Nat) (p : Placed) : Placed :=
  ⟨p.name, p.start, p.code.map (Line.relocate f)⟩

theorem place_relocate (names : List String) (start : Nat) (commands : List Command) :
    place names start (commands.map (Command.relocate f)) =
      (place names start commands).map (Placed.relocate f) := by
  induction commands generalizing start with
  | nil => rfl
  | cons c following ih => simp [place, Placed.relocate, Command.code_relocate, ih]

theorem lines_relocate (commands : List Command) :
    lines (commands.map (Command.relocate f)) = (lines commands).map (Line.relocate f) := by
  simp [lines, place_relocate, numbering_relocate, List.flatMap_map, List.map_flatMap,
    Placed.relocate]

theorem table_relocate (commands : List Command) :
    table (commands.map (Command.relocate f)) = table commands := by
  simp [table, addresses, place_relocate, numbering_relocate, Placed.relocate, Function.comp_def]

/-- Linking looks at words only. -/
theorem link_relocate (addresses : List (UInt16 × Nat)) (l : Line) :
    Matches (fun i j => j.bytecode = i.bytecode) (link addresses l)
      (link addresses (l.relocate f)) := by
  obtain ⟨i, isPending⟩ := l
  cases isPending with
  | false => exact .ok rfl
  | true =>
    have hoperand : (i.relocate f).operand = i.operand := rfl
    simp only [link, Line.relocate, hoperand, if_true]
    cases addresses.lookup i.operand with
    | some address => exact .ok rfl
    | none => exact .error rfl

end Assembly

namespace Program

/-- The bytecodes of a program, in the order of their addresses. -/
def bytecodes (p : Program) : List UInt16 :=
  p.instructions.toList.map Instruction.bytecode

theorem bytecodes_ofCode (code : List Instruction) :
    (ofCode code).bytecodes =
      reserved.map Instruction.bytecode ++ code.map Instruction.bytecode := by
  simp [bytecodes, ofCode]

/-- **Moved commands make a program of the same words.** -/
theorem ofCommands_relocate (commands : List Command) :
    Matches (fun p q => q.bytecodes = p.bytecodes) (ofCommands commands)
      (ofCommands (commands.map (Command.relocate f))) := by
  rw [ofCommands_eq, ofCommands_eq, lines_relocate, table_relocate, List.length_map]
  split
  · exact .error rfl
  · refine (Matches.mapM (link_relocate f (table commands)) _).bind fun code moved hcode => .ok ?_
    have hwords : moved.map Instruction.bytecode = code.map Instruction.bytecode := by
      induction hcode with
      | nil => rfl
      | cons h _ ih => simp [h, ih]
    rw [bytecodes_ofCode, bytecodes_ofCode, hwords]

end Program

/-! ## Compiling -/

/-- What compiling comes to, positions apart: the bytecodes of the program, or the messages of all
that is wrong. -/
def withoutPositions (x : Except (List Diagnostic) Program) : Except (List String) (List UInt16) :=
  (x.map Program.bytecodes).mapError (List.map Diagnostic.message)

namespace Script

/-- What compiling a script that could be read comes to, positions apart. -/
def gist (script : Script) (entry : String) (level : Level) : Except (List String) (List UInt16) :=
  match (script.refusals entry level).map Diagnostic.message with
  | [] => withoutPositions ((Program.ofCommands (script.reachable entry)).mapError fun d => [d])
  | messages => .error messages

end Script

theorem withoutPositions_compile {script : Script} (hnames : script.redefinitions = [])
    (hdefined : script.undefinedNames = []) (entry : String) (level : Level) :
    withoutPositions (script.compile entry level) = script.gist entry level := by
  have hreview : script.review entry level = script.refusals entry level := by
    rw [Script.review, hnames, hdefined]
    rfl
  rw [Script.compile, Script.gist, hreview]
  cases script.refusals entry level with
  | nil => rfl
  | cons d ds => rfl

theorem withoutPositions_of_matches {x y : Except Diagnostic Program}
    (h : Matches (fun p q => q.bytecodes = p.bytecodes) x y) :
    withoutPositions (y.mapError fun d => [d]) = withoutPositions (x.mapError fun d => [d]) := by
  cases h with
  | ok h => exact congrArg Except.ok h
  | error h => exact congrArg (fun problem => Except.error [problem.message]) h

/-- **Moving a script does not change what it compiles to.** -/
theorem Script.gist_relocate {f : Nat → Nat} (hf : StrictMono f) (script : Script) (entry : String)
    (level : Level) : (script.relocate f).gist entry level = script.gist entry level := by
  rw [gist, gist, refusals_relocate hf, reachable_relocate,
    withoutPositions_of_matches (Program.ofCommands_relocate f (script.reachable entry))]

theorem Script.defaultEntry_relocate (f : Nat → Nat) (script : Script) :
    (script.relocate f).defaultEntry = script.defaultEntry := by
  obtain ⟨commands⟩ := script
  cases commands <;> rfl

end KarelRobot
