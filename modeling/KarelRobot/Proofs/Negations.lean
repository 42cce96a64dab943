import KarelRobot.Proofs.Segments
import Mathlib.Data.List.Chain

/-!
# Negations in front of branches

Where a condition is decided, the negations around it are not computed: they are taken off the end
of the code and the branch behind it is turned around once for each of them.  Code is taken off by
looking at its end alone.  It is the code of the negations around the condition all the same: what
is left ends in an instruction of the condition that does not negate, so nothing inside the
condition and nothing in front of it is lost, and no negation is left in front of a branch.

* `Condition.negated` — a condition with negations around it.
* `Draft.Tidy` — in an outline no negation stands in front of a branch.
* `Program.Decides` — where a statement decides, by which condition, and where it goes on if that
  fails.
* `negations_fold` — the code of every decision in a program that `compile` returns.
-/

set_option autoImplicit false
namespace KarelRobot

open Assembly

/-! ## Conditions with negations around them -/

namespace Condition

/-- The condition behind negations at these positions, the outermost one first. -/
def negated (inner : Condition) : (positions : List Nat) → Condition
  | [] => inner
  | position :: following => not position (inner.negated following)

variable {inner : Condition}

theorem core_negated (hinner : ∀ position operand, inner ≠ not position operand)
    (positions : List Nat) : (inner.negated positions).core = inner := by
  induction positions with
  | nil =>
    cases inner with
    | not position operand => exact absurd rfl (hinner position operand)
    | literal | predicate | and | or => rfl
  | cons position following ih => exact ih

theorem negations_negated (hinner : ∀ position operand, inner ≠ not position operand)
    (positions : List Nat) : (inner.negated positions).negations = positions.length := by
  induction positions with
  | nil =>
    cases inner with
    | not position operand => exact absurd rfl (hinner position operand)
    | literal | predicate | and | or => rfl
  | cons position following ih => rw [negated, negations, ih, List.length_cons]

end Condition

/-! ## No negation is left in front of a branch -/

/-- Does the directive branch on a truth value? -/
def Directive.isBranch : Directive → Bool
  | jumpUnless _ | jumpIf _ => true
  | _ => false

namespace Draft

/-- The outline does not start with a branch, and no negation in it stands in front of one. -/
structure Tidy (drafts : List Draft) : Prop where
  chain : drafts.IsChain fun d e => d.directive = .not → e.directive.isBranch = false
  head : ∀ d ∈ drafts.head?, d.directive.isBranch = false

namespace Tidy

theorem nil : Tidy [] :=
  ⟨.nil, by simp⟩

theorem single {directive : Directive} (h : directive.isBranch = false) (position : Nat) :
    Tidy [⟨directive, position⟩] :=
  ⟨.singleton _, by simpa using h⟩

theorem append {xs ys : List Draft} (hxs : Tidy xs) (hys : Tidy ys) : Tidy (xs ++ ys) := by
  constructor
  · exact List.isChain_append.2 ⟨hxs.chain, hys.chain, fun _ _ e he _ => hys.head e he⟩
  · intro d hd
    rw [List.head?_append] at hd
    rcases Option.or_eq_some_iff.1 hd with hd | ⟨-, hd⟩
    · exact hxs.head d hd
    · exact hys.head d hd

theorem cons {directive : Directive} (h : directive.isBranch = false) (position : Nat)
    {drafts : List Draft} (hdrafts : Tidy drafts) : Tidy (⟨directive, position⟩ :: drafts) :=
  (single h position).append hdrafts

end Tidy
end Draft

open Draft (Tidy)

theorem Condition.tidy_outline (condition : Condition) : Tidy condition.outline := by
  induction condition with
  | literal value position => exact .single rfl position
  | predicate which position => exact .single rfl position
  | not position operand ih => exact ih.append (.single rfl position)
  | and position left right ihleft ihright | or position left right ihleft ihright =>
    exact (ihleft.append ihright).append (.single rfl position)

/-- Without the negations around it a condition ends in something else than a negation. -/
theorem Condition.outline_core_eq (condition : Condition) :
    ∃ before last, condition.core.outline = before ++ [last] ∧ last.directive ≠ .not := by
  induction condition with
  | literal value position => exact ⟨[], _, rfl, by simp⟩
  | predicate which position => exact ⟨[], _, rfl, by simp⟩
  | not position operand ih => exact ih
  | and position left right _ _ | or position left right _ _ => exact ⟨_, _, rfl, by simp⟩

/-- The code that decides a condition. -/
theorem Condition.tidy_test (condition : Condition) (branch : Draft) :
    Tidy (condition.core.outline ++ [branch]) := by
  obtain ⟨before, last, hlast, hnot⟩ := condition.outline_core_eq
  have hcore := condition.core.tidy_outline
  constructor
  · refine List.isChain_append.2 ⟨hcore.chain, .singleton _, fun d hd _ _ hd' => ?_⟩
    rw [hlast, List.getLast?_concat, Option.mem_some_iff] at hd
    exact absurd (hd ▸ hd') hnot
  · intro d hd
    refine hcore.head d ?_
    rw [List.head?_append, hlast] at hd
    rw [hlast]
    cases before <;> simpa using hd

theorem Call.tidy_outline (refer : String → Referent) (call : Call) :
    Tidy (call.outline refer) := by
  have hpassed (referent : Referent) : referent.passed.isBranch = false := by cases referent <;> rfl
  have hcalled (referent : Referent) : referent.called.isBranch = false := by cases referent <;> rfl
  refine Tidy.append ?_ (.single (hcalled _) _)
  induction call.arguments with
  | nil => exact .nil
  | cons argument following ih =>
    exact .cons (hpassed (refer argument.text)) argument.position ih

/-- **In the outline of a statement no negation stands in front of a branch.** -/
theorem Statement.tidy_outline (refer : String → Referent) (start : Nat) (s : Statement) :
    Tidy (s.outline refer start) := by
  induction s using Statement.induction generalizing start with
  | call call => exact call.tidy_outline refer
  | nil opening closing => exact .nil
  | cons opening first following closing hfirst hfollowing =>
    rw [outline_cons]
    exact (hfirst start).append (hfollowing _)
  | repeatTimes position times body hbody =>
    rw [outline_repeatTimes]
    exact .cons rfl position ((hbody _).append (.single rfl body.closing))
  | ifThen position condition body hbody =>
    rw [outline_ifThen]
    dsimp only
    rw [List.append_cons]
    exact (condition.tidy_test _).append (hbody _)
  | ifElse position condition body otherwise hbody hother =>
    rw [outline_ifElse]
    dsimp only
    rw [List.append_cons]
    exact (condition.tidy_test _).append
      ((hbody _).append (.cons rfl body.closing (hother _)))
  | whileLoop position condition body hbody =>
    rw [outline_whileLoop]
    dsimp only
    rw [List.append_cons]
    exact (condition.tidy_test _).append ((hbody _).append (.single rfl body.closing))

theorem Program.tidy_outline (commands : List Command) : Tidy (Program.outline commands) := by
  have hcommands (address : String → Nat) (start : Nat) :
      Tidy (Outline.ofCommands address start commands) := by
    induction commands generalizing start with
    | nil => exact .nil
    | cons first following ih =>
      rw [Outline.ofCommands, Command.outline_eq]
      exact ((Statement.tidy_outline _ _ _).append (.single rfl first.body.closing)).append (ih _)
  exact hcommands _ _

theorem Instruction.draft?_eq_some {i : Instruction} {d : Draft} {op : Op} (h : i.draft? = some d)
    (hop : i.op? = some op) : d.directive = op.directive := by
  rw [draft?, hop] at h
  split at h
  next op' position hop' hposition =>
    cases hop'
    cases h
    rfl
  · cases h

/-- **No instruction that negates stands in front of a branch.** -/
theorem Script.Compiles.not_branch_of_not {script : Script} {main : Command} {p : Program}
    (h : script.Compiles main p) {a : Nat} {i j : Instruction} {op : Op}
    (hi : p.get? a = some i) (hj : p.get? (a + 1) = some j) (hnot : i.op? = some .not)
    (hop : j.op? = some op) : op.directive.isBranch = false := by
  have hrealises := h.realises
  rw [Program.get?, ← Array.getElem?_toList, hrealises.instructions] at hi hj
  by_cases hlow : a < Program.entryPoint
  · -- the reserved addresses hold nothing that negates
    rw [List.getElem?_append_left (by rw [Program.length_reserved]; exact hlow)] at hi
    obtain rfl := List.eq_of_mem_replicate (List.mem_of_getElem? hi)
    cases hnot
  · rw [List.getElem?_append_right (by rw [Program.length_reserved]; omega),
      Program.length_reserved] at hi hj
    obtain ⟨k, rfl⟩ : ∃ k, a = Program.entryPoint + k := ⟨a - Program.entryPoint, by omega⟩
    rw [Nat.add_sub_cancel_left] at hi
    rw [Nat.add_assoc, Nat.add_sub_cancel_left] at hj
    have hdraft {n : Nat} {x : Instruction} (hx : p.code[n]? = some x) :
        ∃ d, (Program.outline (script.reachable main.name))[n]? = some d ∧ x.draft? = some d := by
      have hmap := congrArg (·[n]?) hrealises.draft?_code
      simp only [List.getElem?_map, hx, Option.map_some] at hmap
      obtain ⟨d, hd, hxd⟩ := Option.map_eq_some_iff.1 hmap.symm
      exact ⟨d, hd, hxd.symm⟩
    obtain ⟨d, hd, hid⟩ := hdraft hi
    obtain ⟨e, he, hje⟩ := hdraft hj
    obtain ⟨hlt, hd⟩ := List.getElem?_eq_some_iff.1 hd
    obtain ⟨hlt', he⟩ := List.getElem?_eq_some_iff.1 he
    have hchain := List.isChain_iff_getElem.1
      (Program.tidy_outline (script.reachable main.name)).chain k hlt'
    rw [hd, he] at hchain
    rw [← Instruction.draft?_eq_some hje hop]
    exact hchain (Instruction.draft?_eq_some hid hnot)

/-! ## Decisions -/

/-- The condition by which a statement decides how to go on. -/
def Statement.condition? : Statement → Option Condition
  | .ifThen _ condition _ | .ifElse _ condition _ _ | .whileLoop _ condition _ => some condition
  | .call _ | .repeatTimes _ _ _ | .block _ => none

/-- Where a statement of the command `c` goes on if its condition is false.  The code of the
statement stands at the address `start`. -/
inductive Program.Decides (p : Program) (commands : List Command) (c : Command) (start : Nat) :
    Statement → (target : Nat) → Prop
  /-- Without an alternative it goes on behind the statement. -/
  | ifThen (position : Nat) (condition : Condition) (body : Block) :
      Decides p commands c start (.ifThen position condition body)
        (start + (Statement.ifThen position condition body).size)
  /-- The alternative is the last part of the statement. -/
  | ifElse {position : Nat} {condition : Condition} {body : Block} {otherwise : Statement}
      {target : Nat} (hother : p.Contains commands c otherwise target)
      (hlast : target + otherwise.size =
        start + (Statement.ifElse position condition body otherwise).size) :
      Decides p commands c start (.ifElse position condition body otherwise) target
  /-- A loop goes on behind the jump that leads back to its condition. -/
  | whileLoop {position : Nat} {condition : Condition} {body : Block} {last : Nat}
      (hback : p.Has last (.jump (operand start)))
      (hlast : last + 1 = start + (Statement.whileLoop position condition body).size) :
      Decides p commands c start (.whileLoop position condition body) (last + 1)

section Decisions

variable {p : Program} {commands : List Command} {c : Command} {s part : Statement} {start : Nat}

/-- **The code of a statement contains the code of every statement inside it.** -/
theorem Program.Contains.exists_part (h : p.Contains commands c s start) (hpart : part ∈ s.walk) :
    ∃ inside, p.Contains commands c part inside := by
  induction s using Statement.induction generalizing start with
  | call call =>
    obtain rfl := List.mem_singleton.1 hpart
    exact ⟨start, h⟩
  | nil opening closing =>
    obtain rfl := List.mem_singleton.1 hpart
    exact ⟨start, h⟩
  | cons opening first following closing hfirst hfollowing =>
    rcases List.mem_cons.1 hpart with rfl | hpart
    · exact ⟨start, h⟩
    · rcases List.mem_append.1 hpart with hpart | hpart
      · exact hfirst h.first hpart
      · exact hfollowing h.following (List.mem_cons_of_mem _ hpart)
  | repeatTimes position times body hbody =>
    rcases List.mem_cons.1 hpart with rfl | hpart
    · exact ⟨start, h⟩
    · exact hbody h.repeatTimes.2.1 (List.mem_cons_of_mem _ hpart)
  | ifThen position condition body hbody =>
    rcases List.mem_cons.1 hpart with rfl | hpart
    · exact ⟨start, h⟩
    · exact hbody h.ifThen.2 (List.mem_cons_of_mem _ hpart)
  | ifElse position condition body otherwise hbody hother =>
    rcases List.mem_cons.1 hpart with rfl | hpart
    · exact ⟨start, h⟩
    · rcases List.mem_append.1 hpart with hpart | hpart
      · exact hbody h.ifElse.2.1 (List.mem_cons_of_mem _ hpart)
      · exact hother h.ifElse.2.2.2 hpart
  | whileLoop position condition body hbody =>
    rcases List.mem_cons.1 hpart with rfl | hpart
    · exact ⟨start, h⟩
    · exact hbody h.whileLoop.2.1 (List.mem_cons_of_mem _ hpart)

/-- Lines that are complete stand in the program as they are. -/
theorem Program.Holds.slice_eq {ls : List Line} (h : p.Holds commands start ls)
    (hcomplete : ∀ l ∈ ls, ∃ op position, l = line op position) :
    p.slice start ls.length = ls.map Line.instruction := by
  induction ls generalizing start with
  | nil => rfl
  | cons l ls ih =>
    obtain ⟨⟨op, position, rfl⟩, hls⟩ := List.forall_mem_cons.1 hcomplete
    rw [List.length_cons, Nat.add_comm, p.slice_add, slice_one h.get?_of_line, ih h.tail hls]
    rfl

/-- The code of a condition, and the branch behind it. -/
theorem Program.Holds.slice_test {condition : Condition} {op : Op} {position : Nat} {ls : List Line}
    (h : p.Holds commands start (condition.code ++ line op position :: ls)) :
    p.slice start (condition.code.length + 1) =
      condition.code.map Line.instruction ++ [.ofOp op position] := by
  rw [p.slice_add, h.append_left.slice_eq fun _ => Condition.exists_line,
    slice_one h.append_right.get?_of_line]

/-- **A statement that decides starts with the test of its condition,** which leads to where the
statement goes on if the condition is false. -/
theorem Program.Contains.decides {condition : Condition} (h : p.Contains commands c s start)
    (hcondition : s.condition? = some condition) :
    ∃ target, p.Decides commands c start s target ∧ target < maxSize ∧
      p.slice start (condition.core.code.length + 1) =
        condition.core.code.map Line.instruction ++
          [.ofOp (Condition.branch condition.negations (operand target)) s.position] := by
  have hholds := h.holds
  cases s with
  | call call => cases hcondition
  | repeatTimes position times body => cases hcondition
  | block body => cases hcondition
  | ifThen position condition' body =>
    cases hcondition
    obtain ⟨htest, -⟩ := h.ifThen
    simp only [Statement.code_ifThen, Condition.test_eq, Statement.length_code] at hholds
    have hdecides : p.Decides commands c start (.ifThen position condition body) _ :=
      .ifThen position condition body
    rw [Statement.size_ifThen, ← Nat.add_assoc, ← Nat.add_assoc] at hdecides
    exact ⟨_, hdecides, htest.bound, hholds.slice_test⟩
  | ifElse position condition' body otherwise =>
    cases hcondition
    obtain ⟨htest, -, -, hother⟩ := h.ifElse
    simp only [Statement.code_ifElse, Condition.test_eq, Statement.length_code] at hholds
    have hlast := Statement.size_ifElse position condition body otherwise
    exact ⟨_, .ifElse hother (by omega), htest.bound, hholds.slice_test⟩
  | whileLoop position condition' body =>
    cases hcondition
    obtain ⟨htest, -, hback⟩ := h.whileLoop
    simp only [Statement.code_whileLoop, Condition.test_eq, Statement.length_code] at hholds
    have hlast := Statement.size_whileLoop position condition body
    exact ⟨_, .whileLoop hback (by omega), htest.bound, hholds.slice_test⟩

end Decisions

/-- In the program `p` of some commands, negations are folded into branches. -/
structure Program.FoldsNegations (p : Program) (commands : List Command) : Prop where
  /-- No negation stands in front of a branch. -/
  tidy : ∀ a i j, p.get? a = some i → p.get? (a + 1) = some j → i.op? = some .not →
    ∀ target, j.op? ≠ some (.jumpUnless target) ∧ j.op? ≠ some (.jumpIf target)
  /-- The code of a decision is the code of its condition without the negations around it, directly
  followed by the branch to where the statement goes on if the condition is false. -/
  decides : ∀ c ∈ commands, ∀ s ∈ c.body.walk, ∀ inner positions,
    s.condition? = some (Condition.negated inner positions) →
    (∀ position operand, inner ≠ .not position operand) →
    ∃ start target, p.Contains commands c s start ∧ p.Decides commands c start s target ∧
      (operand target).toNat = target ∧
      p.slice start (inner.code.length + 1) =
        inner.code.map Line.instruction ++
          [.ofOp (if positions.length % 2 = 0 then .jumpUnless (operand target)
            else .jumpIf (operand target)) s.position]

theorem Script.Compiles.foldsNegations {script : Script} {main : Command} {p : Program}
    (h : script.Compiles main p) : p.FoldsNegations (script.reachable main.name) := by
  constructor
  · intro a i j hi hj hnot target
    constructor
    · intro hop
      simpa [Op.directive, Directive.isBranch] using h.not_branch_of_not hi hj hnot hop
    · intro hop
      simpa [Op.directive, Directive.isBranch] using h.not_branch_of_not hi hj hnot hop
  · intro c hc s hs inner positions hcondition hinner
    obtain ⟨start, hcontains⟩ := (h.contains_body hc).exists_part (List.mem_cons_of_mem _ hs)
    obtain ⟨target, hdecides, hbound, hslice⟩ := hcontains.decides hcondition
    rw [Condition.core_negated hinner, Condition.negations_negated hinner] at hslice
    refine ⟨start, target, hcontains, hdecides, toNat_operand hbound, ?_⟩
    rw [hslice, Condition.branch]
    split <;> rfl

/-- **Negations are folded into branches.**  Taking negations off the end of the code, whatever it
is, takes off those around the condition that was put there last and nothing else; and in a program
that `compile` returns no negation is left in front of a branch, and every decision is the code of
its condition without the negations around it, followed by a branch that is turned around if their
number is odd. -/
theorem negations_fold {source : String} {entry : Option String} {level : Level} {p : Program}
    (h : compile source entry level = .ok p) :
    (∀ before condition, fold (before ++ Condition.code condition) =
      (before ++ condition.test.1, condition.test.2)) ∧
    ∃ script main, Script.parse source = .ok script ∧
      script.find? (entry.getD script.defaultEntry) = some main ∧
      p.FoldsNegations (script.reachable main.name) := by
  obtain ⟨script, main, hparse, hmain, hcompiles, -⟩ := compiles_of_compile h
  refine ⟨fun before condition => ?_, script, main, hparse, hmain, hcompiles.foldsNegations⟩
  rw [fold_append, Condition.test_eq]

/-- A script with negations inside, around and in front of conditions. -/
def vigil : String :=
  "void main() \x7b while (!!(!frontIsClear() && !onBeeper())) { turnLeft(); }" ++
  " if (!!!(true || !false)) { turnRight(); } else if (!leftIsClear()) { moveForward(); } \x7d"

theorem negations_fold_vigil :
    ∃ p, compile vigil none .loops = .ok p ∧
      p.code.map Instruction.mnemonic =
        ["FCLR", "NOT", "BEEP", "NOT", "AND", "ELSE 108", "TRNL", "JUMP 100",
          "TRUE", "FALS", "NOT", "OR", "THEN 10f", "TRNR", "JUMP 112",
          "LCLR", "THEN 112", "MOVE", "RET"] ∧
      (∀ before condition, fold (before ++ Condition.code condition) =
        (before ++ condition.test.1, condition.test.2)) ∧
      ∃ script main, Script.parse vigil = .ok script ∧
        script.find? (none.getD script.defaultEntry) = some main ∧
        p.FoldsNegations (script.reachable main.name) := by
  obtain ⟨p, hp, hcode⟩ := exists_ok_of_any (x := compile vigil none .loops)
    (f := fun p => p.code.map Instruction.mnemonic ==
      ["FCLR", "NOT", "BEEP", "NOT", "AND", "ELSE 108", "TRNL", "JUMP 100",
        "TRUE", "FALS", "NOT", "OR", "THEN 10f", "TRNR", "JUMP 112",
        "LCLR", "THEN 112", "MOVE", "RET"]) (by decide +kernel)
  exact ⟨p, hp, eq_of_beq hcode, negations_fold hp⟩

end KarelRobot
