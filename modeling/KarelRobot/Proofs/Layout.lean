import KarelRobot.Proofs.Encoding
import KarelRobot.Proofs.Induction
import KarelRobot.Script.Assembly
import Mathlib.Data.List.Basic

/-!
# The layout of a program

A program consists of the codes of its commands behind one another.  How long a code is does not
depend on its place, and every name that needs a number has a line of its own, so that there are
never too many of them.

* `Assembly.fold_append` — only the negations around the last condition are taken off.
* `Condition.test_eq` — a test is the code of the condition without its outermost negations.
* `Statement.exists_line_or_call` — only the lines of calls are still to be linked.
* `Statement.size` — how many instructions a statement takes, wherever it stands.
* `Assembly.toNat_number`, `Assembly.number_inj` — the numbers of commands can be told apart.
* `Assembly.address` — where the command of a name starts.
* `Assembly.pairwise_place` — the codes of commands do not overlap.
* `Assembly.lookup_addresses` — the address that linking finds.
* `Command.Covers` — an address lies in the code of a command.
-/

set_option autoImplicit false
namespace KarelRobot

open Assembly (Line Context Placed line operand)

/-! ## Tests -/

namespace Condition

/-- A condition without the negations around it. -/
def core : Condition → Condition
  | not _ operand => operand.core
  | condition => condition

/-- How many negations there are around a condition. -/
def negations : Condition → Nat
  | not _ operand => operand.negations + 1
  | _ => 0

/-- The code of a condition ends in an instruction that does not negate, and then as many as there
are negations around it. -/
theorem reverse_code (condition : Condition) :
    ∃ last before, condition.core.code.reverse = last :: before ∧ isNegation last = false ∧
      ∃ negating, condition.code.reverse = negating ++ condition.core.code.reverse ∧
        negating.length = condition.negations ∧ ∀ l ∈ negating, isNegation l = true := by
  induction condition with
  | literal value position => cases value <;> exact ⟨_, [], rfl, rfl, [], rfl, rfl, by simp⟩
  | predicate which position => cases which <;> exact ⟨_, [], rfl, rfl, [], rfl, rfl, by simp⟩
  | not position operand ih =>
    obtain ⟨last, before, hcore, hlast, negating, hcode, hlength, hnegating⟩ := ih
    refine ⟨last, before, hcore, hlast, line .not position :: negating, ?_, ?_, ?_⟩
    · rw [code, List.reverse_append, hcode]
      rfl
    · rw [List.length_cons, hlength, negations]
    · exact List.forall_mem_cons.2 ⟨rfl, hnegating⟩
  | and position left right _ _ =>
    exact ⟨line .and position, (left.code ++ right.code).reverse,
      by simp [core, code], rfl, [], rfl, rfl, by simp⟩
  | or position left right _ _ =>
    exact ⟨line .or position, (left.code ++ right.code).reverse,
      by simp [core, code], rfl, [], rfl, rfl, by simp⟩

end Condition

/-- **Whatever stands in front of a condition, only the negations around it are taken off.** -/
theorem Assembly.fold_append (before : List Line) (condition : Condition) :
    fold (before ++ condition.code) =
      (before ++ condition.core.code, Condition.branch condition.negations) := by
  obtain ⟨last, inside, hcore, hlast, negating, hcode, hlength, hnegating⟩ :=
    condition.reverse_code
  have hreverse : (before ++ condition.code).reverse =
      negating ++ last :: (inside ++ before.reverse) := by
    rw [List.reverse_append, hcode, hcore, List.append_assoc, List.cons_append]
  have hkept : (last :: (inside ++ before.reverse)).reverse = before ++ condition.core.code := by
    rw [← List.cons_append, ← hcore, ← List.reverse_append, List.reverse_reverse]
  have hstop : (last :: (inside ++ before.reverse)).takeWhile Condition.isNegation = [] :=
    List.takeWhile_cons_of_neg (by simp [hlast])
  have hdrop : (last :: (inside ++ before.reverse)).dropWhile Condition.isNegation =
      last :: (inside ++ before.reverse) := List.dropWhile_cons_of_neg (by simp [hlast])
  rw [fold, hreverse, List.takeWhile_append_of_pos hnegating,
    List.dropWhile_append_of_pos hnegating, hstop, hdrop, hkept, List.append_nil, hlength]

/-- **A test leaves the outermost negations out and turns the branch around instead.** -/
theorem Condition.test_eq (condition : Condition) :
    condition.test = (condition.core.code, branch condition.negations) :=
  Assembly.fold_append [] condition

/-! ## The code of a statement, construct by construct -/

namespace Statement

variable (context : Context) (start : Nat)

@[simp] theorem code_call (c : Call) : (Statement.call c).code context start = context.call c := rfl

theorem code_cons (opening : Nat) (first : Statement) (following : List Statement)
    (closing : Nat) :
    (Statement.block (.mk opening (first :: following) closing)).code context start =
      first.code context start ++
        (Statement.block (.mk opening following closing)).code context
          (start + (first.code context start).length) := rfl

theorem code_repeatTimes (position times : Nat) (body : Block) :
    (Statement.repeatTimes position times body).code context start =
      line (.push (operand times)) position ::
        ((Statement.block body).code context (start + 1) ++
          [line (.loop (operand (start + 1))) body.closing]) := rfl

theorem code_ifThen (position : Nat) (condition : Condition) (body : Block) :
    (Statement.ifThen position condition body).code context start =
      let bodyStart := start + condition.test.1.length + 1
      let bodyCode := (Statement.block body).code context bodyStart
      condition.test.1 ++
        line (condition.test.2 (operand (bodyStart + bodyCode.length))) position :: bodyCode := rfl

theorem code_ifElse (position : Nat) (condition : Condition) (body : Block)
    (otherwise : Statement) :
    (Statement.ifElse position condition body otherwise).code context start =
      let bodyStart := start + condition.test.1.length + 1
      let bodyCode := (Statement.block body).code context bodyStart
      let otherStart := bodyStart + bodyCode.length + 1
      let otherCode := otherwise.code context otherStart
      condition.test.1 ++ line (condition.test.2 (operand otherStart)) position ::
        (bodyCode ++
          line (.jump (operand (otherStart + otherCode.length))) body.closing :: otherCode) := rfl

theorem code_whileLoop (position : Nat) (condition : Condition) (body : Block) :
    (Statement.whileLoop position condition body).code context start =
      let bodyStart := start + condition.test.1.length + 1
      let bodyCode := (Statement.block body).code context bodyStart
      condition.test.1 ++
        line (condition.test.2 (operand (bodyStart + bodyCode.length + 1))) position ::
          (bodyCode ++ [line (.jump (operand start)) body.closing]) := rfl

end Statement

/-- Every line of a condition is complete. -/
theorem Condition.exists_line {condition : Condition} {l : Line} (hl : l ∈ condition.code) :
    ∃ op position, l = line op position := by
  induction condition with
  | literal value position => exact ⟨_, _, List.mem_singleton.1 hl⟩
  | predicate which position => exact ⟨_, _, List.mem_singleton.1 hl⟩
  | not position operand ih =>
    rcases List.mem_append.1 hl with hl | hl
    · exact ih hl
    · exact ⟨_, _, List.mem_singleton.1 hl⟩
  | and position left right ihleft ihright | or position left right ihleft ihright =>
    rcases List.mem_append.1 hl with hl | hl
    · exact (List.mem_append.1 hl).elim ihleft ihright
    · exact ⟨_, _, List.mem_singleton.1 hl⟩

/-- **Every line of a statement is complete, or it belongs to one of its calls.** -/
theorem Statement.exists_line_or_call {context : Context} {start : Nat} {s : Statement} {l : Line}
    (hl : l ∈ s.code context start) :
    (∃ op position, l = line op position) ∨ ∃ c ∈ s.calls, l ∈ context.call c := by
  induction s using Statement.induction generalizing start with
  | call c => exact .inr ⟨c, List.mem_singleton_self c, hl⟩
  | nil opening closing => cases hl
  | cons opening first following closing hfirst hfollowing =>
    rw [code_cons] at hl
    rcases List.mem_append.1 hl with hl | hl
    · exact (hfirst hl).imp_right fun ⟨c, hc, hmem⟩ => ⟨c, List.mem_append_left _ hc, hmem⟩
    · exact (hfollowing hl).imp_right fun ⟨c, hc, hmem⟩ => ⟨c, List.mem_append_right _ hc, hmem⟩
  | repeatTimes position times body hbody =>
    simp only [code_repeatTimes, List.mem_cons, List.mem_append, List.not_mem_nil, or_false] at hl
    rcases hl with hl | hl | hl
    · exact .inl ⟨_, _, hl⟩
    · exact hbody hl
    · exact .inl ⟨_, _, hl⟩
  | ifThen position condition body hbody =>
    simp only [code_ifThen, Condition.test_eq, List.mem_cons, List.mem_append] at hl
    rcases hl with hl | hl | hl
    · exact .inl (Condition.exists_line hl)
    · exact .inl ⟨_, _, hl⟩
    · exact hbody hl
  | ifElse position condition body otherwise hbody hother =>
    simp only [code_ifElse, Condition.test_eq, List.mem_cons, List.mem_append] at hl
    rcases hl with hl | hl | hl | hl | hl
    · exact .inl (Condition.exists_line hl)
    · exact .inl ⟨_, _, hl⟩
    · exact (hbody hl).imp_right fun ⟨c, hc, hmem⟩ => ⟨c, List.mem_append_left _ hc, hmem⟩
    · exact .inl ⟨_, _, hl⟩
    · exact (hother hl).imp_right fun ⟨c, hc, hmem⟩ => ⟨c, List.mem_append_right _ hc, hmem⟩
  | whileLoop position condition body hbody =>
    simp only [code_whileLoop, Condition.test_eq, List.mem_cons, List.mem_append, List.not_mem_nil,
      or_false] at hl
    rcases hl with hl | hl | hl | hl
    · exact .inl (Condition.exists_line hl)
    · exact .inl ⟨_, _, hl⟩
    · exact hbody hl
    · exact .inl ⟨_, _, hl⟩

theorem Command.code_eq (names : List String) (start : Nat) (c : Command) :
    c.code names start =
      (Statement.block c.body).code ⟨c.parameters, names⟩ start ++
        [line .ret c.body.closing] := rfl

/-! ## Sizes -/

namespace Statement

/-- The length of a code does not depend on its place and on what its names refer to. -/
theorem length_code_eq (s : Statement) (context context' : Context) (start start' : Nat) :
    (s.code context start).length = (s.code context' start').length := by
  induction s using Statement.induction generalizing start start' with
  | call c => simp only [code_call, Context.call, List.length_append, List.length_map,
      List.length_singleton]
  | nil opening closing => rfl
  | cons opening first following closing hfirst hfollowing =>
    rw [code_cons, code_cons, List.length_append, List.length_append, hfirst start start',
      hfollowing _ (start' + (first.code context' start').length)]
  | repeatTimes position times body hbody =>
    simp only [code_repeatTimes, List.length_cons, List.length_append, List.length_nil,
      hbody (start + 1) (start' + 1)]
  | ifThen position condition body hbody =>
    simp only [code_ifThen, List.length_cons, List.length_append,
      hbody _ (start' + condition.test.1.length + 1)]
  | ifElse position condition body otherwise hbody hother =>
    simp only [code_ifElse, List.length_cons, List.length_append,
      hbody _ (start' + condition.test.1.length + 1)]
    rw [hother]
  | whileLoop position condition body hbody =>
    simp only [code_whileLoop, List.length_cons, List.length_append, List.length_nil,
      hbody _ (start' + condition.test.1.length + 1)]

/-- How many instructions a statement takes. -/
def size (s : Statement) : Nat :=
  (s.code ⟨[], []⟩ 0).length

@[simp] theorem length_code (s : Statement) (context : Context) (start : Nat) :
    (s.code context start).length = s.size :=
  length_code_eq s _ _ _ _

theorem size_call (c : Call) : (Statement.call c).size = c.arguments.length + 1 := by
  rw [size, code_call, Context.call, List.length_append, List.length_map, List.length_singleton]

theorem size_cons (opening : Nat) (first : Statement) (following : List Statement)
    (closing : Nat) :
    (Statement.block (.mk opening (first :: following) closing)).size =
      first.size + (Statement.block (.mk opening following closing)).size := by
  rw [size, code_cons, List.length_append, length_code, length_code]

theorem size_repeatTimes (position times : Nat) (body : Block) :
    (Statement.repeatTimes position times body).size = (Statement.block body).size + 2 := by
  rw [size, code_repeatTimes, List.length_cons, List.length_append, length_code,
    List.length_singleton]

theorem size_ifThen (position : Nat) (condition : Condition) (body : Block) :
    (Statement.ifThen position condition body).size =
      condition.core.code.length + 1 + (Statement.block body).size := by
  rw [size, code_ifThen]
  simp only [Condition.test_eq, List.length_cons, List.length_append, length_code]
  omega

theorem size_ifElse (position : Nat) (condition : Condition) (body : Block)
    (otherwise : Statement) :
    (Statement.ifElse position condition body otherwise).size =
      condition.core.code.length + 1 + (Statement.block body).size + 1 + otherwise.size := by
  rw [size, code_ifElse]
  simp only [Condition.test_eq, List.length_cons, List.length_append, length_code]
  omega

theorem size_whileLoop (position : Nat) (condition : Condition) (body : Block) :
    (Statement.whileLoop position condition body).size =
      condition.core.code.length + 1 + (Statement.block body).size + 1 := by
  rw [size, code_whileLoop]
  simp only [Condition.test_eq, List.length_cons, List.length_append, length_code, List.length_nil]
  omega

end Statement

theorem Command.length_code (names : List String) (start : Nat) (c : Command) :
    (c.code names start).length = (Statement.block c.body).size + 1 := by
  rw [Command.code_eq, List.length_append, Statement.length_code, List.length_singleton]

/-! ## There are fewer names than lines -/

/-- The words that the calls of a statement are made of. -/
def Statement.words (s : Statement) : List String :=
  s.calls.flatMap fun c => (c.arguments ++ [c.target]).map Ident.text

/-- Every word of a call has a line of its own. -/
theorem Statement.length_words_le (s : Statement) : s.words.length ≤ s.size := by
  induction s using Statement.induction with
  | call c => simp [words, calls, size_call]
  | nil opening closing => exact Nat.le_refl 0
  | cons opening first following closing hfirst hfollowing =>
    have hwords : (Statement.block (.mk opening (first :: following) closing)).words =
        first.words ++ (Statement.block (.mk opening following closing)).words :=
      List.flatMap_append
    rw [size_cons, hwords, List.length_append]
    exact Nat.add_le_add hfirst hfollowing
  | repeatTimes position times body hbody =>
    rw [size_repeatTimes]
    exact Nat.le_trans hbody (Nat.le_add_right _ _)
  | ifThen position condition body hbody =>
    rw [size_ifThen]
    exact Nat.le_trans hbody (Nat.le_add_left _ _)
  | ifElse position condition body otherwise hbody hother =>
    have hwords : (Statement.ifElse position condition body otherwise).words =
        (Statement.block body).words ++ otherwise.words := List.flatMap_append
    rw [size_ifElse, hwords, List.length_append]
    omega
  | whileLoop position condition body hbody =>
    rw [size_whileLoop]
    exact Nat.le_trans hbody (by omega)

theorem Command.length_numberedNames_le (names : List String) (start : Nat) (c : Command) :
    c.numberedNames.length ≤ (c.code names start).length := by
  rw [Command.length_code, Command.numberedNames, List.length_cons]
  exact Nat.succ_le_succ
    (Nat.le_trans (List.length_filter_le _ _) (Statement.length_words_le (.block c.body)))

namespace Assembly

/-! ## Numbers -/

theorem toNat_operand {a : Nat} (h : a < Program.maxSize) : (operand a).toNat = a :=
  UInt16.toNat_ofNat_of_lt' (Nat.lt_trans h (by decide))

theorem operand_lt {a : Nat} (h : a < Program.maxSize) : operand a < 0x1000 := by
  rw [UInt16.lt_iff_toNat_lt, toNat_operand h]
  exact h

theorem length_eraseDups_le : ∀ names : List String, names.eraseDups.length ≤ names.length
  | [] => Nat.le_refl 0
  | first :: following => by
    have hle := List.length_filter_le (fun name => !name == first) following
    have ih := length_eraseDups_le (following.filter fun name => !name == first)
    rw [List.eraseDups_cons, List.length_cons, List.length_cons]
    omega
termination_by names => names.length
decreasing_by
  rw [List.length_cons]
  omega

/-- The lines of the program of some commands, before they are linked. -/
def lines (commands : List Command) : List Line :=
  (place (numbering commands) Program.entryPoint commands).flatMap Placed.code

theorem length_names_le (names : List String) (start : Nat) (commands : List Command) :
    (commands.flatMap Command.numberedNames).length ≤
      ((place names start commands).flatMap Placed.code).length := by
  induction commands generalizing start with
  | nil => exact Nat.le_refl 0
  | cons first following ih =>
    have hfirst := Command.length_numberedNames_le names start first
    have hfollowing := ih (start + (first.code names start).length)
    simp only [List.flatMap_cons, place, List.length_append]
    omega

/-- There are no more numbers than lines. -/
theorem length_numbering_le (commands : List Command) :
    (numbering commands).length ≤ (lines commands).length :=
  Nat.le_trans (length_eraseDups_le _) (length_names_le _ _ commands)

/-- A program that is short enough has no more numbers than fit into an operand. -/
theorem length_numbering_lt {commands : List Command}
    (h : Program.entryPoint + (lines commands).length ≤ Program.maxSize) :
    (numbering commands).length < 0x1000 := by
  have hnumbering := length_numbering_le commands
  simp only [Program.entryPoint, Program.maxSize] at h
  omega

theorem name_mem_numbering {commands : List Command} {c : Command} (hc : c ∈ commands) :
    c.name ∈ numbering commands := by
  rw [numbering, List.mem_eraseDups]
  exact List.mem_flatMap.2 ⟨c, hc, List.mem_cons_self⟩

theorem toNat_number {names : List String} (hlen : names.length < 0x1000) (name : String) :
    (number names name).toNat = names.idxOf name := by
  have hle : names.idxOf name ≤ names.length := List.idxOf_le_length
  exact UInt16.toNat_ofNat_of_lt' (Nat.lt_of_le_of_lt hle (Nat.lt_trans hlen (by decide)))

theorem number_lt {names : List String} (hlen : names.length < 0x1000) (name : String) :
    number names name < 0x1000 := by
  rw [UInt16.lt_iff_toNat_lt, toNat_number hlen]
  exact Nat.lt_of_le_of_lt List.idxOf_le_length hlen

/-- A name and a numbered name with the same number are the same. -/
theorem number_inj {names : List String} (hlen : names.length < 0x1000) {a b : String}
    (hb : b ∈ names) : number names a = number names b ↔ a = b := by
  constructor
  · intro h
    have h := congrArg UInt16.toNat h
    rw [toNat_number hlen, toNat_number hlen] at h
    exact ((List.idxOf_inj hb).1 h.symm).symm
  · rintro rfl
    rfl

/-! ## Places -/

/-- Where the last command of a name starts in the program of some commands. -/
def address (commands : List Command) (name : String) : Nat :=
  (((place (numbering commands) Program.entryPoint commands).reverse.find? fun q =>
    q.name == name).map Placed.start).getD 0

theorem mem_place {names : List String} {start : Nat} {commands : List Command} {q : Placed}
    (hq : q ∈ place names start commands) :
    ∃ c ∈ commands, q = ⟨c.name, q.start, c.code names q.start⟩ := by
  induction commands generalizing start with
  | nil => cases hq
  | cons first following ih =>
    rw [place] at hq
    rcases List.mem_cons.1 hq with rfl | hq
    · exact ⟨first, List.mem_cons_self, rfl⟩
    · obtain ⟨c, hc, h⟩ := ih hq
      exact ⟨c, List.mem_cons_of_mem _ hc, h⟩

theorem name_mem_of_mem_place {start : Nat} {commands : List Command} {q : Placed}
    (hq : q ∈ place (numbering commands) start commands) : q.name ∈ numbering commands := by
  obtain ⟨c, hc, hqc⟩ := mem_place hq
  rw [hqc]
  exact name_mem_numbering hc

theorem map_name_place (names : List String) (start : Nat) (commands : List Command) :
    (place names start commands).map Placed.name = commands.map Command.name := by
  induction commands generalizing start with
  | nil => rfl
  | cons first following ih => rw [place, List.map_cons, List.map_cons, ih]

/-- The name of a command is found among the commands that have their place. -/
theorem exists_find?_place (names : List String) (start : Nat) {commands : List Command}
    {c : Command} (hc : c ∈ commands) :
    ∃ q, (place names start commands).reverse.find? (fun q => q.name == c.name) = some q := by
  have hname : c.name ∈ (place names start commands).map Placed.name := by
    rw [map_name_place]
    exact List.mem_map_of_mem hc
  obtain ⟨q, hq, hqname⟩ := List.mem_map.1 hname
  exact Option.isSome_iff_exists.1
    (List.find?_isSome.2 ⟨q, List.mem_reverse.2 hq, beq_iff_eq.2 hqname⟩)

/-- What lies before and behind the code of a command. -/
theorem place_split {names : List String} {start : Nat} {commands : List Command} {q : Placed}
    (hq : q ∈ place names start commands) :
    ∃ before behind, (place names start commands).flatMap Placed.code =
      before ++ q.code ++ behind ∧ q.start = start + before.length := by
  induction commands generalizing start with
  | nil => cases hq
  | cons first following ih =>
    rw [place] at hq ⊢
    rcases List.mem_cons.1 hq with rfl | hq
    · exact ⟨[], _, by rw [List.flatMap_cons, List.nil_append], rfl⟩
    · obtain ⟨before, behind, hcode, hstart⟩ := ih hq
      refine ⟨first.code names start ++ before, behind, ?_, ?_⟩
      · simp only [List.flatMap_cons, hcode, List.append_assoc]
      · rw [hstart, List.length_append, Nat.add_assoc]

/-- Every code ends before the next one starts. -/
theorem pairwise_place (names : List String) (start : Nat) (commands : List Command) :
    (place names start commands).Pairwise fun q r => q.start + q.code.length ≤ r.start := by
  induction commands generalizing start with
  | nil => exact .nil
  | cons first following ih =>
    rw [place]
    refine .cons (fun r hr => ?_) (ih _)
    obtain ⟨before, behind, -, hstart⟩ := place_split hr
    rw [hstart]
    exact Nat.le_add_right _ _

/-- No two commands start at the same address. -/
theorem nodup_start_place (names : List String) (start : Nat) (commands : List Command) :
    ((place names start commands).map Placed.start).Nodup := by
  refine List.pairwise_map.2 ((pairwise_place names start commands).imp_of_mem ?_)
  intro q r hq _ hle
  obtain ⟨c, -, hqc⟩ := mem_place hq
  have hlength := congrArg (fun q => q.code.length) hqc
  simp only [Command.length_code] at hlength
  omega

/-- The address that is found under the number of a name is that of the last command of the
name. -/
theorem lookup_addresses {names : List String} (hlen : names.length < 0x1000)
    {placed : List Placed} (hplaced : ∀ q ∈ placed, q.name ∈ names) (name : String) :
    (addresses names placed).lookup (number names name) =
      (placed.reverse.find? fun q => q.name == name).map Placed.start := by
  rw [addresses, ← List.map_reverse]
  have hreverse : ∀ q ∈ placed.reverse, q.name ∈ names := fun q hq =>
    hplaced q (List.mem_reverse.1 hq)
  generalize placed.reverse = backwards at hreverse
  induction backwards with
  | nil => rfl
  | cons q backwards ih =>
    have ih := ih fun r hr => hreverse r (List.mem_cons_of_mem _ hr)
    have hq := number_inj hlen (a := name) (hreverse q List.mem_cons_self)
    rw [List.map_cons, List.lookup_cons, List.find?_cons]
    by_cases hname : q.name = name
    · simp [hname]
    · have hnumber : number names name ≠ number names q.name := fun h => hname (hq.1 h).symm
      simp only [beq_eq_false_iff_ne.2 hnumber, beq_eq_false_iff_ne.2 hname]
      exact ih

end Assembly

/-- An address lies in the code of a command. -/
def Command.Covers (commands : List Command) (c : Command) (a : Nat) : Prop :=
  Assembly.address commands c.name ≤ a ∧ a < Assembly.address commands c.name +
    (c.code (Assembly.numbering commands) (Assembly.address commands c.name)).length

/-- The code of a command ends where the command is left. -/
theorem Command.covers_iff {commands : List Command} {c : Command} {a : Nat} :
    c.Covers commands a ↔ Assembly.address commands c.name ≤ a ∧
      a ≤ Assembly.address commands c.name + (Statement.block c.body).size := by
  rw [Covers, length_code, ← Nat.add_assoc, Nat.lt_succ_iff]

end KarelRobot
