import KarelRobot.Proofs.Outline

/-!
# The code, command by command

A program consists of one segment for each of its commands, in the order in which the search over
the call graph finds them.  A segment is left at its end and nowhere else, jumps stay inside it, and
what it calls or passes on under its own name is where another segment starts.

* `Stands` — what can stand at an address in the body of a command.
* `Script.Compiles.stands` — nothing else stands there.
* `Segment` — the code of a command and where it starts.
* `Segment.Admits` — what an instruction of a segment may refer to.
* `code_segments` — a program that `compile` returns consists of segments that are in order.
-/

set_option autoImplicit false
namespace KarelRobot

open Assembly

/-! ## What stands at each address -/

/-- Something that comes from a position of the source stands at every address from `low` up to
`high`. -/
def Program.Throughout (p : Program) (P : (address : Nat) → Op → (position : Nat) → Prop)
    (low high : Nat) : Prop :=
  ∀ a, low ≤ a → a < high → ∃ op position, p.get? a = some (.ofOp op position) ∧ P a op position

namespace Program.Throughout

variable {p : Program} {P : Nat → Op → Nat → Prop} {low middle high : Nat}

theorem empty : p.Throughout P low low := by
  intro a hlow hhigh
  omega

theorem single {op : Op} {position : Nat} (hget : p.get? low = some (.ofOp op position))
    (hP : P low op position) : p.Throughout P low (low + 1) := by
  intro a hlow hhigh
  obtain rfl : a = low := by omega
  exact ⟨op, position, hget, hP⟩

theorem append (hleft : p.Throughout P low middle) (hright : p.Throughout P middle high) :
    p.Throughout P low high := by
  intro a hlow hhigh
  by_cases hmiddle : a < middle
  · exact hleft a hlow hmiddle
  · exact hright a (Nat.not_lt.1 hmiddle) hhigh

end Program.Throughout

/-- A debugger stops at the address. -/
def Program.Pauses (p : Program) (address : Nat) : Prop :=
  ∃ i, p.get? address = some i ∧ i.pauses = true

/-- What can stand at the address `a` in the body of the command `c`.  The code of the body starts
at the address `low` and ends before `high`, where the command is left.  Jumps go forward, but for
those behind the body of a loop, and these lead to where a debugger stops. -/
inductive Stands (p : Program) (commands : List Command) (c : Command) (low high a : Nat) :
    Op → Nat → Prop
  | query (which : Predicate) (position : Nat) :
      Stands p commands c low high a (.query which) position
  | literal (value : Bool) (position : Nat) :
      Stands p commands c low high a (.literal value) position
  | not (position : Nat) : Stands p commands c low high a .not position
  | and (position : Nat) : Stands p commands c low high a .and position
  | or (position : Nat) : Stands p commands c low high a .or position
  | push {times : Nat} (htimes : times < Program.maxSize) (position : Nat) :
      Stands p commands c low high a (.push (operand times)) position
  /-- A counted loop goes back to the start of its body, which is the loop itself if it is empty. -/
  | loop {back : Nat} (hlow : low ≤ back) (hback : back ≤ a) (position : Nat) :
      Stands p commands c low high a (.loop (operand back)) position
  | argument {call : Call} {argument : Ident} (hcall : call ∈ c.body.calls)
      (hargument : argument ∈ call.arguments) :
      Stands p commands c low high a (locate commands c argument.text).argumentOp argument.position
  | target {call : Call} (hcall : call ∈ c.body.calls) :
      Stands p commands c low high a (locate commands c call.target.text).callOp
        call.target.position
  | skip {target : Nat} (hforth : a < target) (htarget : target ≤ high) (position : Nat) :
      Stands p commands c low high a (.jump (operand target)) position
  | repeated {target : Nat} (hlow : low ≤ target) (hback : target < a)
      (hpauses : p.Pauses target) (position : Nat) :
      Stands p commands c low high a (.jump (operand target)) position
  | branch (negations : Nat) {target : Nat} (hforth : a < target) (htarget : target ≤ high)
      (position : Nat) :
      Stands p commands c low high a (Condition.branch negations (operand target)) position

section Stands

variable {p : Program} {commands : List Command} {c : Command} {start low high : Nat}

theorem Instruction.pauses_ofOp {op : Op} (hfits : op.Fits) (position : Nat) :
    (ofOp op position).pauses = true ↔ op.pause ≠ .never := by
  rw [pauses, op?_ofOp hfits, Option.map_some]
  cases op.pause <;> simp [isFromSource, ofOp]

/-- A debugger stops where a condition starts. -/
theorem Condition.pauses_start {condition : Condition}
    (h : p.Holds commands start condition.code) : p.Pauses start := by
  induction condition with
  | literal value position =>
    exact ⟨_, h.get?_of_line, (Instruction.pauses_ofOp (Op.fits_of_none rfl) _).2 nofun⟩
  | predicate which position =>
    exact ⟨_, h.get?_of_line, (Instruction.pauses_ofOp (Op.fits_of_none rfl) _).2 nofun⟩
  | not position operand ih => exact ih h.append_left
  | and position left right ihleft ihright | or position left right ihleft ihright =>
    exact ihleft h.append_left.append_left

theorem Condition.stands {condition : Condition} (h : p.Holds commands start condition.code) :
    p.Throughout (Stands p commands c low high) start (start + condition.code.length) := by
  induction condition generalizing start with
  | literal value position => exact .single h.get?_of_line (.literal value position)
  | predicate which position => exact .single h.get?_of_line (.query which position)
  | not position operand ih =>
    rw [code, List.length_append, ← Nat.add_assoc]
    exact (ih h.append_left).append (.single h.append_right.get?_of_line (.not position))
  | and position left right ihleft ihright | or position left right ihleft ihright =>
    have hoperands := (ihleft h.append_left.append_left).append
      (ihright h.append_left.append_right)
    have hlast := h.append_right.get?_of_line
    rw [List.length_append, ← Nat.add_assoc] at hlast
    rw [code, List.length_append, List.length_append, ← Nat.add_assoc, ← Nat.add_assoc]
    refine hoperands.append (.single hlast ?_)
    constructor

/-- The code that decides a condition. -/
theorem Program.Tests.stands {condition : Condition} {target : Nat}
    (h : p.Tests commands condition start target)
    (hforth : start + condition.core.code.length < target) (htarget : target ≤ high) :
    p.Throughout (Stands p commands c low high) start (start + condition.core.code.length + 1) := by
  obtain ⟨position, hbranch⟩ := h.branch
  exact (Condition.stands h.holds).append (.single hbranch (.branch _ hforth htarget position))

/-- The instructions that push arguments. -/
theorem Program.Assembles.stands_arguments (h : p.Assembles commands) {call : Call}
    (hcall : call ∈ c.body.calls) {arguments : List Ident} (hsub : arguments ⊆ call.arguments)
    {ls : List Line}
    (hholds : p.Holds commands start (arguments.map (contextOf commands c).argument ++ ls)) :
    p.Throughout (Stands p commands c low high) start (start + arguments.length) := by
  induction arguments generalizing start with
  | nil => exact .empty
  | cons argument arguments ih =>
    obtain ⟨hargument, hsub⟩ := List.cons_subset.1 hsub
    have hfirst := (h.get?_argument hholds).1
    have hfollowing := ih hsub hholds.tail
    rw [Nat.add_assoc, Nat.add_comm 1] at hfollowing
    exact (Program.Throughout.single hfirst (.argument hcall hargument)).append hfollowing

/-- **Nothing else stands in the code of a statement.** -/
theorem Program.Assembles.stands_statement (h : p.Assembles commands) {s : Statement}
    (hcontains : p.Contains commands c s start) (hlow : low ≤ start)
    (hhigh : start + s.size ≤ high) :
    p.Throughout (Stands p commands c low high) start (start + s.size) := by
  induction s using Statement.induction generalizing start with
  | call call =>
    have hcall := hcontains.call_mem
    rw [Statement.size_call, ← Nat.add_assoc]
    exact (h.stands_arguments hcall (List.Subset.refl _) hcontains.holds).append
      (.single (h.get?_target hcontains.holds).1 (.target hcall))
  | nil opening closing => exact .empty
  | cons opening first following closing hfirst hfollowing =>
    rw [Statement.size_cons, ← Nat.add_assoc] at hhigh ⊢
    exact (hfirst hcontains.first hlow (by omega)).append
      (hfollowing hcontains.following (by omega) hhigh)
  | repeatTimes position times body hbody =>
    obtain ⟨⟨pushPosition, hpush⟩, hinside, ⟨loopPosition, hloop⟩, -, htimes⟩ :=
      hcontains.repeatTimes
    have hsize : start + (Statement.repeatTimes position times body).size =
        start + 1 + (Statement.block body).size + 1 := by
      rw [Statement.size_repeatTimes]
      omega
    rw [hsize] at hhigh ⊢
    refine (Program.Throughout.single hpush (.push (Nat.lt_succ_of_le htimes) _)).append
      ((hbody hinside (by omega) (by omega)).append (.single hloop (.loop (by omega) ?_ _)))
    exact Nat.le_add_right _ _
  | ifThen position condition body hbody =>
    obtain ⟨htest, hinside⟩ := hcontains.ifThen
    rw [Statement.size_ifThen, ← Nat.add_assoc, ← Nat.add_assoc] at hhigh ⊢
    exact (htest.stands (by omega) hhigh).append (hbody hinside (by omega) hhigh)
  | ifElse position condition body otherwise hbody hother =>
    obtain ⟨htest, hinside, ⟨jumpPosition, hjump⟩, hotherwise⟩ := hcontains.ifElse
    simp only [Statement.size_ifElse, ← Nat.add_assoc] at hhigh ⊢
    exact (htest.stands (by omega) (by omega)).append
      ((hbody hinside (by omega) (by omega)).append
        ((Program.Throughout.single hjump (.skip (by omega) hhigh _)).append
          (hother hotherwise (by omega) hhigh)))
  | whileLoop position condition body hbody =>
    obtain ⟨htest, hinside, ⟨jumpPosition, hjump⟩⟩ := hcontains.whileLoop
    have hpauses := Condition.pauses_start htest.holds
    simp only [Statement.size_whileLoop, ← Nat.add_assoc] at hhigh ⊢
    exact (htest.stands (by omega) hhigh).append
      ((hbody hinside (by omega) (by omega)).append
        (.single hjump (.repeated hlow (by omega) hpauses _)))

end Stands

/-- **Nothing else stands in the body of a command.** -/
theorem Script.Compiles.stands {script : Script} {main c : Command} {p : Program}
    (h : script.Compiles main p) (hc : c ∈ script.reachable main.name) :
    p.Throughout
      (Stands p (script.reachable main.name) c (address (script.reachable main.name) c.name)
        (address (script.reachable main.name) c.name + (Statement.block c.body).size))
      (address (script.reachable main.name) c.name)
      (address (script.reachable main.name) c.name + (Statement.block c.body).size) :=
  h.assembles.stands_statement (h.contains_body hc) (Nat.le_refl _) (Nat.le_refl _)

/-! ## Segments -/

/-- The instructions of a program at `count` addresses from `start` on. -/
def Program.slice (p : Program) (start count : Nat) : List Instruction :=
  (p.instructions.toList.drop start).take count

namespace Program

variable (p : Program) (start m n : Nat)

theorem slice_add : p.slice start (m + n) = p.slice start m ++ p.slice (start + m) n := by
  rw [slice, slice, slice, List.take_add, List.drop_drop]

theorem length_slice (h : start + n ≤ p.size) : (p.slice start n).length = n := by
  rw [size, ← Array.length_toList] at h
  rw [slice, List.length_take, List.length_drop]
  omega

variable {p start n}

theorem slice_one {i : Instruction} (h : p.get? start = some i) : p.slice start 1 = [i] := by
  rw [get?, ← Array.getElem?_toList] at h
  rw [slice, List.take_one, List.head?_drop, h]
  rfl

theorem exists_get?_of_mem_slice {i : Instruction} (h : i ∈ p.slice start n) :
    ∃ a, start ≤ a ∧ a < start + n ∧ p.get? a = some i := by
  obtain ⟨k, hk⟩ := List.mem_iff_getElem?.1 h
  have hlt := (List.getElem?_eq_some_iff.1 hk).1
  rw [slice, List.length_take] at hlt
  rw [slice, List.getElem?_take_of_lt (by omega), List.getElem?_drop, Array.getElem?_toList] at hk
  exact ⟨start + k, by omega, by omega, hk⟩

end Program

/-- The code of a command in a program. -/
structure Segment where
  command : Command
  /-- The address of the first instruction. -/
  start : Nat
  code : List Instruction

namespace Segment

/-- The segments lie behind one another from an address on. -/
def Adjoin : (start : Nat) → List Segment → Prop
  | _, [] => True
  | start, s :: following => s.start = start ∧ Adjoin (start + s.code.length) following

/-- An address lies in the segment. -/
def Covers (s : Segment) (a : Nat) : Prop :=
  s.start ≤ a ∧ a < s.start + s.code.length

/-- Every address of segments that lie behind one another lies in one of them. -/
theorem Adjoin.exists_covers {start a : Nat} {segments : List Segment} (h : Adjoin start segments)
    (hlow : start ≤ a) (hhigh : a < start + (segments.flatMap code).length) :
    ∃ s ∈ segments, s.Covers a := by
  induction segments generalizing start with
  | nil =>
    rw [List.flatMap_nil, List.length_nil] at hhigh
    omega
  | cons first following ih =>
    obtain ⟨hstart, hfollowing⟩ := h
    rw [List.flatMap_cons, List.length_append] at hhigh
    by_cases hfirst : a < start + first.code.length
    · exact ⟨first, List.mem_cons_self, by omega, by omega⟩
    · obtain ⟨s, hs, hcovers⟩ := ih hfollowing (by omega) (by omega)
      exact ⟨s, List.mem_cons_of_mem _ hs, hcovers⟩

/-- The last instruction of the segment leaves the command, at the position of its closing brace,
and no other one does. -/
def Closed (s : Segment) : Prop :=
  ∃ inside, s.code = inside ++ [.ofOp .ret s.command.body.closing] ∧
    ∀ i ∈ inside, i.isReturn = false

/-- An operation is in order where it stands in the segment `s`, one of `segments`. -/
def Admits (script : Script) (segments : List Segment) (s : Segment) (position : Nat) : Op → Prop
  | .jump target | .jumpUnless target | .jumpIf target | .loop target => s.Covers target.toNat
  | .call target =>
    ∃ call ∈ s.command.body.calls, call.target.position = position ∧
      ∃ callee ∈ segments, script.find? call.target.text = some callee.command ∧
        target.toNat = callee.start
  | .pass reference =>
    ∃ call ∈ s.command.body.calls, ∃ argument ∈ call.arguments, argument.position = position ∧
      ((∃ which, Action.ofName? argument.text = some which ∧ reference = which.opcode) ∨
        ∃ passed ∈ segments, script.find? argument.text = some passed.command ∧
          passed.command.parameters = [] ∧ reference.toNat = passed.start)
  | .callParameter index | .forward index =>
    0 < index.toNat ∧ index.toNat ≤ s.command.parameters.length
  | .ret => position = s.command.body.closing
  | .action _ | .query _ | .literal _ | .not | .and | .or | .push _ => True

/-- Cuts the code of a program into segments, from an address on. -/
def ofCommands (p : Program) (start : Nat) : List Command → List Segment
  | [] => []
  | c :: following =>
    ⟨c, start, p.slice start c.extent⟩ :: ofCommands p (start + c.extent) following

variable {p : Program} {start : Nat} {commands : List Command}

theorem map_command_ofCommands (p : Program) (start : Nat) (commands : List Command) :
    (ofCommands p start commands).map command = commands := by
  induction commands generalizing start with
  | nil => rfl
  | cons first following ih => rw [ofCommands, List.map_cons, ih]

/-- Commands with distinct names are cut where the outline says. -/
theorem mem_ofCommands (hdistinct : (commands.map Command.name).Nodup) {s : Segment}
    (hs : s ∈ ofCommands p start commands) :
    s.command ∈ commands ∧ s.start = Outline.address start commands s.command.name ∧
      s.code = p.slice s.start s.command.extent := by
  induction commands generalizing start with
  | nil => cases hs
  | cons first following ih =>
    rcases List.mem_cons.1 hs with rfl | hs
    · exact ⟨List.mem_cons_self, (if_pos rfl).symm, rfl⟩
    · obtain ⟨hmem, hstart, hcode⟩ := ih (List.nodup_cons.1 hdistinct).2 hs
      rw [Outline.address_cons_of_mem hdistinct hmem]
      exact ⟨List.mem_cons_of_mem _ hmem, hstart, hcode⟩

/-- Segments that are cut out of a program lie behind one another, and nothing is left out. -/
theorem adjoin_ofCommands {address : String → Nat}
    (hsize : start + (Outline.ofCommands address start commands).length ≤ p.size) :
    Adjoin start (ofCommands p start commands) ∧
      (ofCommands p start commands).flatMap code =
        p.slice start (Outline.ofCommands address start commands).length := by
  induction commands generalizing start with
  | nil => exact ⟨trivial, rfl⟩
  | cons first following ih =>
    have hextent := first.length_outline address start
    rw [← Command.extent_eq] at hextent
    rw [Outline.ofCommands, List.length_append, hextent, ← Nat.add_assoc] at hsize
    obtain ⟨hadjoin, hcode⟩ := ih hsize
    have hlength := p.length_slice start first.extent (by omega)
    refine ⟨⟨rfl, ?_⟩, ?_⟩
    · rw [hlength]
      exact hadjoin
    · rw [ofCommands, List.flatMap_cons, hcode, Outline.ofCommands, List.length_append, hextent,
        p.slice_add]

end Segment

/-- The segments of the program of some commands. -/
def Program.segments (p : Program) (commands : List Command) : List Segment :=
  Segment.ofCommands p entryPoint commands

/-! ## Segments are in order -/

theorem Instruction.isReturn_eq_false {i : Instruction} {op : Op} (hop : i.op? = some op)
    (hne : op ≠ .ret) : i.isReturn = false := by
  refine Bool.eq_false_iff.2 fun hreturn => hne ?_
  rw [Instruction.op?, eq_of_beq hreturn] at hop
  exact (Option.some_inj.1 hop).symm

namespace Script.Compiles

variable {script : Script} {main : Command} {p : Program} {s : Segment} {position : Nat}

/-- Where a segment lies. -/
theorem mem_segments (h : script.Compiles main p)
    (hs : s ∈ p.segments (script.reachable main.name)) :
    s.command ∈ script.reachable main.name ∧
      s.start = address (script.reachable main.name) s.command.name ∧
      s.code = p.slice s.start ((Statement.block s.command.body).size + 1) := by
  obtain ⟨hmem, hstart, hcode⟩ := Segment.mem_ofCommands h.assembles.distinct hs
  rw [h.assembles.outline_address hmem] at hstart
  rw [Command.extent_eq] at hcode
  exact ⟨hmem, hstart, hcode⟩

/-- Every command has its segment. -/
theorem exists_segment (h : script.Compiles main p) {c : Command}
    (hc : c ∈ script.reachable main.name) :
    ∃ s ∈ p.segments (script.reachable main.name), s.command = c ∧
      (operand (address (script.reachable main.name) c.name)).toNat = s.start := by
  have hbounds := h.assembles.address_bounds hc
  rw [← Segment.map_command_ofCommands p Program.entryPoint (script.reachable main.name)] at hc
  obtain ⟨s, hs, rfl⟩ := List.mem_map.1 hc
  obtain ⟨-, hstart, -⟩ := h.mem_segments hs
  exact ⟨s, hs, rfl, by rw [hstart, toNat_operand (by omega)]⟩

/-- **A segment covers the code of its command.** -/
theorem covers_iff_command (h : script.Compiles main p)
    (hs : s ∈ p.segments (script.reachable main.name)) {a : Nat} :
    s.Covers a ↔ s.command.Covers (script.reachable main.name) a := by
  obtain ⟨hmem, hstart, hcode⟩ := h.mem_segments hs
  have hsize : s.start + ((Statement.block s.command.body).size + 1) ≤ p.size := by
    have hget := h.get?_ret hmem
    rw [← hstart] at hget
    exact (Array.getElem?_eq_some_iff.1 hget).1
  rw [Segment.Covers, Command.Covers, hcode, p.length_slice _ _ hsize, Command.length_code, hstart]

/-- A segment ends where its command is left. -/
theorem covers_iff (h : script.Compiles main p)
    (hs : s ∈ p.segments (script.reachable main.name)) {a : Nat} :
    s.Covers a ↔ s.start ≤ a ∧ a ≤ s.start + (Statement.block s.command.body).size := by
  obtain ⟨-, hstart, -⟩ := h.mem_segments hs
  rw [h.covers_iff_command hs, Command.covers_iff, hstart]

theorem covers_lt (h : script.Compiles main p)
    (hs : s ∈ p.segments (script.reachable main.name)) {a : Nat} (hcovers : s.Covers a) :
    a < Program.maxSize := by
  obtain ⟨hmem, hstart, -⟩ := h.mem_segments hs
  have hbounds := h.assembles.address_bounds hmem
  obtain ⟨-, hhigh⟩ := (h.covers_iff hs).1 hcovers
  omega

theorem covers_operand (h : script.Compiles main p)
    (hs : s ∈ p.segments (script.reachable main.name)) {target : Nat} (hlow : s.start ≤ target)
    (hhigh : target ≤ s.start + (Statement.block s.command.body).size) :
    operand target < 0x1000 ∧ s.Covers (operand target).toNat := by
  have hcovers := (h.covers_iff hs).2 ⟨hlow, hhigh⟩
  have hlt := h.covers_lt hs hcovers
  exact ⟨operand_lt hlt, by rw [toNat_operand hlt]; exact hcovers⟩

/-- What a segment passes on. -/
theorem admits_argument (h : script.Compiles main p)
    (hs : s ∈ p.segments (script.reachable main.name)) {call : Call}
    (hcall : call ∈ s.command.body.calls) {argument : Ident}
    (hargument : argument ∈ call.arguments) :
    let op := (locate (script.reachable main.name) s.command argument.text).argumentOp
    op.Fits ∧ op ≠ .ret ∧
      s.Admits script (p.segments (script.reachable main.name)) argument.position op := by
  obtain ⟨hmem, -, -⟩ := h.mem_segments hs
  obtain ⟨arity, harity, hlocated⟩ : ∃ arity, arity = 0 ∧
      script.Located (script.reachable main.name) s.command argument.text arity
        (locate (script.reachable main.name) s.command argument.text) :=
    ⟨0, rfl, h.located_argument hmem hcall hargument⟩
  generalize locate (script.reachable main.name) s.command argument.text = reference at hlocated ⊢
  cases hlocated with
  | parameter hindex hlt =>
    obtain ⟨hfits, hbounds⟩ := h.parameter_bounds hmem hlt
    exact ⟨Op.fits_of_some rfl hfits, nofun, hbounds⟩
  | @builtin which hindex hwhich =>
    have hfits : which.opcode < 0x1000 := by cases which <;> decide
    exact ⟨Op.fits_of_some rfl hfits, nofun, call, hcall, argument, hargument, rfl,
      .inl ⟨which, hwhich, rfl⟩⟩
  | direct hindex hwhich hd hdmem hmentions =>
    obtain ⟨passed, hpassed, rfl, hstart⟩ := h.exists_segment hdmem
    exact ⟨Op.fits_of_some rfl (h.assembles.operand_address_lt hdmem), nofun, call, hcall, argument,
      hargument, rfl, .inr ⟨passed, hpassed, hd, List.length_eq_zero_iff.1 harity, hstart⟩⟩

/-- What a segment calls. -/
theorem admits_target (h : script.Compiles main p)
    (hs : s ∈ p.segments (script.reachable main.name)) {call : Call}
    (hcall : call ∈ s.command.body.calls) :
    let op := (locate (script.reachable main.name) s.command call.target.text).callOp
    op.Fits ∧ op ≠ .ret ∧
      s.Admits script (p.segments (script.reachable main.name)) call.target.position op := by
  obtain ⟨hmem, -, -⟩ := h.mem_segments hs
  have hlocated := h.located_target hmem hcall
  generalize locate (script.reachable main.name) s.command call.target.text = reference
    at hlocated ⊢
  generalize call.arguments.length = arity at hlocated
  cases hlocated with
  | parameter hindex hlt =>
    obtain ⟨hfits, hbounds⟩ := h.parameter_bounds hmem hlt
    exact ⟨Op.fits_of_some rfl hfits, nofun, hbounds⟩
  | builtin hindex hwhich => exact ⟨Op.fits_of_none rfl, nofun, trivial⟩
  | direct hindex hwhich hd hdmem hmentions =>
    obtain ⟨callee, hcallee, rfl, hstart⟩ := h.exists_segment hdmem
    exact ⟨Op.fits_of_some rfl (h.assembles.operand_address_lt hdmem), nofun, call, hcall, rfl,
      callee, hcallee, hd, hstart⟩

/-- **What stands in the body of a command is in order.** -/
theorem admits (h : script.Compiles main p) (hs : s ∈ p.segments (script.reachable main.name))
    {a : Nat} {op : Op} (hlow : s.start ≤ a)
    (hhigh : a < s.start + (Statement.block s.command.body).size)
    (hstands : Stands p (script.reachable main.name) s.command s.start
      (s.start + (Statement.block s.command.body).size) a op position) :
    op.Fits ∧ op ≠ .ret ∧
      s.Admits script (p.segments (script.reachable main.name)) position op := by
  cases hstands with
  | query | literal | not | and | or => exact ⟨Op.fits_of_none rfl, nofun, trivial⟩
  | push htimes => exact ⟨Op.fits_of_some rfl (operand_lt htimes), nofun, trivial⟩
  | loop hlow hback =>
    obtain ⟨hfits, hcovers⟩ := h.covers_operand hs hlow (by omega)
    exact ⟨Op.fits_of_some rfl hfits, nofun, hcovers⟩
  | argument hcall hargument => exact h.admits_argument hs hcall hargument
  | target hcall => exact h.admits_target hs hcall
  | skip hforth htarget =>
    obtain ⟨hfits, hcovers⟩ := h.covers_operand hs (by omega) htarget
    exact ⟨Op.fits_of_some rfl hfits, nofun, hcovers⟩
  | repeated hlow hback =>
    obtain ⟨hfits, hcovers⟩ := h.covers_operand hs hlow (by omega)
    exact ⟨Op.fits_of_some rfl hfits, nofun, hcovers⟩
  | branch negations hforth htarget =>
    obtain ⟨hfits, hcovers⟩ := h.covers_operand hs (by omega) htarget
    unfold Condition.branch
    split
    · exact ⟨Op.fits_of_some rfl hfits, nofun, hcovers⟩
    · exact ⟨Op.fits_of_some rfl hfits, nofun, hcovers⟩

/-- The instructions in the body of a command. -/
theorem admits_of_mem_slice (h : script.Compiles main p)
    (hs : s ∈ p.segments (script.reachable main.name)) {i : Instruction}
    (hi : i ∈ p.slice s.start (Statement.block s.command.body).size) :
    ∃ op position, i.op? = some op ∧ i.position = some position ∧ op ≠ .ret ∧
      s.Admits script (p.segments (script.reachable main.name)) position op := by
  obtain ⟨hmem, hstart, -⟩ := h.mem_segments hs
  obtain ⟨a, hlow, hhigh, hget⟩ := Program.exists_get?_of_mem_slice hi
  have hthroughout := h.stands hmem
  rw [← hstart] at hthroughout
  obtain ⟨op, position, hop, hstands⟩ := hthroughout a hlow hhigh
  rw [hget] at hop
  cases hop
  obtain ⟨hfits, hret, hadmits⟩ := h.admits hs hlow hhigh hstands
  exact ⟨op, position, Instruction.op?_ofOp hfits position, rfl, hret, hadmits⟩

/-- A segment is its body and the instruction that leaves it. -/
theorem code_segment (h : script.Compiles main p)
    (hs : s ∈ p.segments (script.reachable main.name)) :
    s.code = p.slice s.start (Statement.block s.command.body).size ++
      [.ofOp .ret s.command.body.closing] := by
  obtain ⟨hmem, hstart, hcode⟩ := h.mem_segments hs
  have hret := h.get?_ret hmem
  rw [← hstart] at hret
  rw [hcode, p.slice_add, Program.slice_one hret]

theorem closed_segment (h : script.Compiles main p)
    (hs : s ∈ p.segments (script.reachable main.name)) : s.Closed := by
  refine ⟨_, h.code_segment hs, fun i hi => ?_⟩
  obtain ⟨op, -, hop, -, hret, -⟩ := h.admits_of_mem_slice hs hi
  exact Instruction.isReturn_eq_false hop hret

end Script.Compiles

/-- The program of some commands of a script is made of these segments. -/
structure Program.Segmented (p : Program) (script : Script) (commands : List Command)
    (segments : List Segment) : Prop where
  map_command : segments.map Segment.command = commands
  flatMap_code : segments.flatMap Segment.code = p.code
  adjoin : Segment.Adjoin entryPoint segments
  closed : ∀ s ∈ segments, s.Closed
  admits : ∀ s ∈ segments, ∀ i ∈ s.code, ∃ op position,
    i.op? = some op ∧ i.position = some position ∧ s.Admits script segments position op

/-- **A program is cut into segments that are in order.** -/
theorem Script.Compiles.segmented {script : Script} {main : Command} {p : Program}
    (h : script.Compiles main p) :
    p.Segmented script (script.reachable main.name) (p.segments (script.reachable main.name)) := by
  have hsize := h.realises.size_eq
  obtain ⟨hadjoin, hcode⟩ := Segment.adjoin_ofCommands (Nat.le_of_eq hsize.symm)
  refine ⟨Segment.map_command_ofCommands p Program.entryPoint _, ?_, hadjoin,
    fun s hs => h.closed_segment hs, fun s hs i hi => ?_⟩
  · rw [Program.segments, hcode, Program.slice, Program.code]
    refine List.take_of_length_le ?_
    rw [List.length_drop, Array.length_toList]
    exact Nat.sub_le_of_le_add (by rw [Nat.add_comm]; exact Nat.le_of_eq hsize)
  · rw [h.code_segment hs] at hi
    rcases List.mem_append.1 hi with hi | hi
    · obtain ⟨op, position, hop, hposition, -, hadmits⟩ := h.admits_of_mem_slice hs hi
      exact ⟨op, position, hop, hposition, hadmits⟩
    · obtain rfl := List.mem_singleton.1 hi
      exact ⟨.ret, _, Instruction.op?_ofOp (Op.fits_of_none rfl) _, rfl, rfl⟩

/-- **The code is one segment for each command.**  The segments lie behind one another, the one of
the command to start with first; each is left at its end only, and all its instructions are in order
and come from the source. -/
theorem code_segments {source : String} {entry : Option String} {level : Level} {p : Program}
    (h : compile source entry level = .ok p) :
    ∃ script main following segments, Script.parse source = .ok script ∧
      script.find? (entry.getD script.defaultEntry) = some main ∧
      script.reachable (entry.getD script.defaultEntry) = main :: following ∧
      ((main :: following).map Command.name).Nodup ∧
      p.Segmented script (main :: following) segments := by
  obtain ⟨script, main, hparse, hmain, hcompiles, -⟩ := compiles_of_compile h
  obtain ⟨following, hreachable⟩ := Script.reachable_eq_cons hmain
  have hnodup := script.nodup_reachable (entry.getD script.defaultEntry)
  have hsegmented := hcompiles.segmented
  rw [Script.name_of_find? hmain, hreachable] at hsegmented
  rw [hreachable] at hnodup
  exact ⟨script, main, following, _, hparse, hmain, hreachable, hnodup, hsegmented⟩

theorem code_segments_dance :
    ∃ p, compile dance none .recursion = .ok p ∧
      ∃ script main following segments, Script.parse dance = .ok script ∧
        script.find? (none.getD script.defaultEntry) = some main ∧
        script.reachable (none.getD script.defaultEntry) = main :: following ∧
        ((main :: following).map Command.name).Nodup ∧
        p.Segmented script (main :: following) segments := by
  obtain ⟨p, hp⟩ := exists_compile_dance
  exact ⟨p, hp, code_segments hp⟩

end KarelRobot
