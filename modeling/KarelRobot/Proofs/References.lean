import KarelRobot.Proofs.Outline

/-!
# References to commands

Commands can be put into machine code in any order and without having been looked at before: some
may have the same name, and names may stand in them that no command has.  Then all that matters is
how long the code is and which commands its calls and arguments refer to.  A name that is neither a
parameter nor built in refers to the last of the commands that have it; if there is none, nothing is
linked, and the first such name in the code is reported.

* `Use` — a name in the code, with the address of its instruction.
* `Program.links` — the uses of names that are neither parameters nor built in.
* `Assembly.pending_lines` — these are the lines that are still to be linked, in their order.
* `Assembly.link_of_last`, `Assembly.link_of_stray` — what linking such a line comes to.
* `Program.Resolution` — a program, a name without a command, or too many instructions.
* `ofCommands_resolution` — nothing else can come of a list of commands.
-/

set_option autoImplicit false
namespace KarelRobot

open Assembly

/-! ## Names in the code -/

/-- A name in the code of a command. -/
structure Use where
  /-- Where its instruction stands. -/
  address : Nat
  /-- Is the name called here, or passed on? -/
  isCall : Bool
  ident : Ident
deriving Repr, DecidableEq

namespace Use

/-- The instruction for a command at an address. -/
def directive (u : Use) : Nat → Directive :=
  if u.isCall then .call else .pass

/-- The same with the address in a word. -/
def op (u : Use) : UInt16 → Op :=
  if u.isCall then .call else .pass

/-- The line that is still to be linked. -/
def line (names : List String) (u : Use) : Line :=
  ⟨.ofOp (u.op (number names u.ident.text)) u.ident.position, true⟩

end Use

/-- The names in the code of a call, which starts at an address. -/
def Call.uses (start : Nat) (c : Call) : List Use :=
  (c.arguments.zipIdx start).map (fun argument => ⟨argument.2, false, argument.1⟩) ++
    [⟨start + c.arguments.length, true, c.target⟩]

mutual

/-- The names in the code of a statement that starts at an address. -/
def Statement.uses (start : Nat) : Statement → List Use
  | .call c => c.uses start
  | .block body => body.uses start
  | .repeatTimes _ _ body => body.uses (start + 1)
  | .ifThen _ condition body => body.uses (start + condition.core.outline.length + 1)
  | .ifElse _ condition body otherwise =>
    let bodyStart := start + condition.core.outline.length + 1
    body.uses bodyStart ++ otherwise.uses (bodyStart + (Statement.block body).size + 1)
  | .whileLoop _ condition body => body.uses (start + condition.core.outline.length + 1)

/-- The names in the code of a block that starts at an address. -/
def Block.uses (start : Nat) : Block → List Use
  | .mk _ statements _ => Statement.usesAll start statements

/-- The names in the code of statements behind one another that start at an address. -/
def Statement.usesAll (start : Nat) : List Statement → List Use
  | [] => []
  | statement :: following =>
    statement.uses start ++ Statement.usesAll (start + statement.size) following

end

/-- Does a name in a command refer to a command of the script? -/
def Command.isFree (c : Command) (name : String) : Bool :=
  !c.hasParameter name && (Action.ofName? name).isNone

/-- The names in a command that refer to commands of the script, in the order of its code: the
target of a call behind the arguments. -/
def Command.freeIdents (c : Command) : List Ident :=
  (c.body.calls.flatMap fun call => call.arguments ++ [call.target]).filter fun ident =>
    c.isFree ident.text

/-- Where the code of a command that starts at an address refers to commands of the script. -/
def Command.links (start : Nat) (c : Command) : List Use :=
  (c.body.uses start).filter fun u => c.isFree u.ident.text

/-- How many instructions some commands take. -/
def Assembly.extent : List Command → Nat
  | [] => 0
  | c :: following => c.extent + extent following

/-- Where the code of commands that lie behind one another refers to commands of the script. -/
def Assembly.links (start : Nat) : List Command → List Use
  | [] => []
  | c :: following => c.links start ++ links (start + c.extent) following

/-- Where the program of some commands refers to commands, in the order of its code. -/
def Program.links (commands : List Command) : List Use :=
  Assembly.links entryPoint commands

namespace Statement

theorem uses_ifThen (start position : Nat) (condition : Condition) (body : Block) :
    (Statement.ifThen position condition body).uses start =
      (Statement.block body).uses (start + condition.core.code.length + 1) := by
  rw [← Condition.length_outline]
  rfl

theorem uses_ifElse (start position : Nat) (condition : Condition) (body : Block)
    (otherwise : Statement) :
    (Statement.ifElse position condition body otherwise).uses start =
      let bodyStart := start + condition.core.code.length + 1
      (Statement.block body).uses bodyStart ++
        otherwise.uses (bodyStart + (Statement.block body).size + 1) := by
  rw [← Condition.length_outline]
  rfl

theorem uses_whileLoop (start position : Nat) (condition : Condition) (body : Block) :
    (Statement.whileLoop position condition body).uses start =
      (Statement.block body).uses (start + condition.core.code.length + 1) := by
  rw [← Condition.length_outline]
  rfl

end Statement

/-! ## The lines that are still to be linked -/

namespace Assembly

/-- The lines that are still to be linked, with their addresses. -/
def pending (start : Nat) (ls : List Line) : List (Line × Nat) :=
  (ls.zipIdx start).filter fun l => l.1.isPending

theorem pending_append (start : Nat) (ls ms : List Line) :
    pending start (ls ++ ms) = pending start ls ++ pending (start + ls.length) ms := by
  rw [pending, List.zipIdx_append, List.filter_append]
  rfl

theorem pending_cons (start : Nat) (l : Line) (ls : List Line) :
    pending start (l :: ls) =
      if l.isPending then (l, start) :: pending (start + 1) ls else pending (start + 1) ls :=
  List.filter_cons

theorem pending_line_cons (start : Nat) (op : Op) (position : Nat) (ls : List Line) :
    pending start (line op position :: ls) = pending (start + 1) ls := rfl

theorem pending_condition (start : Nat) (condition : Condition) :
    pending start condition.code = [] := by
  refine List.filter_eq_nil_iff.2 fun l hl => ?_
  obtain ⟨op, position, heq⟩ := Condition.exists_line (List.fst_mem_of_mem_zipIdx hl)
  rw [heq]
  exact Bool.false_ne_true

/-- A name is free if and only if its line is still to be linked, and then this line is that of its
use. -/
theorem resolve_eq (names : List String) (c : Command) (name : String) :
    (c.isFree name = true ∧
        (⟨c.parameters, names⟩ : Context).resolve name = .direct (number names name)) ∨
      (c.isFree name = false ∧
        ((⟨c.parameters, names⟩ : Context).resolve name).isPending = false) := by
  have hany : (c.parameters.any fun parameter => parameter.text == name) =
      (c.parameters.findIdx? fun parameter => parameter.text == name).isSome :=
    List.findIdx?_isSome.symm
  simp only [Command.isFree, Command.hasParameter, Context.resolve, hany]
  cases c.parameters.findIdx? fun parameter => parameter.text == name with
  | some index => exact .inr ⟨rfl, rfl⟩
  | none =>
    cases Action.ofName? name with
    | some which => exact .inr ⟨rfl, rfl⟩
    | none => exact .inl ⟨rfl, rfl⟩

end Assembly

section Pending

variable (names : List String) (c : Command)

theorem Call.pending_arguments (start : Nat) (arguments : List Ident) :
    pending start (arguments.map (⟨c.parameters, names⟩ : Context).argument) =
      (((arguments.zipIdx start).map fun argument => (⟨argument.2, false, argument.1⟩ : Use)).filter
        fun u => c.isFree u.ident.text).map fun u => (u.line names, u.address) := by
  induction arguments generalizing start with
  | nil => rfl
  | cons argument arguments ih =>
    rw [List.map_cons, pending_cons, ih, List.zipIdx_cons, List.map_cons, List.filter_cons,
      Context.argument]
    rcases resolve_eq names c argument.text with ⟨hfree, hresolve⟩ | ⟨hfree, hresolve⟩
    · simp only [hfree, hresolve]
      rfl
    · simp only [hfree, hresolve]
      rfl

/-- The lines of a call that are still to be linked. -/
theorem Call.pending_code (start : Nat) (call : Call) :
    pending start ((⟨c.parameters, names⟩ : Context).call call) =
      ((call.uses start).filter fun u => c.isFree u.ident.text).map
        fun u => (u.line names, u.address) := by
  rw [Context.call, pending_append, uses, List.filter_append, List.map_append, List.length_map,
    pending_arguments, pending_cons, List.filter_cons]
  rcases resolve_eq names c call.target.text with ⟨hfree, hresolve⟩ | ⟨hfree, hresolve⟩
  · simp only [hfree, hresolve]
    rfl
  · simp only [hfree, hresolve]
    rfl

/-- **The lines of a statement that are still to be linked** are those of its free names. -/
theorem Statement.pending_code (start : Nat) (s : Statement) :
    pending start (s.code ⟨c.parameters, names⟩ start) =
      ((s.uses start).filter fun u => c.isFree u.ident.text).map
        fun u => (u.line names, u.address) := by
  induction s using Statement.induction generalizing start with
  | call call => exact Call.pending_code names c start call
  | nil opening closing => rfl
  | cons opening first following closing hfirst hfollowing =>
    rw [code_cons, pending_append, hfirst, hfollowing, length_code, ← List.map_append,
      ← List.filter_append]
    rfl
  | repeatTimes position times body hbody =>
    rw [code_repeatTimes, pending_line_cons, pending_append, hbody]
    exact List.append_nil _
  | ifThen position condition body hbody =>
    simp only [code_ifThen, uses_ifThen, Condition.test_eq, pending_append, pending_condition,
      pending_line_cons, hbody, List.nil_append]
  | ifElse position condition body otherwise hbody hother =>
    simp only [code_ifElse, uses_ifElse, Condition.test_eq, pending_append, pending_condition,
      pending_line_cons, hbody, hother, List.nil_append, length_code, List.filter_append,
      List.map_append]
  | whileLoop position condition body hbody =>
    simp only [code_whileLoop, uses_whileLoop, Condition.test_eq, pending_append,
      pending_condition, pending_line_cons, hbody, List.nil_append]
    exact List.append_nil _

theorem Command.pending_code (start : Nat) :
    pending start (c.code names start) =
      (c.links start).map fun u => (u.line names, u.address) := by
  rw [Command.code_eq, pending_append, Statement.pending_code]
  exact List.append_nil _

/-- The lines of commands behind one another that are still to be linked. -/
theorem Assembly.pending_place (start : Nat) (commands : List Command) :
    pending start ((place names start commands).flatMap Placed.code) =
      (links start commands).map fun u => (u.line names, u.address) := by
  induction commands generalizing start with
  | nil => rfl
  | cons first following ih =>
    rw [place, List.flatMap_cons, pending_append, Command.pending_code, ih, links, List.map_append,
      Command.length_code, Command.extent_eq]

end Pending

/-- **What is still to be linked in a program.** -/
theorem Assembly.pending_lines (commands : List Command) :
    pending Program.entryPoint (lines commands) =
      (Program.links commands).map fun u => (u.line (numbering commands), u.address) :=
  pending_place _ _ _

/-- The uses of names are listed in the order of the code. -/
theorem Assembly.pairwise_address_links (commands : List Command) :
    (Program.links commands).Pairwise fun u v => u.address < v.address := by
  have hzip : ((lines commands).zipIdx Program.entryPoint).Pairwise fun l m => l.2 < m.2 := by
    rw [← List.pairwise_map (f := Prod.snd) (R := fun a b => a < b), List.zipIdx_map_snd]
    exact List.pairwise_lt_range'
  have hpending : (pending Program.entryPoint (lines commands)).Pairwise fun l m => l.2 < m.2 :=
    hzip.sublist List.filter_sublist
  rw [pending_lines, List.pairwise_map] at hpending
  exact hpending

/-! ## Numbers -/

theorem Call.map_ident_uses (start : Nat) (call : Call) :
    (call.uses start).map Use.ident = call.arguments ++ [call.target] := by
  rw [uses, List.map_append, List.map_map]
  exact congrArg (· ++ [call.target]) (List.zipIdx_map_fst start call.arguments)

/-- The names in the code of a statement are those of its calls, the target behind the arguments. -/
theorem Statement.map_ident_uses (start : Nat) (s : Statement) :
    (s.uses start).map Use.ident =
      s.calls.flatMap fun call => call.arguments ++ [call.target] := by
  induction s using Statement.induction generalizing start with
  | call call =>
    rw [calls, List.flatMap_singleton, ← call.map_ident_uses start]
    rfl
  | nil opening closing => rfl
  | cons opening first following closing hfirst hfollowing =>
    have hcalls : (Statement.block (.mk opening (first :: following) closing)).calls =
        first.calls ++ (Statement.block (.mk opening following closing)).calls := rfl
    rw [hcalls, List.flatMap_append, ← hfirst start, ← hfollowing (start + first.size),
      ← List.map_append]
    rfl
  | repeatTimes position times body hbody => exact hbody (start + 1)
  | ifThen position condition body hbody =>
    rw [uses_ifThen]
    exact hbody _
  | ifElse position condition body otherwise hbody hother =>
    have hcalls : (Statement.ifElse position condition body otherwise).calls =
        (Statement.block body).calls ++ otherwise.calls := rfl
    rw [uses_ifElse, hcalls, List.flatMap_append, List.map_append, hbody, hother]
  | whileLoop position condition body hbody =>
    rw [uses_whileLoop]
    exact hbody _

theorem Command.map_ident_links (start : Nat) (c : Command) :
    (c.links start).map Use.ident = c.freeIdents := by
  have huses := Statement.map_ident_uses start (.block c.body)
  rw [freeIdents, show c.body.calls = (Statement.block c.body).calls from rfl, ← huses,
    List.filter_map]
  rfl

/-- The names that need a number besides that of a command itself are its free ones. -/
theorem Command.numberedNames_eq (c : Command) :
    c.numberedNames = c.name :: c.freeIdents.map Ident.text := by
  rw [numberedNames, freeIdents, ← List.map_flatMap, List.filter_map]
  rfl

namespace Assembly

theorem map_ident_links (start : Nat) (commands : List Command) :
    (links start commands).map Use.ident = commands.flatMap Command.freeIdents := by
  induction commands generalizing start with
  | nil => rfl
  | cons first following ih =>
    rw [links, List.map_append, first.map_ident_links, ih, List.flatMap_cons]

/-- A name that some commands have or refer to. -/
inductive Numbered (commands : List Command) : String → Prop
  | command {c : Command} (hc : c ∈ commands) : Numbered commands c.name
  | link {u : Use} (hu : u ∈ Program.links commands) : Numbered commands u.ident.text

theorem Numbered.mem_numbering {commands : List Command} {name : String}
    (h : Numbered commands name) : name ∈ numbering commands := by
  cases h with
  | command hc => exact name_mem_numbering hc
  | @link u hu =>
    have hident := List.mem_map_of_mem (f := Use.ident) hu
    rw [Program.links, map_ident_links] at hident
    obtain ⟨c, hc, hfree⟩ := List.mem_flatMap.1 hident
    refine List.mem_eraseDups.2 (List.mem_flatMap.2 ⟨c, hc, ?_⟩)
    rw [Command.numberedNames_eq]
    exact List.mem_cons_of_mem _ (List.mem_map_of_mem hfree)

/-! ## Places -/

theorem extent_append (before behind : List Command) :
    extent (before ++ behind) = extent before + extent behind := by
  induction before with
  | nil => exact (Nat.zero_add _).symm
  | cons first before ih => rw [List.cons_append, extent, extent, ih, Nat.add_assoc]

theorem length_place (names : List String) (start : Nat) (commands : List Command) :
    ((place names start commands).flatMap Placed.code).length = extent commands := by
  induction commands generalizing start with
  | nil => rfl
  | cons first following ih =>
    rw [place, List.flatMap_cons, List.length_append, ih, Command.length_code, ← Command.extent_eq]
    rfl

theorem length_lines (commands : List Command) : (lines commands).length = extent commands :=
  length_place _ _ _

theorem place_append (names : List String) (start : Nat) (before behind : List Command) :
    place names start (before ++ behind) =
      place names start before ++ place names (start + extent before) behind := by
  induction before generalizing start with
  | nil => rfl
  | cons first before ih =>
    rw [List.cons_append, place, place, ih, Command.length_code, ← Command.extent_eq,
      List.cons_append, Nat.add_assoc]
    rfl

/-- Every command starts before the addresses end. -/
theorem start_lt {before behind : List Command} {c : Command}
    (hsize : Program.entryPoint + extent (before ++ c :: behind) ≤ Program.maxSize) :
    Program.entryPoint + extent before < Program.maxSize := by
  have hextent : 0 < c.extent := by
    rw [Command.extent_eq]
    exact Nat.succ_pos _
  rw [extent_append, extent] at hsize
  omega

/-- Commands without a name are not found under it. -/
theorem find?_place_eq_none (names : List String) (start : Nat) {commands : List Command}
    {name : String} (h : ∀ c ∈ commands, c.name ≠ name) :
    (place names start commands).reverse.find? (fun q => q.name == name) = none := by
  refine List.find?_eq_none.2 fun q hq => ?_
  obtain ⟨c, hc, hqc⟩ := mem_place (List.mem_reverse.1 hq)
  rw [hqc, beq_iff_eq]
  exact h c hc

/-- What is found under a name is the last command that has it. -/
theorem find?_place_of_last (names : List String) (start : Nat) {before behind : List Command}
    {c : Command} (hbehind : ∀ other ∈ behind, other.name ≠ c.name) :
    ((place names start (before ++ c :: behind)).reverse.find? fun q => q.name == c.name).map
      Placed.start = some (start + extent before) := by
  rw [place_append, place, List.reverse_append, List.reverse_cons, List.append_assoc,
    List.find?_append, find?_place_eq_none _ _ hbehind]
  simp

/-- One of the commands that have a name is the last of them. -/
theorem exists_last {commands : List Command} {name : String}
    (h : ∃ c ∈ commands, c.name = name) :
    ∃ before c behind, commands = before ++ c :: behind ∧ c.name = name ∧
      ∀ other ∈ behind, other.name ≠ name := by
  induction commands with
  | nil =>
    obtain ⟨c, hc, -⟩ := h
    cases hc
  | cons first following ih =>
    by_cases hfollowing : ∃ c ∈ following, c.name = name
    · obtain ⟨before, c, behind, rfl, hname, hbehind⟩ := ih hfollowing
      exact ⟨first :: before, c, behind, rfl, hname, hbehind⟩
    · obtain ⟨c, hc, hname⟩ := h
      rcases List.mem_cons.1 hc with rfl | hc
      · exact ⟨[], c, following, rfl, hname, fun d hd heq => hfollowing ⟨d, hd, heq⟩⟩
      · exact absurd ⟨c, hc, hname⟩ hfollowing

/-! ## Linking -/

variable {commands : List Command}

/-- The word of a use is a category and an operand. -/
theorem exists_category (u : Use) :
    ∃ category : UInt16, (∀ z, (u.op z).encode = category ||| z) ∧
      category &&& 0xf000 = category := by
  obtain ⟨address, isCall, ident⟩ := u
  cases isCall with
  | false => exact ⟨0x1000, fun _ => rfl, rfl⟩
  | true => exact ⟨0xa000, fun _ => rfl, rfl⟩

theorem length_numbering_lt_of_extent
    (hsize : Program.entryPoint + extent commands ≤ Program.maxSize) :
    (numbering commands).length < 0x1000 :=
  length_numbering_lt (by rwa [length_lines])

/-- What is found under the number of a name. -/
theorem lookup_table (hsize : Program.entryPoint + extent commands ≤ Program.maxSize)
    (name : String) :
    (table commands).lookup (number (numbering commands) name) =
      ((place (numbering commands) Program.entryPoint commands).reverse.find? fun q =>
        q.name == name).map Placed.start :=
  lookup_addresses (length_numbering_lt_of_extent hsize) (fun _ => name_mem_of_mem_place) name

/-- A name that no command has cannot be linked. -/
theorem link_of_stray (hsize : Program.entryPoint + extent commands ≤ Program.maxSize) {u : Use}
    (hstray : ∀ c ∈ commands, c.name ≠ u.ident.text) :
    link (table commands) (u.line (numbering commands)) =
      .error ⟨u.ident.position,
        .unknownBytecode (u.op (number (numbering commands) u.ident.text)).encode, none⟩ := by
  obtain ⟨category, hop, hcategory⟩ := exists_category u
  have hnumber := number_lt (length_numbering_lt_of_extent hsize) u.ident.text
  have hlookup := lookup_table hsize u.ident.text
  rw [find?_place_eq_none _ _ hstray] at hlookup
  simp only [link, Use.line, if_true, Instruction.operand_ofOp hop hcategory hnumber, hlookup]
  rfl

/-- A name is linked to the last command that has it. -/
theorem link_of_last {before behind : List Command} {c : Command} {u : Use}
    (hsize : Program.entryPoint + extent (before ++ c :: behind) ≤ Program.maxSize)
    (hname : c.name = u.ident.text) (hbehind : ∀ other ∈ behind, other.name ≠ u.ident.text) :
    link (table (before ++ c :: behind)) (u.line (numbering (before ++ c :: behind))) =
      .ok (.ofOp (u.op (operand (Program.entryPoint + extent before))) u.ident.position) := by
  obtain ⟨category, hop, hcategory⟩ := exists_category u
  have hnumber := number_lt (length_numbering_lt_of_extent hsize) u.ident.text
  have hlookup := lookup_table hsize u.ident.text
  rw [← hname, find?_place_of_last _ _ (by rwa [hname]), hname] at hlookup
  have haddress := start_lt hsize
  simp only [link, Use.line, if_true, Instruction.operand_ofOp hop hcategory hnumber, hlookup]
  rw [Instruction.retarget_ofOp hop hcategory hnumber (operand_lt haddress)]

/-- What the instruction of a use says. -/
theorem draft?_use (u : Use) {a : Nat} (ha : a < Program.maxSize) :
    (Instruction.ofOp (u.op (operand a)) u.ident.position).draft? =
      some ⟨u.directive a, u.ident.position⟩ := by
  obtain ⟨address, isCall, ident⟩ := u
  have hlt := operand_lt ha
  have hnat := toNat_operand ha
  cases isCall with
  | false =>
    rw [Instruction.draft?_ofOp (Op.fits_of_some rfl hlt)]
    exact congrArg (fun n => some (Draft.mk (.pass n) ident.position)) hnat
  | true =>
    rw [Instruction.draft?_ofOp (Op.fits_of_some rfl hlt)]
    exact congrArg (fun n => some (Draft.mk (.call n) ident.position)) hnat

/-- A line fails to be linked only if it is still to be linked. -/
theorem find?_pending {q : Line → Bool} (hq : ∀ l, q l = true → l.isPending = true) (start : Nat)
    (ls : List Line) :
    ls.find? q = ((pending start ls).find? fun l => q l.1).map Prod.fst := by
  have hagree : (fun l : Line × Nat => decide (l.1.isPending = true ∧ q l.1 = true)) =
      q ∘ Prod.fst := by
    funext l
    rw [Bool.eq_iff_iff, decide_eq_true_iff, Function.comp_apply]
    exact ⟨And.right, fun h => ⟨hq l.1 h, h⟩⟩
  rw [pending, List.find?_filter, hagree, ← List.find?_map, List.zipIdx_map_fst]

/-- Linking a use succeeds if and only if there is a command of its name. -/
theorem isOk_link_iff (hsize : Program.entryPoint + extent commands ≤ Program.maxSize) (u : Use) :
    (link (table commands) (u.line (numbering commands))).isOk = true ↔
      ∃ c ∈ commands, c.name = u.ident.text := by
  constructor
  · intro hok
    by_contra hnone
    rw [link_of_stray hsize fun c hc hname => hnone ⟨c, hc, hname⟩] at hok
    cases hok
  · intro h
    obtain ⟨before, c, behind, rfl, hname, hbehind⟩ := exists_last h
    rw [link_of_last hsize hname hbehind]
    rfl

/-- The first line that cannot be linked is the first use of a name that no command has. -/
theorem find?_lines_eq (commands : List Command) :
    (lines commands).find? (fun l => !(link (table commands) l).isOk) =
      ((Program.links commands).find? fun u =>
        !(link (table commands) (u.line (numbering commands))).isOk).map
          (Use.line (numbering commands)) := by
  have hpending : ∀ l : Line, (!(link (table commands) l).isOk) = true → l.isPending = true := by
    intro l hl
    by_contra hcomplete
    rw [link, if_neg hcomplete] at hl
    cases hl
  rw [find?_pending hpending Program.entryPoint, pending_lines, List.find?_map, Option.map_map]
  rfl

end Assembly

namespace Program

/-- Why some commands are not put into machine code: their code is too long, or a name in it, the
first one of this kind, is none of a command. -/
inductive Refuses (commands : List Command) (d : Diagnostic) : Prop
  | tooLong (hsize : maxSize < entryPoint + extent commands)
      (hd : d = ⟨(commands.head?.map fun c => c.ident.position).getD 0, .programTooLong, none⟩)
      (hmessage : d.message = "program too long")
  | stray {before behind : List Use} {u : Use}
      (hsize : entryPoint + extent commands ≤ maxSize)
      (hlinks : links commands = before ++ u :: behind)
      (hbefore : ∀ v ∈ before, ∃ c ∈ commands, c.name = v.ident.text)
      (hu : ∀ c ∈ commands, c.name ≠ u.ident.text)
      (hd : d = ⟨u.ident.position,
        .unknownBytecode (u.op (number (numbering commands) u.ident.text)).encode, none⟩)
      (hmessage : d.message = "unknown bytecode " ++ Text.hexPadded 4
        (u.op (number (numbering commands) u.ident.text)).encode.toNat)

/-- The instruction of a use calls or passes on the last command of the name, by the address where
that command starts. -/
def LinksTo (p : Program) (commands : List Command) (u : Use) : Prop :=
  ∃ before c behind, commands = before ++ c :: behind ∧ c.name = u.ident.text ∧
    (∀ other ∈ behind, other.name ≠ u.ident.text) ∧
    (p.get? u.address).bind Instruction.draft? =
      some ⟨u.directive (entryPoint + extent before), u.ident.position⟩

/-- What putting some commands into machine code comes to. -/
structure Resolution (commands : List Command) : Prop where
  /-- The references are all the free names of the commands. -/
  idents : (links commands).map Use.ident = commands.flatMap Command.freeIdents
  ordered : (links commands).Pairwise fun u v => u.address < v.address
  refused : ∀ d, ofCommands commands = .error d ↔ Refuses commands d
  accepted : (∃ p, ofCommands commands = .ok p) ↔
    entryPoint + extent commands ≤ maxSize ∧
      ∀ u ∈ links commands, ∃ c ∈ commands, c.name = u.ident.text
  linked : ∀ p, ofCommands commands = .ok p → ∀ u ∈ links commands, p.LinksTo commands u
  /-- Names can be told apart by what an operand holds of their numbers. -/
  numbers : ∀ p, ofCommands commands = .ok p → ∀ a b, Numbered commands a →
    Numbered commands b → number (numbering commands) a &&& 0x0fff =
      number (numbering commands) b &&& 0x0fff → a = b

variable {commands : List Command}

/-- Commands that are short enough fail at the first line that cannot be linked. -/
theorem ofCommands_eq_error_iff_find? (hsize : entryPoint + extent commands ≤ maxSize)
    {d : Diagnostic} :
    ofCommands commands = .error d ↔
      ∃ u, (links commands).find? (fun u =>
          !(link (table commands) (u.line (numbering commands))).isOk) = some u ∧
        link (table commands) (u.line (numbering commands)) = .error d := by
  rw [ofCommands_eq, length_lines, if_neg (Nat.not_lt.2 hsize), bind_pure_eq_error,
    mapM_eq_error_iff, find?_lines_eq]
  constructor
  · rintro ⟨l, hl, hlink⟩
    obtain ⟨u, hfind, rfl⟩ := Option.map_eq_some_iff.1 hl
    exact ⟨u, hfind, hlink⟩
  · rintro ⟨u, hfind, hlink⟩
    exact ⟨_, Option.map_eq_some_iff.2 ⟨u, hfind, rfl⟩, hlink⟩

/-- **Why commands are not put into machine code.** -/
theorem ofCommands_eq_error_iff {d : Diagnostic} :
    ofCommands commands = .error d ↔ Refuses commands d := by
  by_cases hlong : maxSize < entryPoint + extent commands
  · rw [ofCommands_eq, length_lines, if_pos hlong]
    constructor
    · rintro ⟨⟩
      exact .tooLong hlong rfl rfl
    · rintro (⟨-, rfl, -⟩ | ⟨hsize, -⟩)
      · rfl
      · exact absurd hlong (Nat.not_lt.2 hsize)
  have hsize := Nat.not_lt.1 hlong
  rw [ofCommands_eq_error_iff_find? hsize]
  constructor
  · rintro ⟨u, hfind, hlink⟩
    obtain ⟨hu, before, behind, hlinks, hbefore⟩ := List.find?_eq_some_iff_append.1 hfind
    have hstray : ∀ c ∈ commands, c.name ≠ u.ident.text := fun c hc hname => by
      rw [(isOk_link_iff hsize u).2 ⟨c, hc, hname⟩] at hu
      cases hu
    rw [link_of_stray hsize hstray] at hlink
    cases hlink
    refine .stray hsize hlinks (fun v hv => ?_) hstray rfl rfl
    have hok := hbefore v hv
    rw [Bool.not_not] at hok
    exact (isOk_link_iff hsize v).1 hok
  · rintro (⟨hlong', -, -⟩ | @⟨before, behind, u, -, hlinks, hbefore, hstray, rfl, -⟩)
    · exact absurd hlong' hlong
    · have hlink := link_of_stray hsize hstray
      refine ⟨u, List.find?_eq_some_iff_append.2 ⟨by rw [hlink]; rfl, before, behind, hlinks, ?_⟩,
        hlink⟩
      intro v hv
      rw [(isOk_link_iff hsize v).2 (hbefore v hv)]
      rfl

theorem extent_le_of_ofCommands {p : Program} (h : ofCommands commands = .ok p) :
    entryPoint + extent commands ≤ maxSize := by
  rw [← length_lines]
  exact (Assembles.of_ofCommands h).1

/-- The instruction of a use in a program is the one that its line was linked to. -/
theorem get?_of_mem_links {p : Program} (h : ofCommands commands = .ok p) {u : Use}
    (hu : u ∈ links commands) :
    ∃ i, link (table commands) (u.line (numbering commands)) = .ok i ∧
      p.get? u.address = some i := by
  obtain ⟨-, code, hcode, rfl⟩ := Assembles.of_ofCommands h
  have hpending : (u.line (numbering commands), u.address) ∈
      pending entryPoint (lines commands) := by
    rw [pending_lines]
    exact List.mem_map_of_mem hu
  obtain ⟨hle, hget⟩ :=
    List.mk_mem_zipIdx_iff_le_and_getElem?_sub.1 (List.mem_filter.1 hpending).1
  obtain ⟨i, hlink, hi⟩ := (getElem?_of_mapM_eq_ok hcode).2 _ _ hget
  refine ⟨i, hlink, ?_⟩
  rw [← hi, ← Assembles.get?_ofCode, Nat.add_sub_cancel' hle]

/-- In a program every use leads to the last command of its name. -/
theorem linksTo_of_mem_links {p : Program} (h : ofCommands commands = .ok p) {u : Use}
    (hu : u ∈ links commands) : p.LinksTo commands u := by
  have hsize := extent_le_of_ofCommands h
  obtain ⟨i, hlink, hget⟩ := get?_of_mem_links h hu
  have hok : (link (table commands) (u.line (numbering commands))).isOk = true := by
    rw [hlink]
    rfl
  obtain ⟨before, c, behind, rfl, hname, hbehind⟩ := exists_last ((isOk_link_iff hsize u).1 hok)
  refine ⟨before, c, behind, rfl, hname, hbehind, ?_⟩
  rw [link_of_last hsize hname hbehind] at hlink
  cases hlink
  rw [hget, Option.bind_some, draft?_use u (start_lt hsize)]

/-- Commands make a program if they are short enough and there is one for every free name. -/
theorem exists_ofCommands_iff :
    (∃ p, ofCommands commands = .ok p) ↔
      entryPoint + extent commands ≤ maxSize ∧
        ∀ u ∈ links commands, ∃ c ∈ commands, c.name = u.ident.text := by
  constructor
  · rintro ⟨p, hp⟩
    refine ⟨extent_le_of_ofCommands hp, fun u hu => ?_⟩
    obtain ⟨before, c, behind, rfl, hname, -⟩ := linksTo_of_mem_links hp hu
    exact ⟨c, List.mem_append_right _ List.mem_cons_self, hname⟩
  · rintro ⟨hsize, hlinks⟩
    cases hresult : ofCommands commands with
    | ok p => exact ⟨p, rfl⟩
    | error d =>
      rcases ofCommands_eq_error_iff.1 hresult with
        ⟨hlong, -, -⟩ | @⟨before, behind, u, -, hsplit, -, hstray, -, -⟩
      · exact absurd hlong (Nat.not_lt.2 hsize)
      · have hu : u ∈ links commands := by
          rw [hsplit]
          exact List.mem_append_right _ List.mem_cons_self
        obtain ⟨c, hc, hname⟩ := hlinks u hu
        exact absurd hname (hstray c hc)

/-- Names keep apart in the operands of a program. -/
theorem name_eq_of_number_eq {p : Program} (h : ofCommands commands = .ok p) {a b : String}
    (hb : Numbered commands b) (heq : number (numbering commands) a &&& 0x0fff =
      number (numbering commands) b &&& 0x0fff) : a = b := by
  have hlength := length_numbering_lt_of_extent (extent_le_of_ofCommands h)
  rw [and_lowBits (number_lt hlength a), and_lowBits (number_lt hlength b)] at heq
  exact (number_inj hlength hb.mem_numbering).1 heq

end Program

/-- **What can come of a list of commands.**  They are refused because they are too long or because
of the first name that stands for nothing, and otherwise every name leads to the last command that
has it. -/
theorem ofCommands_resolution (commands : List Command) : Program.Resolution commands where
  idents := map_ident_links _ commands
  ordered := pairwise_address_links commands
  refused _ := Program.ofCommands_eq_error_iff
  accepted := Program.exists_ofCommands_iff
  linked _ hp _ hu := Program.linksTo_of_mem_links hp hu
  numbers _ hp _ _ _ hb heq := Program.name_eq_of_number_eq hp hb heq

/-- A call, and two commands that have the name it calls. -/
def rivals : List Command :=
  [⟨0, ⟨"main", 5⟩, [], .mk 11 [.call ⟨⟨"step", 13⟩, []⟩] 21⟩,
    ⟨23, ⟨"step", 28⟩, [], .mk 34 [] 35⟩,
    ⟨37, ⟨"step", 42⟩, [], .mk 48 [.call ⟨⟨"turnLeft", 50⟩, []⟩] 62⟩]

theorem ofCommands_resolution_rivals :
    (∃ p, Program.ofCommands rivals = .ok p ∧
        (p.get? 256).bind Instruction.draft? = some ⟨.call 259, 13⟩) ∧
      Program.ofCommands (rivals.take 1) = .error ⟨13, .unknownBytecode 0xa001, none⟩ := by
  constructor
  · obtain ⟨p, hp⟩ := (ofCommands_resolution rivals).accepted.2 ⟨by decide, by decide⟩
    refine ⟨p, hp, ?_⟩
    have hcall : (⟨256, true, ⟨"step", 13⟩⟩ : Use) ∈ Program.links rivals := by decide
    obtain ⟨before, c, behind, hrivals, hname, hbehind, hdraft⟩ :=
      (ofCommands_resolution rivals).linked p hp _ hcall
    match before with
    | [] =>
      cases hrivals
      exact absurd hname (by decide)
    | [_] =>
      cases hrivals
      exact absurd rfl (hbehind _ List.mem_cons_self)
    | [_, _] =>
      cases hrivals
      exact hdraft
    | _ :: _ :: _ :: before => simp [rivals] at hrivals
  · have hlinks : Program.links (rivals.take 1) = [] ++ ⟨256, true, ⟨"step", 13⟩⟩ :: [] := by
      decide
    exact ((ofCommands_resolution _).refused _).2
      (.stray (by decide) hlinks nofun (by decide) rfl rfl)

end KarelRobot
