import KarelRobot.Proofs.Placement

/-!
# The code as it is meant

What a program should consist of can be said without any words of sixteen bits: every operation with
the number that belongs to it, however large, and every command with the address where it starts,
which is where the commands before it end.  This is the outline of a program.  A program that
`compile` returns, read back instruction by instruction, is its outline, so nothing has been lost on
the way into the words.

* `Directive` — an operation whose operand is a number of any size.
* `Draft` — a directive and the position of the source it comes from.
* `Statement.outline`, `Command.outline`, `Program.outline` — the drafts of a whole program.
* `Instruction.draft?` — what an instruction says.
* `Script.Compiles.draft?_code` — the code of a program says what its outline says.
* `Program.Realises` — a program is an outline, and it is short enough.
* `operands_exact` — what `compile` returns, and when a program is too long.
-/

set_option autoImplicit false
namespace KarelRobot

open Assembly

/-! ## Directives -/

/-- An operation whose operand is a number of any size. -/
inductive Directive where
  | ret
  | action (which : Action)
  | query (which : Predicate)
  | literal (value : Bool)
  | not
  | and
  | or
  | pass (command : Nat)
  | forward (index : Nat)
  | callParameter (index : Nat)
  | push (times : Nat)
  | loop (target : Nat)
  | call (target : Nat)
  | jump (target : Nat)
  | jumpUnless (target : Nat)
  | jumpIf (target : Nat)
deriving Repr, DecidableEq

/-- An operation with its operand as a number. -/
def Op.directive : Op → Directive
  | ret => .ret
  | action which => .action which
  | query which => .query which
  | literal value => .literal value
  | not => .not
  | and => .and
  | or => .or
  | pass command => .pass command.toNat
  | forward index => .forward index.toNat
  | callParameter index => .callParameter index.toNat
  | push times => .push times.toNat
  | loop target => .loop target.toNat
  | call target => .call target.toNat
  | jump target => .jump target.toNat
  | jumpUnless target => .jumpUnless target.toNat
  | jumpIf target => .jumpIf target.toNat

/-- The branch behind a condition from which this many negations have been left out. -/
def Directive.branch (negations target : Nat) : Directive :=
  if negations % 2 = 0 then .jumpUnless target else .jumpIf target

/-- A directive that comes from a position of the source. -/
structure Draft where
  directive : Directive
  position : Nat
deriving Repr, DecidableEq

/-- What an instruction says, if it means something and comes from a source. -/
def Instruction.draft? (i : Instruction) : Option Draft :=
  match i.op?, i.position with
  | some op, some position => some ⟨op.directive, position⟩
  | _, _ => none

/-! ## Names -/

/-- What a name refers to, a command of the script by the address where it starts. -/
inductive Referent where
  /-- A parameter, counted back from the last one, which is number one. -/
  | parameter (index : Nat)
  | action (which : Action)
  | command (address : Nat)
deriving Repr, DecidableEq

/-- The directive that calls what a name refers to. -/
def Referent.called : Referent → Directive
  | parameter index => .callParameter index
  | action which => .action which
  | command address => .call address

/-- The directive that passes on what a name refers to. -/
def Referent.passed : Referent → Directive
  | parameter index => .forward index
  | action which => .pass which.opcode.toNat
  | command address => .pass address

/-- What a name refers to inside a command, where commands start at the given addresses. -/
def Command.referent (address : String → Nat) (c : Command) (name : String) : Referent :=
  match c.parameters.findIdx? fun parameter => parameter.text == name with
  | some index => .parameter (c.parameters.length - index)
  | none =>
    match Action.ofName? name with
    | some which => .action which
    | none => .command (address name)

/-! ## Outlines -/

/-- The outline of a condition. -/
def Condition.outline : Condition → List Draft
  | literal value position => [⟨.literal value, position⟩]
  | predicate which position => [⟨.query which, position⟩]
  | not position operand => operand.outline ++ [⟨.not, position⟩]
  | and position left right => left.outline ++ right.outline ++ [⟨.and, position⟩]
  | or position left right => left.outline ++ right.outline ++ [⟨.or, position⟩]

/-- The outline of a call. -/
def Call.outline (refer : String → Referent) (c : Call) : List Draft :=
  c.arguments.map (fun argument => ⟨(refer argument.text).passed, argument.position⟩) ++
    [⟨(refer c.target.text).called, c.target.position⟩]

mutual

/-- The outline of a statement that starts at an address. -/
def Statement.outline (refer : String → Referent) (start : Nat) : Statement → List Draft
  | .call c => c.outline refer
  | .block body => body.outline refer start
  | .repeatTimes position times body =>
    ⟨.push times, position⟩ ::
      (body.outline refer (start + 1) ++ [⟨.loop (start + 1), body.closing⟩])
  | .ifThen position condition body =>
    let bodyStart := start + condition.core.outline.length + 1
    let inside := body.outline refer bodyStart
    condition.core.outline ++
      ⟨.branch condition.negations (bodyStart + inside.length), position⟩ :: inside
  | .ifElse position condition body otherwise =>
    let bodyStart := start + condition.core.outline.length + 1
    let inside := body.outline refer bodyStart
    let otherStart := bodyStart + inside.length + 1
    let other := otherwise.outline refer otherStart
    condition.core.outline ++ ⟨.branch condition.negations otherStart, position⟩ ::
      (inside ++ ⟨.jump (otherStart + other.length), body.closing⟩ :: other)
  | .whileLoop position condition body =>
    let bodyStart := start + condition.core.outline.length + 1
    let inside := body.outline refer bodyStart
    condition.core.outline ++
      ⟨.branch condition.negations (bodyStart + inside.length + 1), position⟩ ::
        (inside ++ [⟨.jump start, body.closing⟩])

/-- The outline of a block that starts at an address. -/
def Block.outline (refer : String → Referent) (start : Nat) : Block → List Draft
  | .mk _ statements _ => Statement.outlineAll refer start statements

/-- The outline of statements behind one another that start at an address. -/
def Statement.outlineAll (refer : String → Referent) (start : Nat) : List Statement → List Draft
  | [] => []
  | statement :: following =>
    let first := statement.outline refer start
    first ++ Statement.outlineAll refer (start + first.length) following

end

/-- The outline of a command that starts at an address. -/
def Command.outline (address : String → Nat) (start : Nat) (c : Command) : List Draft :=
  c.body.outline (c.referent address) start ++ [⟨.ret, c.body.closing⟩]

/-- How many instructions a command takes, wherever it starts. -/
def Command.extent (c : Command) : Nat :=
  (c.outline (fun _ => 0) 0).length

namespace Outline

/-- Where the command of a name starts among commands that lie behind one another. -/
def address (start : Nat) : List Command → String → Nat
  | [], _ => start
  | c :: following, name =>
    if c.name = name then start else address (start + c.extent) following name

/-- The outline of commands that lie behind one another. -/
def ofCommands (address : String → Nat) (start : Nat) : List Command → List Draft
  | [] => []
  | c :: following => c.outline address start ++ ofCommands address (start + c.extent) following

end Outline

/-- The outline of the program of some commands. -/
def Program.outline (commands : List Command) : List Draft :=
  Outline.ofCommands (Outline.address entryPoint commands) entryPoint commands

/-! ## How long outlines are -/

theorem Condition.length_outline (condition : Condition) :
    condition.outline.length = condition.code.length := by
  induction condition with
  | literal | predicate => rfl
  | not position operand ih =>
    simp only [outline, code, List.length_append, List.length_singleton, ih]
  | and position left right ihleft ihright | or position left right ihleft ihright =>
    simp only [outline, code, List.length_append, List.length_singleton, ihleft, ihright]

namespace Statement

variable (refer : String → Referent) (start : Nat)

/-- The outline of a statement is as long as its code. -/
theorem length_outline (s : Statement) : (s.outline refer start).length = s.size := by
  induction s using Statement.induction generalizing start with
  | call c => simp [outline, Call.outline, size_call]
  | nil opening closing => rfl
  | cons opening first following closing hfirst hfollowing =>
    simp only [outline, Block.outline, outlineAll, List.length_append, size_cons, hfirst] at *
    rw [hfollowing]
  | repeatTimes position times body hbody =>
    simp only [outline, List.length_cons, List.length_append, List.length_nil,
      size_repeatTimes] at *
    rw [hbody]
  | ifThen position condition body hbody =>
    simp only [outline, List.length_cons, List.length_append, size_ifThen,
      Condition.length_outline] at *
    rw [hbody]
    omega
  | ifElse position condition body otherwise hbody hother =>
    simp only [outline, List.length_cons, List.length_append, size_ifElse,
      Condition.length_outline] at *
    rw [hbody, hother]
    omega
  | whileLoop position condition body hbody =>
    simp only [outline, List.length_cons, List.length_append, List.length_nil, size_whileLoop,
      Condition.length_outline] at *
    rw [hbody]
    omega

/-! ### The outline of a statement, construct by construct -/

theorem outline_cons (opening : Nat) (first : Statement) (following : List Statement)
    (closing : Nat) :
    (Statement.block (.mk opening (first :: following) closing)).outline refer start =
      first.outline refer start ++
        (Statement.block (.mk opening following closing)).outline refer (start + first.size) := by
  rw [← length_outline refer start first]
  rfl

theorem outline_repeatTimes (position times : Nat) (body : Block) :
    (Statement.repeatTimes position times body).outline refer start =
      ⟨.push times, position⟩ ::
        ((Statement.block body).outline refer (start + 1) ++
          [⟨.loop (start + 1), body.closing⟩]) := rfl

theorem outline_ifThen (position : Nat) (condition : Condition) (body : Block) :
    (Statement.ifThen position condition body).outline refer start =
      let bodyStart := start + condition.core.code.length + 1
      condition.core.outline ++
        ⟨.branch condition.negations (bodyStart + (Statement.block body).size), position⟩ ::
          (Statement.block body).outline refer bodyStart := by
  dsimp only
  rw [← Condition.length_outline, ← length_outline refer _ (.block body)]
  rfl

theorem outline_ifElse (position : Nat) (condition : Condition) (body : Block)
    (otherwise : Statement) :
    (Statement.ifElse position condition body otherwise).outline refer start =
      let bodyStart := start + condition.core.code.length + 1
      let otherStart := bodyStart + (Statement.block body).size + 1
      condition.core.outline ++ ⟨.branch condition.negations otherStart, position⟩ ::
        ((Statement.block body).outline refer bodyStart ++
          ⟨.jump (otherStart + otherwise.size), body.closing⟩ ::
            otherwise.outline refer otherStart) := by
  dsimp only
  rw [← Condition.length_outline, ← length_outline refer _ (.block body),
    ← length_outline refer _ otherwise]
  rfl

theorem outline_whileLoop (position : Nat) (condition : Condition) (body : Block) :
    (Statement.whileLoop position condition body).outline refer start =
      let bodyStart := start + condition.core.code.length + 1
      condition.core.outline ++
        ⟨.branch condition.negations (bodyStart + (Statement.block body).size + 1), position⟩ ::
          ((Statement.block body).outline refer bodyStart ++ [⟨.jump start, body.closing⟩]) := by
  dsimp only
  rw [← Condition.length_outline, ← length_outline refer _ (.block body)]
  rfl

end Statement

theorem Command.outline_eq (address : String → Nat) (start : Nat) (c : Command) :
    c.outline address start =
      (Statement.block c.body).outline (c.referent address) start ++
        [⟨.ret, c.body.closing⟩] := rfl

theorem Command.length_outline (address : String → Nat) (start : Nat) (c : Command) :
    (c.outline address start).length = (Statement.block c.body).size + 1 := by
  rw [Command.outline_eq, List.length_append, Statement.length_outline, List.length_singleton]

theorem Command.extent_eq (c : Command) : c.extent = (Statement.block c.body).size + 1 :=
  c.length_outline _ _

/-! ## Addresses -/

/-- The first of some commands with distinct names only moves the others. -/
theorem Outline.address_cons_of_mem {start : Nat} {first c : Command} {following : List Command}
    (hdistinct : ((first :: following).map Command.name).Nodup) (hc : c ∈ following) :
    address start (first :: following) c.name =
      address (start + first.extent) following c.name := by
  rw [List.map_cons, List.nodup_cons] at hdistinct
  have hne : first.name ≠ c.name := fun hname => hdistinct.1 (hname ▸ List.mem_map_of_mem hc)
  rw [address, if_neg hne]

/-- Commands with distinct names lie where the outline says. -/
theorem Outline.mem_place (names : List String) (start : Nat) {commands : List Command}
    (hdistinct : (commands.map Command.name).Nodup) {c : Command} (hc : c ∈ commands) :
    (⟨c.name, address start commands c.name, c.code names (address start commands c.name)⟩ :
      Placed) ∈ place names start commands := by
  induction commands generalizing start with
  | nil => cases hc
  | cons first following ih =>
    rw [place]
    rcases List.mem_cons.1 hc with rfl | hc
    · rw [address, if_pos rfl]
      exact List.mem_cons_self
    · rw [address_cons_of_mem hdistinct hc, Command.extent_eq, Command.length_code]
      exact List.mem_cons_of_mem _ (ih _ (List.nodup_cons.1 hdistinct).2 hc)

/-- **The addresses of the outline are those of the program.** -/
theorem Program.Assembles.outline_address {p : Program} {commands : List Command}
    (h : p.Assembles commands) {c : Command} (hc : c ∈ commands) :
    Outline.address entryPoint commands c.name = address commands c.name := by
  have hnodup : ((place (numbering commands) entryPoint commands).map Placed.name).Nodup := by
    rw [map_name_place]
    exact h.distinct
  exact congrArg Placed.start (List.inj_on_of_nodup_map hnodup
    (Outline.mem_place (numbering commands) entryPoint h.distinct hc) (h.mem_place hc) rfl)

/-! ## From lines to drafts -/

/-- Once it is linked, the line says what the draft says. -/
def Assembly.Line.Says (commands : List Command) (l : Line) (d : Draft) : Prop :=
  ∀ i, link (table commands) l = .ok i → i.draft? = some d

theorem Instruction.draft?_ofOp {op : Op} (hfits : op.Fits) (position : Nat) :
    (ofOp op position).draft? = some ⟨op.directive, position⟩ := by
  rw [draft?, op?_ofOp hfits]
  rfl

theorem Assembly.says_line (commands : List Command) {op : Op} (hfits : op.Fits)
    (position : Nat) : (line op position).Says commands ⟨op.directive, position⟩ := by
  intro i hlink
  cases hlink
  exact Instruction.draft?_ofOp hfits position

/-- A line whose operand is an address or a counter.  `make` is one of the operations that take
one. -/
theorem Assembly.says_operand (commands : List Command) {make : UInt16 → Op}
    {directive : Nat → Directive} (hmake : ∀ x, (make x).operand? = some x)
    (hdirective : ∀ x, (make x).directive = directive x.toNat) {n : Nat}
    (hn : n < Program.maxSize) (position : Nat) :
    (line (make (operand n)) position).Says commands ⟨directive n, position⟩ := by
  have h := says_line commands (Op.fits_of_some (hmake _) (operand_lt hn)) position
  rwa [hdirective, toNat_operand hn] at h

/-- The branch behind a condition. -/
theorem Assembly.says_branch (commands : List Command) (negations : Nat) {target : Nat}
    (htarget : target < Program.maxSize) (position : Nat) :
    (line (Condition.branch negations (operand target)) position).Says commands
      ⟨.branch negations target, position⟩ := by
  unfold Condition.branch Directive.branch
  split
  · exact says_operand commands (fun _ => rfl) (fun _ => rfl) htarget position
  · exact says_operand commands (fun _ => rfl) (fun _ => rfl) htarget position

theorem Condition.says_code (commands : List Command) (condition : Condition) :
    List.Forall₂ (Line.Says commands) condition.code condition.outline := by
  induction condition with
  | literal value position =>
    exact .cons (says_line commands (Op.fits_of_none rfl) position) .nil
  | predicate which position =>
    exact .cons (says_line commands (Op.fits_of_none rfl) position) .nil
  | not position operand ih =>
    exact List.rel_append ih (.cons (says_line commands (Op.fits_of_none rfl) position) .nil)
  | and position left right ihleft ihright | or position left right ihleft ihright =>
    exact List.rel_append (List.rel_append ihleft ihright)
      (.cons (says_line commands (Op.fits_of_none rfl) position) .nil)

section Statements

variable {script : Script} {main c : Command} {p : Program}

/-- The referents of a program: names with the addresses where the outline puts the commands. -/
def Script.refer (script : Script) (main c : Command) : String → Referent :=
  c.referent (Outline.address Program.entryPoint (script.reachable main.name))

/-- **What a name in the code has become is what it refers to.** -/
theorem Script.Located.directive_eq (h : script.Compiles main p)
    (hc : c ∈ script.reachable main.name) {name : String} {n : Nat} {reference : Reference}
    (hlocated : script.Located (script.reachable main.name) c name n reference) :
    (reference.callOp.Fits ∧ reference.callOp.directive = (script.refer main c name).called) ∧
      reference.argumentOp.Fits ∧
        reference.argumentOp.directive = (script.refer main c name).passed := by
  unfold Script.refer Command.referent
  cases hlocated with
  | @parameter index hindex hlt =>
    have hbound : c.parameters.length - index < Program.maxSize :=
      Nat.lt_of_le_of_lt (Nat.sub_le _ _) (h.length_parameters_lt hc)
    have hoperand := toNat_operand hbound
    rw [operand] at hoperand
    rw [hindex]
    exact ⟨⟨Op.fits_of_some rfl (operand_lt hbound), congrArg Directive.callParameter hoperand⟩,
      Op.fits_of_some rfl (operand_lt hbound), congrArg Directive.forward hoperand⟩
  | @builtin which hindex hwhich =>
    have hlt : which.opcode < 0x1000 := by cases which <;> decide
    rw [hindex, hwhich]
    exact ⟨⟨Op.fits_of_none rfl, rfl⟩, Op.fits_of_some rfl hlt, rfl⟩
  | @direct d hindex hwhich hd hmem hmentions =>
    obtain rfl := name_of_find? hd
    have hlt := h.assembles.operand_address_lt hmem
    have hoperand : (operand (address (script.reachable main.name) d.name)).toNat =
        Outline.address Program.entryPoint (script.reachable main.name) d.name := by
      rw [h.assembles.outline_address hmem]
      exact toNat_operand
        (Nat.lt_of_le_of_lt (Nat.le_add_right _ _) (h.assembles.address_bounds hmem).2)
    rw [hindex, hwhich]
    exact ⟨⟨Op.fits_of_some rfl hlt, congrArg Directive.call hoperand⟩,
      Op.fits_of_some rfl hlt, congrArg Directive.pass hoperand⟩

namespace Script.Compiles

/-- The lines of a call. -/
theorem says_call (h : script.Compiles main p) (hc : c ∈ script.reachable main.name) {call : Call}
    (hcall : call ∈ c.body.calls) :
    List.Forall₂ (Line.Says (script.reachable main.name))
      ((contextOf (script.reachable main.name) c).call call)
      (call.outline (script.refer main c)) := by
  have hargument (argument : Ident) (hmem : argument ∈ call.arguments) :
      ((contextOf (script.reachable main.name) c).argument argument).Says
        (script.reachable main.name)
        ⟨(script.refer main c argument.text).passed, argument.position⟩ := by
    intro i hlink
    have huse : ∀ z, (Reference.direct z).argumentOp = .pass z := fun _ => rfl
    obtain ⟨rfl, -⟩ := h.assembles.link_reference huse (fun _ => rfl) rfl c hlink
    obtain ⟨-, hfits, hdirective⟩ := (h.located_argument hc hcall hmem).directive_eq h hc
    rw [Instruction.draft?_ofOp hfits, hdirective]
  refine List.rel_append (List.forall₂_map_left_iff.2 (List.forall₂_map_right_iff.2
    (List.forall₂_same.2 hargument))) (.cons ?_ .nil)
  intro i hlink
  have huse : ∀ z, (Reference.direct z).callOp = .call z := fun _ => rfl
  obtain ⟨rfl, -⟩ := h.assembles.link_reference huse (fun _ => rfl) rfl c hlink
  obtain ⟨⟨hfits, hdirective⟩, -⟩ := (h.located_target hc hcall).directive_eq h hc
  rw [Instruction.draft?_ofOp hfits, hdirective]

/-- **The lines of a statement say what its outline says.**  The addresses in them are addresses of
the program because something stands behind the statement. -/
theorem says_statement (h : script.Compiles main p) (hc : c ∈ script.reachable main.name)
    {s : Statement} {start : Nat}
    (hcontains : p.Contains (script.reachable main.name) c s start) :
    List.Forall₂ (Line.Says (script.reachable main.name))
      (s.code (contextOf (script.reachable main.name) c) start)
      (s.outline (script.refer main c) start) := by
  induction s using Statement.induction generalizing start with
  | call call => exact h.says_call hc hcontains.call_mem
  | nil opening closing => exact .nil
  | cons opening first following closing hfirst hfollowing =>
    rw [Statement.code_cons, Statement.outline_cons, Statement.length_code]
    exact List.rel_append (hfirst hcontains.first) (hfollowing hcontains.following)
  | repeatTimes position times body hbody =>
    obtain ⟨-, hinside, -, -, hhigh⟩ := hcontains.repeatTimes
    have hback : start + 1 < Program.maxSize :=
      Nat.lt_of_le_of_lt (Nat.le_add_right _ _) hinside.bound
    rw [Statement.code_repeatTimes, Statement.outline_repeatTimes]
    exact .cons (says_operand _ (fun _ => rfl) (fun _ => rfl) (Nat.lt_succ_of_le hhigh) position)
      (List.rel_append (hbody hinside)
        (.cons (says_operand _ (fun _ => rfl) (fun _ => rfl) hback body.closing) .nil))
  | ifThen position condition body hbody =>
    obtain ⟨htest, hinside⟩ := hcontains.ifThen
    simp only [Statement.code_ifThen, Statement.outline_ifThen, Condition.test_eq,
      Statement.length_code]
    exact List.rel_append (condition.core.says_code _)
      (.cons (says_branch _ condition.negations htest.bound position) (hbody hinside))
  | ifElse position condition body otherwise hbody hother =>
    obtain ⟨htest, hinside, -, hotherwise⟩ := hcontains.ifElse
    simp only [Statement.code_ifElse, Statement.outline_ifElse, Condition.test_eq,
      Statement.length_code]
    refine List.rel_append (condition.core.says_code _)
      (.cons (says_branch _ condition.negations htest.bound position)
        (List.rel_append (hbody hinside) (.cons ?_ (hother hotherwise))))
    exact says_operand _ (fun _ => rfl) (fun _ => rfl) hotherwise.bound body.closing
  | whileLoop position condition body hbody =>
    obtain ⟨htest, hinside, -⟩ := hcontains.whileLoop
    have hback : start < Program.maxSize :=
      Nat.lt_of_le_of_lt (Nat.le_add_right _ _) hcontains.bound
    simp only [Statement.code_whileLoop, Statement.outline_whileLoop, Condition.test_eq,
      Statement.length_code]
    exact List.rel_append (condition.core.says_code _)
      (.cons (says_branch _ condition.negations htest.bound position)
        (List.rel_append (hbody hinside)
          (.cons (says_operand _ (fun _ => rfl) (fun _ => rfl) hback body.closing) .nil)))

end Script.Compiles
end Statements

/-! ## Whole programs -/

/-- Commands behind one another: what holds of the lines and the outline of each of them holds of
all. -/
theorem Outline.forall₂_place {R : Line → Draft → Prop} {names : List String}
    {address : String → Nat} {start : Nat} {commands : List Command}
    (h : ∀ c ∈ commands, ∀ a,
      (⟨c.name, a, c.code names a⟩ : Placed) ∈ place names start commands →
        List.Forall₂ R (c.code names a) (c.outline address a)) :
    List.Forall₂ R ((place names start commands).flatMap Placed.code)
      (ofCommands address start commands) := by
  induction commands generalizing start with
  | nil => exact .nil
  | cons first following ih =>
    rw [place, List.flatMap_cons, ofCommands, Command.extent_eq, ← Command.length_code names start]
    refine List.rel_append (h first List.mem_cons_self start List.mem_cons_self)
      (ih fun c hc a ha => h c (List.mem_cons_of_mem _ hc) a ?_)
    exact List.mem_cons_of_mem _ ha

theorem map_draft?_of_mapM {commands : List Command} {ls : List Line} {drafts : List Draft}
    {code : List Instruction} (h : List.Forall₂ (Line.Says commands) ls drafts)
    (hcode : ls.mapM (link (table commands)) = .ok code) :
    code.map Instruction.draft? = drafts.map some := by
  induction h generalizing code with
  | nil =>
    rw [List.mapM_nil, pure_eq_ok] at hcode
    rw [← hcode]
    rfl
  | cons hsays _ ih =>
    rw [List.mapM_cons, bind_eq_ok] at hcode
    obtain ⟨i, hi, hcode⟩ := hcode
    rw [bind_eq_ok] at hcode
    obtain ⟨following, hfollowing, hcode⟩ := hcode
    rw [pure_eq_ok] at hcode
    rw [← hcode, List.map_cons, List.map_cons, hsays i hi, ih hfollowing]

namespace Script.Compiles

variable {script : Script} {main c : Command} {p : Program}

/-- The lines of a program say what its outline says. -/
theorem says_lines (h : script.Compiles main p) :
    List.Forall₂ (Line.Says (script.reachable main.name)) (lines (script.reachable main.name))
      (Program.outline (script.reachable main.name)) := by
  refine Outline.forall₂_place fun c hc a ha => ?_
  have hnodup := h.assembles.distinct
  rw [← map_name_place (numbering (script.reachable main.name)) Program.entryPoint] at hnodup
  have haddress := congrArg Placed.start
    (List.inj_on_of_nodup_map hnodup ha (h.assembles.mem_place hc) rfl)
  obtain rfl : a = address (script.reachable main.name) c.name := haddress
  rw [Command.code_eq, Command.outline_eq]
  exact List.rel_append (h.says_statement hc (h.contains_body hc))
    (.cons (says_line _ (Op.fits_of_none rfl) _) .nil)

/-- **The code of a program says what its outline says.** -/
theorem draft?_code (h : script.Compiles main p) :
    p.code.map Instruction.draft? = (Program.outline (script.reachable main.name)).map some := by
  obtain ⟨-, code, hcode, rfl⟩ := Program.Assembles.of_ofCommands h.assembled
  rw [Program.code_ofCode]
  exact map_draft?_of_mapM h.says_lines hcode

end Script.Compiles

/-- There is a draft for each line. -/
theorem Program.length_outline (commands : List Command) :
    (Program.outline commands).length = (lines commands).length := by
  have hlength (names : List String) (address : String → Nat) (start : Nat) :
      (Outline.ofCommands address start commands).length =
        ((place names start commands).flatMap Placed.code).length := by
    induction commands generalizing start with
    | nil => rfl
    | cons first following ih =>
      rw [place, List.flatMap_cons, Outline.ofCommands, List.length_append, List.length_append, ih,
        Command.length_outline, Command.length_code, Command.extent_eq]
  exact hlength _ _ _

/-- A program starts with a command, which takes at least one instruction. -/
theorem Program.outline_pos {commands : List Command} (h : commands ≠ []) :
    0 < (Program.outline commands).length := by
  obtain ⟨first, following, rfl⟩ := List.exists_cons_of_ne_nil h
  rw [Program.outline, Outline.ofCommands, List.length_append, Command.length_outline]
  omega

/-- Behind the reserved addresses the program is the outline of the commands, and it has no more
instructions than there are addresses. -/
structure Program.Realises (p : Program) (commands : List Command) : Prop where
  entryPoint_lt_size : Program.entryPoint < p.size
  size_le : p.size ≤ Program.maxSize
  instructions : p.instructions.toList = Program.reserved ++ p.code
  draft?_code : p.code.map Instruction.draft? = (Program.outline commands).map some
  /-- The numbers that stood for the commands until they had their place were exact, too. -/
  toNat_number : ∀ name,
    (number (numbering commands) name).toNat = (numbering commands).idxOf name ∧
      (numbering commands).idxOf name < Program.maxSize

theorem Program.Realises.size_eq {p : Program} {commands : List Command} (h : p.Realises commands) :
    p.size = Program.entryPoint + (Program.outline commands).length := by
  have hlength := congrArg List.length h.draft?_code
  rw [List.length_map, List.length_map] at hlength
  rw [Program.size, ← Array.length_toList, h.instructions, List.length_append,
    Program.length_reserved, hlength]

theorem Script.Compiles.realises {script : Script} {main : Command} {p : Program}
    (h : script.Compiles main p) : p.Realises (script.reachable main.name) := by
  have hnumbering := h.assembles.length_numbering_lt
  have hdrafts := h.draft?_code
  have hpos := Program.outline_pos (List.ne_nil_of_mem h.main_mem)
  have hlength := congrArg List.length hdrafts
  rw [List.length_map, List.length_map] at hlength
  obtain ⟨hbound, code, -, rfl⟩ := Program.Assembles.of_ofCommands h.assembled
  rw [← Program.length_outline] at hbound
  rw [Program.code_ofCode] at hlength
  refine ⟨?_, ?_, by rw [Program.code_ofCode]; rfl, hdrafts, fun name =>
    ⟨toNat_number hnumbering name, Nat.lt_of_le_of_lt List.idxOf_le_length hnumbering⟩⟩
  · rw [Program.size_ofCode]
    omega
  · rw [Program.size_ofCode]
    omega

/-- **No operand is truncated.**  A program that `compile` returns, read back instruction by
instruction, is the outline of the commands that it is made of.  A program whose outline does not
fit is rejected as too long. -/
theorem operands_exact (source : String) (entry : Option String) (level : Level) :
    (∀ p, compile source entry level = .ok p →
      ∃ script, Script.parse source = .ok script ∧
        p.Realises (script.reachable (entry.getD script.defaultEntry))) ∧
      ∀ script, Script.parse source = .ok script →
        Program.maxSize < Program.entryPoint +
          (Program.outline (script.reachable (entry.getD script.defaultEntry))).length →
        ∃ d : Diagnostic, d.message = "program too long" ∧
          Program.ofCommands (script.reachable (entry.getD script.defaultEntry)) = .error d ∧
          (script.review (entry.getD script.defaultEntry) level = [] →
            compile source entry level = .error [d]) := by
  constructor
  · intro p hp
    obtain ⟨script, main, hparse, hmain, hcompiles, -⟩ := compiles_of_compile hp
    exact ⟨script, hparse, by rw [← Script.name_of_find? hmain]; exact hcompiles.realises⟩
  · intro script hparse hlong
    rw [Program.length_outline] at hlong
    have hcommands := Program.ofCommands_eq (script.reachable (entry.getD script.defaultEntry))
    rw [if_pos hlong] at hcommands
    refine ⟨_, rfl, hcommands, fun hreview => ?_⟩
    rw [compile_of_parse hparse, Script.compile_of_review hreview, hcommands]
    rfl

theorem operands_exact_dance :
    ∃ p, compile dance none .recursion = .ok p ∧
      ∃ script, Script.parse dance = .ok script ∧
        p.Realises (script.reachable (none.getD script.defaultEntry)) := by
  obtain ⟨p, hp⟩ := exists_compile_dance
  exact ⟨p, hp, (operands_exact dance none .recursion).1 p hp⟩

end KarelRobot
