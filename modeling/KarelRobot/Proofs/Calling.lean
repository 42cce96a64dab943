import KarelRobot.Proofs.Evaluation
import KarelRobot.Proofs.Execution
import KarelRobot.Proofs.Placement

/-!
# Calling and returning

What the machine does around the body of a command: it pushes what the arguments denote, enters the
command, and when the command is left the stack is what it was before the call.

* `Denotes` — what a word that is passed on denotes.
* `Serves` — the stack holds what the parameters of the running command are bound to.
* `Script.Located.exists_meaning` — a name denotes what its place in the code refers to.
* `Serves.reaches_arguments` — pushing the arguments of a call.
* `Serves.enter`, `reaches_ret` — entering a command and leaving it.
-/

set_option autoImplicit false
namespace KarelRobot

open Assembly Machine

/-! ## Operations at an address -/

/-- What an operation does that is the same wherever it comes from. -/
theorem Machine.step_of_has {p : Program} {m : Machine} {op : Op} {next : Machine × Outcome}
    (h : p.Has m.pc op) (hfits : op.Fits) (hfinished : m.finished = false)
    (hexecute : ∀ site, m.execute p site op = next) : m.step p = next := by
  obtain ⟨position, hget⟩ := h
  rw [step_eq hget hfits hfinished, hexecute]

/-- An address from which a return can be found. -/
theorem Program.exists_returnFrom? {p : Program} {start : Nat} (k : Nat)
    (h : p.Has (start + k) .ret) : ∃ closing, p.returnFrom? start = some closing := by
  obtain ⟨position, hget⟩ := h
  induction k generalizing start with
  | zero =>
    obtain ⟨hlt, hget⟩ := Array.getElem?_eq_some_iff.1 hget
    rw [Nat.add_zero] at hlt
    simp only [Nat.add_zero] at hget
    rw [returnFrom?, dif_pos hlt, if_pos (by rw [hget]; rfl)]
    exact ⟨_, rfl⟩
  | succ k ih =>
    have hlt : start < p.instructions.size := by
      have := (Array.getElem?_eq_some_iff.1 hget).1
      omega
    rw [returnFrom?, dif_pos hlt]
    split
    · exact ⟨_, rfl⟩
    · exact ih (by rw [Nat.add_right_comm]; exact hget)

/-! ## Bound parameters -/

/-- What a word that is passed on denotes. -/
inductive Denotes (commands : List Command) : UInt16 → Meaning → Prop
  | action (which : Action) : Denotes commands which.opcode (.action which)
  | command {c : Command} (hc : c ∈ commands) (hparameters : c.parameters = []) :
      Denotes commands (operand (address commands c.name)) (.command c)

/-- The part of a stack that starts with the return address of the running command. -/
def Machine.frame (stack : List Value) : List Value :=
  stack.dropWhile fun value => !value.isReturnAddress

/-- The stack holds what the parameters of the running command `c` are bound to, and no other
command on its top. -/
structure Serves (commands : List Command) (c : Command) (b : Bindings) (stack : List Value) :
    Prop where
  mem : c ∈ commands
  names : b.map Prod.fst = c.parameters.map Ident.text
  passed : ∀ (index : Nat) (name : String) (meaning : Meaning),
    b[index]? = some (name, meaning) → ∃ word, Denotes commands word meaning ∧
      (frame stack)[c.parameters.length - index]? = some (.command word)
  settled : stack.dropWhile Value.isCommand = stack

/-- What the place of a name refers to denotes the meaning. -/
inductive Refers (commands : List Command) (stack : List Value) : Reference → Meaning → Prop
  | parameter {index word : UInt16} {meaning : Meaning} (hlt : index < 0x1000)
      (hget : (frame stack)[index.toNat]? = some (.command word))
      (hdenotes : Denotes commands word meaning) : Refers commands stack (.parameter index) meaning
  | builtin (which : Action) : Refers commands stack (.builtin which) (.action which)
  | direct {c : Command} (hc : c ∈ commands) :
      Refers commands stack (.direct (operand (address commands c.name))) (.command c)

theorem Denotes.arity_eq_zero {commands : List Command} {word : UInt16} {meaning : Meaning}
    (h : Denotes commands word meaning) : meaning.arity = 0 := by
  cases h with
  | action which => rfl
  | command hc hparameters => rw [Meaning.arity, hparameters]; rfl

/-- Looking up a name among bound parameters is looking for the parameter of that name. -/
theorem lookup_bindings {parameters : List Ident} {b : Bindings}
    (h : b.map Prod.fst = parameters.map Ident.text) (name : String) :
    b.lookup name =
      ((parameters.findIdx? fun parameter => parameter.text == name).bind
        fun index => b[index]?).map Prod.snd := by
  induction parameters generalizing b with
  | nil =>
    rw [List.map_nil, List.map_eq_nil_iff] at h
    rw [h]
    rfl
  | cons parameter parameters ih =>
    cases b with
    | nil => cases h
    | cons binding b =>
      obtain ⟨key, meaning⟩ := binding
      simp only [List.map_cons, List.cons.injEq] at h
      obtain ⟨rfl, hrest⟩ := h
      rw [List.lookup_cons, List.findIdx?_cons]
      by_cases hname : parameter.text = name
      · simp [hname]
      · rw [beq_false_of_ne hname, beq_false_of_ne (Ne.symm hname), ih hrest]
        rw [if_neg Bool.false_ne_true, Option.bind_map]
        rfl

/-- What a name denotes, beside what its place in the code refers to. -/
inductive Script.Means (script : Script) (commands : List Command) (c : Command) (b : Bindings) :
    Nat → Reference → Meaning → Prop
  | parameter {index : Nat} {key : String} {meaning : Meaning}
      (hget : b[index]? = some (key, meaning)) :
      Means script commands c b 0 (.parameter (operand (c.parameters.length - index))) meaning
  | builtin (which : Action) : Means script commands c b 0 (.builtin which) (.action which)
  | direct {d : Command} (hd : d ∈ commands) (hmentions : script.Mentions c d) :
      Means script commands c b d.parameters.length (.direct (operand (address commands d.name)))
        (.command d)

/-- **A name denotes what its place in the code refers to.** -/
theorem Script.Located.exists_meaning {script : Script} {commands : List Command} {c : Command}
    {name : String} {n : Nat} {reference : Reference} {b : Bindings}
    (h : script.Located commands c name n reference)
    (hnames : b.map Prod.fst = c.parameters.map Ident.text) :
    ∃ meaning, script.meaning? b name = some meaning ∧
      script.Means commands c b n reference meaning := by
  have hlookup := lookup_bindings hnames name
  cases h with
  | @parameter index hindex hlt =>
    have hlength : b.length = c.parameters.length := by
      have := congrArg List.length hnames
      rwa [List.length_map, List.length_map] at this
    obtain ⟨⟨key, meaning⟩, hget⟩ : ∃ binding, b[index]? = some binding :=
      ⟨_, List.getElem?_eq_getElem (by omega)⟩
    refine ⟨meaning, ?_, .parameter hget⟩
    rw [Script.meaning?, hlookup, hindex, Option.bind_some, hget]
    rfl
  | @builtin which hindex hwhich =>
    refine ⟨.action which, ?_, .builtin which⟩
    rw [Script.meaning?, hlookup, hindex, Option.bind_none, Option.map_none, hwhich]
  | @direct d hindex hwhich hd hmem hmentions =>
    refine ⟨.command d, ?_, .direct hmem hmentions⟩
    rw [Script.meaning?, hlookup, hindex, Option.bind_none, Option.map_none, hwhich, hd]
    rfl

/-- What the place of a name refers to lies on the stack of the command that uses the name. -/
theorem Serves.exists_meaning {script : Script} {main c : Command} {p : Program} {b : Bindings}
    {stack : List Value} (h : Serves (script.reachable main.name) c b stack)
    (hcompiles : script.Compiles main p) {name : String} {n : Nat} {reference : Reference}
    (hlocated : script.Located (script.reachable main.name) c name n reference) :
    ∃ meaning, script.meaning? b name = some meaning ∧ meaning.arity = n ∧
      Refers (script.reachable main.name) stack reference meaning := by
  obtain ⟨meaning, hmeaning, hmeans⟩ := hlocated.exists_meaning h.names
  refine ⟨meaning, hmeaning, ?_⟩
  cases hmeans with
  | @parameter index key meaning hget =>
    obtain ⟨word, hdenotes, hword⟩ := h.passed index key meaning hget
    have hbound : c.parameters.length - index < Program.maxSize :=
      Nat.lt_of_le_of_lt (Nat.sub_le _ _) (hcompiles.length_parameters_lt h.mem)
    refine ⟨hdenotes.arity_eq_zero, .parameter (operand_lt hbound) ?_ hdenotes⟩
    rw [toNat_operand hbound, hword]
  | builtin which => exact ⟨rfl, .builtin which⟩
  | direct hd hmentions => exact ⟨rfl, .direct hd⟩

/-! ## Arguments -/

section Arguments

variable {commands : List Command} {p : Program} {stack upper : List Value} {pc depth : Nat}
  {w : World} {events : List Event} {reference : Reference} {meaning : Meaning}

/-- What is passed to the running command is found wherever else the stack has grown. -/
theorem argument_eq {index word : UInt16} (hframe : frame upper = frame stack)
    (hget : (frame stack)[index.toNat]? = some (.command word)) :
    argument ⟨w, pc, upper, depth, false, events⟩ index = .ok word := by
  have hne : frame stack ≠ [] := by
    intro hnil
    rw [hnil] at hget
    cases hget
  rw [← hframe] at hget hne
  unfold argument
  split
  next hnil => exact absurd hnil hne
  · rw [frame] at hget
    rw [hget]

/-- The instruction of an argument pushes a word that denotes what the argument denotes. -/
theorem Refers.reaches_argument (h : Refers commands stack reference meaning)
    (harity : meaning.arity = 0) (hassembles : p.Assembles commands)
    (hhas : p.Has pc reference.argumentOp) (hframe : frame upper = frame stack) :
    ∃ word, Denotes commands word meaning ∧
      Reaches p ⟨w, pc, upper, depth, false, events⟩
        ⟨w, pc + 1, .command word :: upper, depth, false, events⟩ := by
  cases h with
  | @parameter index word _ hlt hget hdenotes =>
    have hfits : (Reference.parameter index).argumentOp.Fits := Op.fits_of_some rfl hlt
    refine ⟨word, hdenotes, .of_step (step_of_has hhas hfits rfl fun site => ?_)⟩
    rw [Reference.argumentOp, execute, argument_eq hframe hget]
    rfl
  | builtin which =>
    have hlt : which.opcode < 0x1000 := by cases which <;> decide
    exact ⟨_, .action which, .of_step
      (step_of_has hhas (Op.fits_of_some rfl hlt) rfl fun site => rfl)⟩
  | @direct c hc =>
    exact ⟨_, .command hc (List.length_eq_zero_iff.1 harity), .of_step (step_of_has hhas
      (Op.fits_of_some rfl (hassembles.operand_address_lt hc)) rfl fun site => rfl)⟩

end Arguments

theorem frame_append (words : List UInt16) (stack : List Value) :
    frame (words.map Value.command ++ stack) = frame stack := by
  refine List.dropWhile_append_of_pos fun value hvalue => ?_
  obtain ⟨word, -, rfl⟩ := List.mem_map.1 hvalue
  rfl

namespace Serves

variable {script : Script} {main c : Command} {p : Program} {b : Bindings} {stack : List Value}

/-- The arguments of a call, one after the other.  The words lie on the stack the last one on top,
so the words pushed before are below. -/
theorem reaches_arguments (h : Serves (script.reachable main.name) c b stack)
    (hcompiles : script.Compiles main p) {arguments : List Ident} {ls : List Line} {pc : Nat}
    (hholds : p.Holds (script.reachable main.name) pc
      (arguments.map (contextOf (script.reachable main.name) c).argument ++ ls))
    (hlocated : ∀ argument ∈ arguments, script.Located (script.reachable main.name) c
      argument.text 0 (locate (script.reachable main.name) c argument.text))
    (before : List UInt16) (w : World) (depth : Nat) (events : List Event) :
    ∃ meanings words,
      arguments.mapM (fun argument => script.meaning? b argument.text) = some meanings ∧
      meanings.length = arguments.length ∧
      List.Forall₂ (Denotes (script.reachable main.name)) words meanings ∧
      Reaches p ⟨w, pc, before.map .command ++ stack, depth, false, events⟩
        ⟨w, pc + arguments.length, (words.reverse ++ before).map .command ++ stack, depth, false,
          events⟩ := by
  induction arguments generalizing pc before with
  | nil => exact ⟨[], [], rfl, rfl, .nil, .refl _⟩
  | cons argument arguments ih =>
    obtain ⟨hget, -⟩ := hcompiles.assembles.get?_argument hholds
    obtain ⟨meaning, hmeaning, harity, hrefers⟩ :=
      h.exists_meaning hcompiles (hlocated argument List.mem_cons_self)
    obtain ⟨word, hdenotes, hfirst⟩ := hrefers.reaches_argument harity hcompiles.assembles
      ⟨_, hget⟩ (frame_append before stack)
    obtain ⟨meanings, words, hmeanings, hlength, hwords, hfollowing⟩ := ih hholds.tail
      (fun other hother => hlocated other (List.mem_cons_of_mem _ hother)) (word :: before)
    refine ⟨meaning :: meanings, word :: words, ?_, congrArg (· + 1) hlength,
      .cons hdenotes hwords, hfirst.trans ?_⟩
    · rw [List.mapM_cons, hmeaning, hmeanings]
      rfl
    · rw [List.reverse_cons, List.append_assoc, List.singleton_append, List.length_cons,
        Nat.add_comm arguments.length, ← Nat.add_assoc]
      exact hfollowing

end Serves

/-! ## Entering and leaving -/

section Entering

variable {script : Script} {main f : Command} {p : Program} {stack upper : List Value}
  {pc depth : Nat} {w : World} {events : List Event} {reference : Reference}

/-- The address of a command is not the number of a built-in one. -/
theorem Action.ofOpcode?_of_le {word : UInt16} (h : Program.entryPoint ≤ word.toNat) :
    Action.ofOpcode? word = none := by
  rw [ofOpcode?, List.find?_eq_none]
  intro which _ hword
  rw [beq_iff_eq] at hword
  subst hword
  cases which <;> exact absurd h (by decide)

/-- A call of what denotes a built-in command carries it out. -/
theorem Refers.step_action {commands : List Command} {which : Action}
    (h : Refers commands stack reference (.action which)) (hhas : p.Has pc reference.callOp) :
    step p ⟨w, pc, stack, depth, false, events⟩ =
      perform ⟨w, pc, stack, depth, false, events⟩ which := by
  cases h with
  | parameter hlt hget hdenotes =>
    cases hdenotes
    refine step_of_has hhas (Op.fits_of_some rfl hlt) rfl fun site => ?_
    simp only [Reference.callOp, execute, argument_eq rfl hget, callPassed,
      Action.ofOpcode?_opcode]
  | builtin => exact step_of_has hhas (Op.fits_of_none rfl) rfl fun site => rfl

/-- The address of a command, as an operand. -/
theorem Script.Compiles.toNat_address (h : script.Compiles main p)
    (hf : f ∈ script.reachable main.name) :
    (operand (address (script.reachable main.name) f.name)).toNat =
      address (script.reachable main.name) f.name :=
  toNat_operand (Nat.lt_of_le_of_lt (Nat.le_add_right _ _) (h.assembles.address_bounds hf).2)

theorem Script.Compiles.entryPoint_le (h : script.Compiles main p)
    (hf : f ∈ script.reachable main.name) :
    Program.entryPoint ≤ (operand (address (script.reachable main.name) f.name)).toNat := by
  rw [h.toNat_address hf]
  exact (h.assembles.address_bounds hf).1

/-- What denotes a command at an address denotes no other and no built-in one. -/
theorem Denotes.eq_command {meaning : Meaning} (hcompiles : script.Compiles main p)
    (hf : f ∈ script.reachable main.name)
    (h : Denotes (script.reachable main.name)
      (operand (address (script.reachable main.name) f.name)) meaning) :
    meaning = .command f := by
  generalize hword : operand (address (script.reachable main.name) f.name) = word at h
  cases h with
  | action which =>
    have hnone := Action.ofOpcode?_of_le (hcompiles.entryPoint_le hf)
    rw [hword, Action.ofOpcode?_opcode] at hnone
    cases hnone
  | @command d hd hparameters =>
    have haddress := congrArg UInt16.toNat hword
    rw [hcompiles.toNat_address hf, hcompiles.toNat_address hd] at haddress
    rw [hcompiles.assembles.address_inj hf hd haddress]

/-- Entering a command of the program. -/
theorem Script.Compiles.enter_eq (h : script.Compiles main p)
    (hf : f ∈ script.reachable main.name) (site : Instruction) :
    ∃ entered, enter p ⟨w, pc, stack, depth, false, events⟩ site
        (operand (address (script.reachable main.name) f.name)).toNat =
      (⟨w, address (script.reachable main.name) f.name, .returnAddress (operand pc) :: stack,
        depth + 1, false, entered⟩, .paused) := by
  obtain ⟨closing, hclosing⟩ := Program.exists_returnFrom? _ (h.has_ret hf)
  rw [h.toNat_address hf]
  unfold enter
  rw [hclosing]
  exact ⟨_, rfl⟩

/-- A call of what denotes a command enters it. -/
theorem Refers.step_command (h : Refers (script.reachable main.name) stack reference (.command f))
    (hcompiles : script.Compiles main p) (hhas : p.Has pc reference.callOp)
    (hframe : frame upper = frame stack) :
    f ∈ script.reachable main.name ∧ ∃ entered, step p ⟨w, pc, upper, depth, false, events⟩ =
      (⟨w, address (script.reachable main.name) f.name, .returnAddress (operand pc) :: upper,
        depth + 1, false, entered⟩, .paused) := by
  obtain ⟨position, hget⟩ := hhas
  cases h with
  | parameter hlt hword hdenotes =>
    cases hdenotes with
    | command hf hparameters =>
      have hle := hcompiles.entryPoint_le hf
      refine ⟨hf, ?_⟩
      rw [step_eq hget (Op.fits_of_some rfl hlt) rfl]
      simp only [Reference.callOp, execute, argument_eq hframe hword, callPassed,
        Action.ofOpcode?_of_le hle, if_pos hle]
      exact hcompiles.enter_eq hf _
  | direct hf =>
    refine ⟨hf, ?_⟩
    rw [step_eq hget (Op.fits_of_some rfl (hcompiles.assembles.operand_address_lt hf)) rfl]
    exact hcompiles.enter_eq hf _

/-- What the parameters of a command are bound to when it is entered. -/
theorem Serves.enter {commands : List Command} {meanings : List Meaning} {words : List UInt16}
    (hf : f ∈ commands) (hdenotes : List.Forall₂ (Denotes commands) words meanings)
    (hlength : meanings.length = f.parameters.length) (address : UInt16) (stack : List Value) :
    Serves commands f (f.bind meanings)
      (.returnAddress address :: (words.reverse.map .command ++ stack)) := by
  refine ⟨hf, ?_, ?_, rfl⟩
  · rw [Command.bind, List.map_fst_zip (by rw [List.length_map]; omega)]
  · intro index name meaning hget
    have hmeaning : meanings[index]? = some meaning := (List.getElem?_zip_eq_some.1 hget).2
    have hindex : index < meanings.length := (List.getElem?_eq_some_iff.1 hmeaning).1
    have hwords := hdenotes.length_eq
    obtain ⟨word, hword⟩ : ∃ word, words[index]? = some word :=
      ⟨_, List.getElem?_eq_getElem (by omega)⟩
    refine ⟨word, ?_, ?_⟩
    · obtain ⟨hlt, hword⟩ := List.getElem?_eq_some_iff.1 hword
      obtain ⟨hlt', hmeaning⟩ := List.getElem?_eq_some_iff.1 hmeaning
      rw [← hword, ← hmeaning]
      exact hdenotes.get hlt hlt'
    · have hplace : f.parameters.length - index = (words.length - 1 - index) + 1 := by omega
      change (Value.returnAddress address :: (words.reverse.map .command ++ stack))[
        f.parameters.length - index]? = _
      rw [hplace, List.getElem?_cons_succ, List.getElem?_append_left
        (by rw [List.length_map, List.length_reverse]; omega), List.getElem?_map,
        List.getElem?_reverse (by omega)]
      have hback : words.length - 1 - (words.length - 1 - index) = index := by omega
      rw [hback, hword]
      rfl

theorem dropWhile_commands (words : List UInt16) (stack : List Value) :
    (words.map Value.command ++ stack).dropWhile Value.isCommand =
      stack.dropWhile Value.isCommand := by
  refine List.dropWhile_append_of_pos fun value hvalue => ?_
  obtain ⟨word, -, rfl⟩ := List.mem_map.1 hvalue
  rfl

/-- Leaving a command removes what was passed to it. -/
theorem reaches_ret {site : Nat} (hret : p.Has pc .ret) (hsite : site < Program.maxSize)
    (hsettled : stack.dropWhile Value.isCommand = stack) (words : List UInt16) :
    Reaches p
      ⟨w, pc, .returnAddress (operand site) :: (words.map .command ++ stack), depth + 1, false,
        events⟩
      ⟨w, site + 1, stack, depth, false, .left :: events⟩ := by
  have hdrop := (dropWhile_commands words stack).trans hsettled
  refine .of_step (step_of_has hret (Op.fits_of_none rfl) rfl fun _ => ?_)
  simp only [execute, leave, jump, hdrop, toNat_operand hsite, Nat.add_sub_cancel]

end Entering

/-! ## Calls -/

namespace Serves

variable {script : Script} {main c : Command} {p : Program} {b : Bindings} {stack : List Value}
  {call : Call} {start : Nat}

/-- A call of a built-in command. -/
theorem call_action (h : Serves (script.reachable main.name) c b stack)
    (hcompiles : script.Compiles main p)
    (hcontains : p.Contains (script.reachable main.name) c (.call call) start) {which : Action}
    (hmeaning : script.meaning? b call.target.text = some (.action which)) (w : World)
    (depth : Nat) (events : List Event) :
    (Statement.call call).size = 1 ∧
      (p.get? start).bind Instruction.position = some call.target.position ∧
      step p ⟨w, start, stack, depth, false, events⟩ =
        perform ⟨w, start, stack, depth, false, events⟩ which := by
  obtain ⟨hget, -⟩ := hcompiles.assembles.get?_target hcontains.holds
  obtain ⟨meaning, hmeaning', harity, hrefers⟩ :=
    h.exists_meaning hcompiles (hcompiles.located_target h.mem hcontains.call_mem)
  rw [hmeaning] at hmeaning'
  cases hmeaning'
  have hlength : call.arguments.length = 0 := harity.symm
  rw [hlength, Nat.add_zero] at hget
  refine ⟨by rw [Statement.size_call, hlength], ?_, hrefers.step_action ⟨_, hget⟩⟩
  rw [hget]
  rfl

/-- A call of a command of the script: the machine enters the command with its parameters bound,
and leaving the command leads behind the call. -/
theorem call_command (h : Serves (script.reachable main.name) c b stack)
    (hcompiles : script.Compiles main p)
    (hcontains : p.Contains (script.reachable main.name) c (.call call) start) {f : Command}
    (hmeaning : script.meaning? b call.target.text = some (.command f)) (w : World)
    (depth : Nat) (events : List Event) :
    ∃ meanings inner,
      call.arguments.mapM (fun argument => script.meaning? b argument.text) = some meanings ∧
      Serves (script.reachable main.name) f (f.bind meanings) inner ∧
      (∃ ready entered, Reaches p ⟨w, start, stack, depth, false, events⟩ ready ∧
        step p ready = (⟨w, address (script.reachable main.name) f.name, inner, depth + 1, false,
          entered⟩, .paused)) ∧
      ∀ w' entered, Reaches p
        ⟨w', address (script.reachable main.name) f.name + (Statement.block f.body).size, inner,
          depth + 1, false, entered⟩
        ⟨w', start + (Statement.call call).size, stack, depth, false, .left :: entered⟩ := by
  have hcall := hcontains.call_mem
  obtain ⟨hget, -⟩ := hcompiles.assembles.get?_target hcontains.holds
  obtain ⟨meaning, hmeaning', harity, hrefers⟩ :=
    h.exists_meaning hcompiles (hcompiles.located_target h.mem hcall)
  rw [hmeaning] at hmeaning'
  cases hmeaning'
  obtain ⟨meanings, words, hmeanings, hlength, hwords, hreaches⟩ := h.reaches_arguments hcompiles
    hcontains.holds (fun argument hargument => hcompiles.located_argument h.mem hcall hargument)
    [] w depth events
  rw [List.append_nil] at hreaches
  obtain ⟨hf, entered, hstep⟩ := hrefers.step_command hcompiles ⟨_, hget⟩
    (frame_append words.reverse stack)
  have hbound := hcontains.bound
  rw [Statement.size_call] at hbound
  refine ⟨meanings, _, hmeanings, .enter hf hwords (hlength.trans harity.symm) _ stack,
    ⟨_, entered, hreaches, hstep⟩, fun w' entered => ?_⟩
  rw [Statement.size_call, ← Nat.add_assoc]
  exact reaches_ret (hcompiles.has_ret hf) (by omega) h.settled _

end Serves
end KarelRobot
