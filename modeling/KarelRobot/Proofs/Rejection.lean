import KarelRobot.Proofs.Outline

/-!
# Why a script is refused

Reading, reviewing and linking each look names up on their own, and they agree: in a script that can
be read no name is taken twice or undefined, and the commands that are put into machine code are
closed under the names that they mention.  So nothing but the command to start with, the level and
the length of the program can keep the script from being compiled.

* `Assembly.Closed` — every name in the code of some commands stands for something.
* `Program.exists_ofCommands` — closed commands that are short enough can be linked.
* `Script.Refuses` — the problems that are left to a script that can be read.
* `Script.Verdict` — it is compiled, refused for these problems, or too long.
* `compile_of_readable` — nothing else can come of a script that can be read.
-/

set_option autoImplicit false
namespace KarelRobot

open Assembly

/-! ## Linking succeeds -/

namespace Assembly

variable {commands : List Command}

/-- Every name in the code of the commands is a parameter, a built-in command or the name of one of
them. -/
def Closed (commands : List Command) : Prop :=
  ∀ c ∈ commands, ∀ call ∈ c.body.calls, ∀ ident ∈ call.references,
    ∀ z, locate commands c ident.text = .direct z → ∃ d ∈ commands, d.name = ident.text

/-- Linking finds the number of each command. -/
theorem exists_link_pending (hsize : Program.entryPoint + (lines commands).length ≤ Program.maxSize)
    {make : UInt16 → Op} {category : UInt16} (hmake : ∀ z, (make z).encode = category ||| z)
    (hcategory : category &&& 0xf000 = category) {d : Command} (hd : d ∈ commands)
    (position : Nat) :
    ∃ instruction, link (table commands)
      ⟨.ofOp (make (number (numbering commands) d.name)) position, true⟩ = .ok instruction := by
  have hlength := length_numbering_lt hsize
  obtain ⟨q, hfind⟩ := exists_find?_place (numbering commands) Program.entryPoint hd
  have hlookup : (table commands).lookup (number (numbering commands) d.name) = some q.start := by
    rw [table, lookup_addresses hlength fun _ => name_mem_of_mem_place, hfind]
    rfl
  refine ⟨(Instruction.ofOp (make (number (numbering commands) d.name)) position).retarget
    (operand q.start), ?_⟩
  simp only [link, if_true, Instruction.operand_ofOp hmake hcategory (number_lt hlength d.name),
    hlookup]

/-- A name that stands for something can be linked.  `use` is `Reference.callOp` or
`Reference.argumentOp`. -/
theorem exists_link_reference
    (hsize : Program.entryPoint + (lines commands).length ≤ Program.maxSize)
    {use : Reference → Op} {make : UInt16 → Op} {category : UInt16}
    (huse : ∀ z, use (.direct z) = make z) (hmake : ∀ z, (make z).encode = category ||| z)
    (hcategory : category &&& 0xf000 = category) {c : Command} {name : String}
    (hknown : ∀ z, locate commands c name = .direct z → ∃ d ∈ commands, d.name = name)
    (position : Nat) :
    ∃ instruction, link (table commands)
      ⟨.ofOp (use ((contextOf commands c).resolve name)) position,
        ((contextOf commands c).resolve name).isPending⟩ = .ok instruction := by
  simp only [Context.resolve, contextOf, locate] at hknown ⊢
  cases hparameter : c.parameters.findIdx? fun parameter => parameter.text == name with
  | some index => exact ⟨_, rfl⟩
  | none =>
    simp only [hparameter] at hknown ⊢
    cases hbuiltin : Action.ofName? name with
    | some which => exact ⟨_, rfl⟩
    | none =>
      simp only [hbuiltin] at hknown
      obtain ⟨d, hd, rfl⟩ := hknown _ rfl
      simp only [huse]
      exact exists_link_pending hsize hmake hcategory hd position

/-- Every line of the code of closed commands can be linked. -/
theorem Closed.exists_link (h : Closed commands)
    (hsize : Program.entryPoint + (lines commands).length ≤ Program.maxSize) {l : Line}
    (hl : l ∈ lines commands) : ∃ instruction, link (table commands) l = .ok instruction := by
  obtain ⟨q, hq, hl⟩ := List.mem_flatMap.1 hl
  obtain ⟨c, hc, hqc⟩ := mem_place hq
  rw [hqc, Command.code_eq] at hl
  rcases List.mem_append.1 hl with hl | hl
  · rcases Statement.exists_line_or_call hl with ⟨op, position, rfl⟩ | ⟨call, hcall, hl⟩
    · exact ⟨_, rfl⟩
    · rcases List.mem_append.1 hl with hl | hl
      · obtain ⟨argument, hargument, rfl⟩ := List.mem_map.1 hl
        have huse : ∀ z, (Reference.direct z).argumentOp = .pass z := fun _ => rfl
        exact exists_link_reference hsize huse (fun _ => rfl) rfl
          (h c hc call hcall argument (List.mem_cons_of_mem _ hargument)) argument.position
      · obtain rfl := List.mem_singleton.1 hl
        have huse : ∀ z, (Reference.direct z).callOp = .call z := fun _ => rfl
        exact exists_link_reference hsize huse (fun _ => rfl) rfl
          (h c hc call hcall call.target List.mem_cons_self) call.target.position
  · obtain rfl := List.mem_singleton.1 hl
    exact ⟨_, rfl⟩

end Assembly

/-- **Closed commands make a program unless they are too long.** -/
theorem Program.exists_ofCommands {commands : List Command} (h : Closed commands)
    (hsize : entryPoint + (lines commands).length ≤ maxSize) :
    ∃ p, Program.ofCommands commands = .ok p := by
  obtain ⟨code, hcode⟩ := exists_mapM_eq_ok fun l hl => h.exists_link hsize (l := l) hl
  rw [ofCommands_eq, if_neg (Nat.not_lt.2 hsize), hcode]
  exact ⟨ofCode code, rfl⟩

/-! ## Scripts that can be read -/

namespace Script

variable {script : Script} {entry : String} {level : Level}

theorem WellScoped.exists_hasArity (h : script.WellScoped) {c : Command}
    (hc : c ∈ script.commands) {call : Call} (hcall : call ∈ c.body.calls) {ident : Ident}
    (hident : ident ∈ call.references) : ∃ n, script.HasArity c ident.text n := by
  rcases List.mem_cons.1 hident with rfl | hargument
  · exact ⟨_, h.target c hc call hcall⟩
  · exact ⟨_, h.argument c hc call hcall ident hargument⟩

/-- The commands that can be reached are closed. -/
theorem WellScoped.closed (h : script.WellScoped) (entry : String) :
    Closed (script.reachable entry) := by
  intro c hc call hcall ident hident z hz
  obtain ⟨n, harity⟩ := h.exists_hasArity (mem_commands_of_mem_reachable hc) hcall hident
  have hlocated := located_of_hasArity hc hcall hident harity
  rw [hz] at hlocated
  cases hlocated with
  | direct _ _ hd hmem _ => exact ⟨_, hmem, name_of_find? hd⟩

/-- Commands with new and distinct names take no name twice. -/
theorem redefinitionsFrom_eq_nil {earlier commands : List Command}
    (hdistinct : ((earlier ++ commands).map Command.name).Nodup)
    (hnew : ∀ c ∈ commands, Action.ofName? c.name = none) :
    redefinitionsFrom earlier commands = [] := by
  induction commands generalizing earlier with
  | nil => rfl
  | cons first following ih =>
    obtain ⟨hfirst, hfollowing⟩ := List.forall_mem_cons.1 hnew
    have hnone : earlier.find? (fun other => other.name == first.name) = none := by
      rw [List.find?_eq_none]
      intro other hother heq
      rw [List.map_append, List.nodup_append] at hdistinct
      exact hdistinct.2.2 _ (List.mem_map_of_mem hother) _ (List.mem_map_of_mem List.mem_cons_self)
        (eq_of_beq heq)
    rw [List.append_cons] at hdistinct
    rw [redefinitionsFrom, hnone, hfirst, ih hdistinct hfollowing]
    rfl

theorem WellScoped.redefinitions_eq_nil (h : script.WellScoped) : script.redefinitions = [] :=
  redefinitionsFrom_eq_nil (by rw [List.nil_append]; exact h.distinct) h.new

theorem WellScoped.undefinedNames_eq_nil (h : script.WellScoped) : script.undefinedNames = [] := by
  rw [undefinedNames, List.flatMap_eq_nil_iff]
  intro c hc
  rw [List.map_eq_nil_iff, List.filter_eq_nil_iff]
  intro ident hident
  obtain ⟨hident, hparameter⟩ := List.mem_filter.1 hident
  obtain ⟨call, hcall, hident⟩ := List.mem_flatMap.1 hident
  rw [← Block.calls_eq] at hcall
  obtain ⟨n, harity⟩ := h.exists_hasArity hc hcall hident
  cases harity with
  | parameter hyes => simp [hyes] at hparameter
  | builtin _ hwhich => simp [isDefined, hwhich]
  | command _ _ hd => simp [isDefined, hd]

/-- What can keep a script that can be read from being put into machine code. -/
inductive Refuses (script : Script) (entry : String) (level : Level) : Diagnostic → Prop
  | undefinedEntry (hnone : script.find? entry = none) :
      Refuses script entry level ⟨0, .undefinedEntry entry, none⟩
  | entryTakesParameters {main : Command} (hmain : script.find? entry = some main)
      (hparameters : main.parameters ≠ []) :
      Refuses script entry level ⟨main.ident.position, .entryTakesParameters entry, none⟩
  /-- A loop with a condition that can be reached before the course has introduced it. -/
  | whileNotAllowed {c : Command} {position : Nat} {condition : Condition} {body : Block}
      (hlevel : level.allowsWhile = false) (hc : c ∈ script.reachable entry)
      (hloop : Statement.whileLoop position condition body ∈ c.body.walk) :
      Refuses script entry level ⟨position, .whileNotAllowed, none⟩
  /-- A command that leads back to itself and can be reached before the course has introduced
  recursion. -/
  | recursionNotAllowed {c : Command} (hlevel : level.allowsRecursion = false)
      (hc : c ∈ script.reachable entry) (hcycle : Relation.TransGen script.Mentions c c) :
      Refuses script entry level ⟨c.ident.position, .recursionNotAllowed, none⟩

theorem mem_entryProblems_iff {d : Diagnostic} :
    d ∈ script.entryProblems entry ↔
      (script.find? entry = none ∧ d = ⟨0, .undefinedEntry entry, none⟩) ∨
        ∃ main, script.find? entry = some main ∧ main.parameters ≠ [] ∧
          d = ⟨main.ident.position, .entryTakesParameters entry, none⟩ := by
  rw [entryProblems]
  cases script.find? entry with
  | none => simp
  | some main => by_cases hempty : main.parameters = [] <;> simp [hempty]

theorem mem_earlyRecursion_iff {d : Diagnostic} :
    d ∈ script.earlyRecursion entry level ↔
      level.allowsRecursion = false ∧ ∃ c ∈ script.reachable entry,
        Relation.TransGen script.Mentions c c ∧
          d = ⟨c.ident.position, .recursionNotAllowed, none⟩ := by
  rw [earlyRecursion, recursive]
  cases level.allowsRecursion with
  | true => simp
  | false =>
    simp only [Bool.false_eq_true, if_false, List.mem_map, List.mem_filter, true_and]
    constructor
    · rintro ⟨c, ⟨hc, hrecursive⟩, rfl⟩
      exact ⟨c, hc, (isRecursive_iff (find?_of_mem_reachable hc)).1 hrecursive, rfl⟩
    · rintro ⟨c, hc, hcycle, rfl⟩
      exact ⟨c, ⟨hc, (isRecursive_iff (find?_of_mem_reachable hc)).2 hcycle⟩, rfl⟩

/-- **A review of a script that can be read finds nothing else.** -/
theorem WellScoped.mem_review_iff (h : script.WellScoped) {d : Diagnostic} :
    d ∈ script.review entry level ↔ script.Refuses entry level d := by
  rw [review, List.mem_mergeSort, h.redefinitions_eq_nil, h.undefinedNames_eq_nil, List.nil_append,
    List.nil_append, List.mem_append, List.mem_append, mem_entryProblems_iff, mem_earlyLoops_iff,
    mem_earlyRecursion_iff]
  constructor
  · rintro (((⟨hnone, rfl⟩ | ⟨main, hmain, hparameters, rfl⟩) |
      ⟨hlevel, c, hc, position, condition, body, hloop, rfl⟩) | ⟨hlevel, c, hc, hcycle, rfl⟩)
    · exact .undefinedEntry hnone
    · exact .entryTakesParameters hmain hparameters
    · exact .whileNotAllowed hlevel hc hloop
    · exact .recursionNotAllowed hlevel hc hcycle
  · intro hd
    cases hd with
    | undefinedEntry hnone => exact .inl (.inl (.inl ⟨hnone, rfl⟩))
    | entryTakesParameters hmain hparameters =>
      exact .inl (.inl (.inr ⟨_, hmain, hparameters, rfl⟩))
    | whileNotAllowed hlevel hc hloop => exact .inl (.inr ⟨hlevel, _, hc, _, _, _, hloop, rfl⟩)
    | recursionNotAllowed hlevel hc hcycle => exact .inr ⟨hlevel, _, hc, hcycle, rfl⟩

/-- The commands that can be reached are put into machine code unless they are too long. -/
theorem WellScoped.ofCommands (h : script.WellScoped) (entry : String) :
    ((∃ p, Program.ofCommands (script.reachable entry) = .ok p) ∧
      Program.entryPoint + (Program.outline (script.reachable entry)).length ≤ Program.maxSize) ∨
    ∃ d, Program.ofCommands (script.reachable entry) = .error d ∧ d.problem = .programTooLong ∧
      Program.maxSize < Program.entryPoint + (Program.outline (script.reachable entry)).length := by
  rw [Program.length_outline]
  by_cases hlong : Program.maxSize < Program.entryPoint + (lines (script.reachable entry)).length
  · rw [Program.ofCommands_eq, if_pos hlong]
    exact .inr ⟨_, rfl, rfl, hlong⟩
  · have hsize := Nat.not_lt.1 hlong
    exact .inl ⟨Program.exists_ofCommands (h.closed entry) hsize, hsize⟩

/-- What compiling a script that can be read comes to. -/
inductive Verdict (script : Script) (entry : String) (level : Level) :
    Except (List Diagnostic) Program → Prop
  | compiled {p : Program} (hallowed : ∀ d, ¬ script.Refuses entry level d)
      (hsize : Program.entryPoint + (Program.outline (script.reachable entry)).length ≤
        Program.maxSize) :
      Verdict script entry level (.ok p)
  | refused {problems : List Diagnostic} (hsome : problems ≠ [])
      (hproblems : ∀ d, d ∈ problems ↔ script.Refuses entry level d) :
      Verdict script entry level (.error problems)
  /-- Only a script that is allowed can be too long, and then that is the only problem. -/
  | tooLong {d : Diagnostic} (hallowed : ∀ d, ¬ script.Refuses entry level d)
      (hmessage : d.message = "program too long")
      (hsize : Program.maxSize <
        Program.entryPoint + (Program.outline (script.reachable entry)).length) :
      Verdict script entry level (.error [d])

theorem WellScoped.verdict (h : script.WellScoped) (entry : String) (level : Level) :
    script.Verdict entry level (script.compile entry level) := by
  by_cases hreview : script.review entry level = []
  · have hallowed : ∀ d, ¬ script.Refuses entry level d := by
      intro d hd
      have hmem := h.mem_review_iff.2 hd
      rw [hreview] at hmem
      cases hmem
    rw [compile_of_review hreview]
    rcases h.ofCommands entry with ⟨⟨p, hp⟩, hsize⟩ | ⟨d, hd, hproblem, hsize⟩
    · rw [hp]
      exact .compiled hallowed hsize
    · rw [hd]
      exact .tooLong hallowed (by rw [Diagnostic.message, hproblem]; rfl) hsize
  · have hcompile : script.compile entry level = .error (script.review entry level) := by
      rw [Script.compile]
      split
      next hnil => exact absurd hnil hreview
      · rfl
    rw [hcompile]
    exact .refused hreview fun d => h.mem_review_iff

end Script

/-- **A script that can be read fails only where its author can tell why.**  The review finds no
name that is taken twice or undefined, linking finds every name, and what is left to complain about
is the command to start with, what the level does not allow, and the length of the program. -/
theorem compile_of_readable {source : String} {script : Script}
    (h : Script.parse source = .ok script) (entry : Option String) (level : Level) :
    script.redefinitions = [] ∧ script.undefinedNames = [] ∧
      (∀ name d, Program.ofCommands (script.reachable name) = .error d →
        d.problem = .programTooLong) ∧
      script.Verdict (entry.getD script.defaultEntry) level (compile source entry level) := by
  have hscoped := Script.wellScoped_of_parse h
  rw [compile_of_parse h]
  refine ⟨hscoped.redefinitions_eq_nil, hscoped.undefinedNames_eq_nil, fun name d hd => ?_,
    hscoped.verdict _ level⟩
  rcases hscoped.ofCommands name with ⟨⟨p, hp⟩, -⟩ | ⟨e, he, hproblem, -⟩
  · rw [hp] at hd
    cases hd
  · rw [he] at hd
    cases hd
    exact hproblem

/-- At the first level the dance is refused for its loop. -/
theorem compile_of_readable_dance :
    ∃ script, Script.parse dance = .ok script ∧ script.redefinitions = [] ∧
      script.undefinedNames = [] ∧
      (∀ name d, Program.ofCommands (script.reachable name) = .error d →
        d.problem = .programTooLong) ∧
      script.Verdict (none.getD script.defaultEntry) .basics (compile dance none .basics) := by
  obtain ⟨p, hp⟩ := exists_compile_dance
  obtain ⟨script, -, hscript, -⟩ := compiles_of_compile hp
  exact ⟨script, hscript, compile_of_readable hscript none .basics⟩

end KarelRobot
