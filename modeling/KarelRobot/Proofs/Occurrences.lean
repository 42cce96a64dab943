import KarelRobot.Proofs.Enumeration
import KarelRobot.Proofs.Reachability
import Mathlib.Tactic.Choose

/-!
# Where statements, names and commands stand

A command stands at an index of its script, a statement at the end of a path into a command, and a
name at an index of a call.  Seen like this, occurrences are told apart even if they look the same,
as they do when scripts are put together from several sources.  A walk over a command meets the
statement at each path once, and the search of the call graph lists each index once that calls lead
to.

* `Statement.at?` — the statement that a path leads to.
* `Statement.lists_walk`, `Command.lists_walk` — a walk meets what all the paths lead to.
* `Command.Uses` — a name that a command calls or passes on, and where.
* `Script.First` — where the first command of a name stands.
* `Script.Calls`, `Script.LeadsTo` — the call graph between indices.
* `Script.lists_reachable` — the search lists the commands that calls lead to.
-/

set_option autoImplicit false
namespace KarelRobot

open Relation

/-! ## Paths into statements -/

namespace Statement

/-- The statements directly inside a statement.  The alternative of a case distinction is the last
of them. -/
def children : Statement → List Statement
  | call _ => []
  | repeatTimes _ _ body => body.statements
  | ifThen _ _ body => body.statements
  | ifElse _ _ body otherwise => body.statements ++ [otherwise]
  | whileLoop _ _ body => body.statements
  | block body => body.statements

/-- The statement at the end of a path, which goes from a statement to one directly inside it again
and again. -/
def at? : Statement → List Nat → Option Statement
  | s, [] => some s
  | s, i :: path =>
    match s.children[i]? with
    | some child => child.at? path
    | none => none

theorem at?_cons {s t : Statement} {i : Nat} {path : List Nat} :
    s.at? (i :: path) = some t ↔
      ∃ child, s.children[i]? = some child ∧ child.at? path = some t := by
  rw [at?]
  cases s.children[i]? <;> simp

theorem sizeOf_lt_of_mem_children {s t : Statement} (h : t ∈ s.children) :
    sizeOf t < sizeOf s := by
  have hbody {body : Block} (hmem : t ∈ body.statements) : sizeOf t < sizeOf body := by
    obtain ⟨opening, statements, closing⟩ := body
    have hlt := List.sizeOf_lt_of_mem hmem
    simp only [Block.statements, Block.mk.sizeOf_spec] at *
    omega
  cases s with
  | call => cases h
  | ifElse position condition body otherwise =>
    rw [ifElse.sizeOf_spec]
    rcases List.mem_append.1 h with h | h
    · have hlt := hbody h
      omega
    · rw [List.mem_singleton.1 h]
      omega
  | repeatTimes position times body | ifThen position condition body
  | whileLoop position condition body | block body =>
    have hlt := hbody h
    simp only [repeatTimes.sizeOf_spec, ifThen.sizeOf_spec, whileLoop.sizeOf_spec,
      block.sizeOf_spec]
    omega

/-- Induction from the statements directly inside a statement to the statement. -/
@[elab_as_elim] theorem children_induction {P : Statement → Prop}
    (step : ∀ s, (∀ t ∈ s.children, P t) → P s) (s : Statement) : P s :=
  step s fun t _ht => children_induction step t
termination_by sizeOf s
decreasing_by exact sizeOf_lt_of_mem_children _ht

theorem walkAll_eq (statements : List Statement) :
    walkAll statements = statements.flatMap walk := by
  induction statements with
  | nil => rfl
  | cons first following ih => rw [walkAll, ih, List.flatMap_cons]

end Statement

theorem Block.walk_eq (body : Block) : body.walk = body.statements.flatMap Statement.walk := by
  obtain ⟨opening, statements, closing⟩ := body
  exact Statement.walkAll_eq statements

namespace Statement

/-- A walk meets a statement first, and then what is inside the statements directly inside it. -/
theorem walk_eq (s : Statement) : s.walk = s :: s.children.flatMap walk := by
  cases s <;> simp [walk, children, Block.walk_eq]

/-- What the paths lead to inside a statement. -/
theorem lists_inside {s : Statement}
    (h : ∀ t ∈ s.children, Lists (fun path u => t.at? path = some u) t.walk) :
    Lists (fun path u => path ≠ [] ∧ s.at? path = some u) (s.children.flatMap walk) := by
  have hinjective : Function.Injective fun site : Nat × List Nat => site.1 :: site.2 := by
    rintro ⟨i, path⟩ ⟨j, path'⟩ heq
    cases heq
    rfl
  refine (((Lists.getElem? s.children).flatMap h).relabel hinjective).congr fun path u => ?_
  cases path with
  | nil => simp
  | cons i path => simp [at?_cons]

/-- **A walk meets what all the paths lead to**, each of them once. -/
theorem lists_walk (s : Statement) : Lists (fun path u => s.at? path = some u) s.walk := by
  induction s using children_induction with
  | step s ih =>
    rw [walk_eq]
    have hself := Lists.single ([] : List Nat) s
    refine (hself.append (lists_inside ih) fun path _ _ hnil hcons => hcons.1 hnil.1).congr ?_
    intro path u
    cases path with
    | nil => simp [at?, eq_comm]
    | cons i path => simp

end Statement

/-- The statement at a path into a command. -/
def Command.at? (c : Command) (path : List Nat) : Option Statement :=
  (Statement.block c.body).at? path

section Commands

variable {β : Type} (c : Command)

/-- **A walk over a command meets what all the paths into it lead to**, each of them once. -/
theorem Command.lists_walk :
    Lists (fun path s => path ≠ [] ∧ c.at? path = some s) c.body.walk := by
  rw [Block.walk_eq]
  exact Statement.lists_inside fun t (_ : t ∈ (Statement.block c.body).children) => t.lists_walk

/-- What a walk over a command picks out of the statements it meets. -/
theorem Command.lists_filterMap {f : Statement → Option β} (hf : ∀ body, f (.block body) = none) :
    Lists (fun path b => ∃ s, c.at? path = some s ∧ f s = some b) (c.body.walk.filterMap f) := by
  refine (c.lists_walk.filterMap f).congr fun path b => ?_
  constructor
  · rintro ⟨s, ⟨-, hs⟩, hb⟩
    exact ⟨s, hs, hb⟩
  · rintro ⟨s, hs, hb⟩
    refine ⟨s, ⟨?_, hs⟩, hb⟩
    -- the command as a whole is a block, and nothing is picked out of it
    rintro rfl
    cases hs
    rw [hf] at hb
    cases hb

/-- At an index of the call at a path, a command calls or passes on a name that is none of its
parameters. -/
structure Command.Uses (c : Command) (path : List Nat) (word : Nat) (ident : Ident) : Prop where
  call : ∃ call, c.at? path = some (.call call) ∧ call.references[word]? = some ident
  global : ∀ parameter ∈ c.parameters, parameter.text ≠ ident.text

theorem Command.lists_globals :
    Lists (fun (site : List Nat × Nat) ident => c.Uses site.1 site.2 ident) c.globals := by
  have hcalls := c.lists_filterMap (f := Statement.call?) fun _ => rfl
  have hreferences := hcalls.flatMap fun call _ => Lists.getElem? call.references
  refine (hreferences.filter _).congr fun site ident => ?_
  simp only [Statement.call?_eq_some_iff, hasParameter, Bool.not_eq_true', List.any_eq_false,
    beq_iff_eq]
  constructor
  · rintro ⟨⟨call, ⟨s, hs, rfl⟩, hident⟩, hglobal⟩
    exact ⟨⟨call, hs, hident⟩, hglobal⟩
  · rintro ⟨⟨call, hs, hident⟩, hglobal⟩
    exact ⟨⟨call, ⟨_, hs, rfl⟩, hident⟩, hglobal⟩

end Commands

/-! ## The call graph between indices -/

namespace Script

variable {script : Script} {name : String} {i j : Nat} {c d : Command}

/-- The first command of a name stands at an index. -/
structure First (script : Script) (name : String) (i : Nat) (c : Command) : Prop where
  get : script.commands[i]? = some c
  name_eq : c.name = name
  before : ∀ j d, j < i → script.commands[j]? = some d → d.name ≠ name

theorem find?_eq_some_iff : script.find? name = some c ↔ ∃ i, script.First name i c := by
  rw [find?, List.find?_eq_some_iff_getElem]
  constructor
  · rintro ⟨hname, i, hi, hget, hbefore⟩
    refine ⟨i, List.getElem?_eq_some_iff.2 ⟨hi, hget⟩, eq_of_beq hname, fun j d hj hd => ?_⟩
    obtain ⟨hlt, rfl⟩ := List.getElem?_eq_some_iff.1 hd
    simpa using hbefore j hj
  · rintro ⟨i, hfirst⟩
    obtain ⟨hi, hget⟩ := List.getElem?_eq_some_iff.1 hfirst.get
    refine ⟨by simpa using hfirst.name_eq, i, hi, hget, fun j hj => ?_⟩
    simpa using hfirst.before j _ hj (List.getElem?_eq_getElem (Nat.lt_trans hj hi))

theorem find?_eq_none_iff : script.find? name = none ↔ ∀ c ∈ script.commands, c.name ≠ name := by
  simp [find?]

theorem First.index_eq (h : script.First name i c) (h' : script.First name j d) : i = j := by
  rcases Nat.lt_trichotomy i j with hlt | heq | hlt
  · exact absurd h.name_eq (h'.before i c hlt h.get)
  · exact heq
  · exact absurd h'.name_eq (h.before j d hlt h'.get)

theorem First.command_eq (h : script.First name i c) (hd : script.commands[i]? = some d) :
    c = d :=
  Option.some_inj.1 (h.get.symm.trans hd)

/-- A command that is the first one of a name is the first one of its own name. -/
theorem First.own (h : script.First name i c) : script.First c.name i c :=
  h.name_eq ▸ h

/-- The command at the index `i` calls or passes on the first command of a name, which stands at the
index `j`. -/
def Calls (script : Script) (i j : Nat) : Prop :=
  ∃ c path word ident d, script.commands[i]? = some c ∧ c.Uses path word ident ∧
    script.First ident.text j d

/-- Calls lead from the first command of a name to the one at the index `i`. -/
def LeadsTo (script : Script) (entry : String) (i : Nat) : Prop :=
  ∃ origin c, script.First entry origin c ∧ ReflTransGen script.Calls origin i

theorem calls_iff (hc : script.commands[i]? = some c) :
    script.Calls i j ↔ ∃ d, script.Mentions c d ∧ script.First d.name j d := by
  constructor
  · rintro ⟨c', path, word, ident, d, hc', huses, hfirst⟩
    obtain rfl := Option.some_inj.1 (hc.symm.trans hc')
    have hmem : ident ∈ c.globals := c.lists_globals.mem_iff.2 ⟨(path, word), huses⟩
    exact ⟨d, ⟨ident.text, List.mem_map_of_mem hmem, find?_eq_some_iff.2 ⟨j, hfirst⟩⟩, hfirst.own⟩
  · rintro ⟨d, ⟨name, hname, hfind⟩, hfirst⟩
    obtain ⟨ident, hmem, rfl⟩ := List.mem_map.1 hname
    obtain ⟨⟨path, word⟩, huses⟩ := c.lists_globals.mem_iff.1 hmem
    exact ⟨c, path, word, ident, d, hc, huses, name_of_find? hfind ▸ hfirst⟩

/-- Paths between indices are paths between the commands that stand there. -/
theorem reflTransGen_calls_iff (hc : script.First c.name i c) :
    ReflTransGen script.Calls i j ↔
      ∃ d, ReflTransGen script.Mentions c d ∧ script.First d.name j d := by
  constructor
  · intro hpath
    induction hpath with
    | refl => exact ⟨c, .refl, hc⟩
    | tail _ hcalls ih =>
      obtain ⟨d, hpath, hd⟩ := ih
      obtain ⟨e, hmentions, he⟩ := (calls_iff hd.get).1 hcalls
      exact ⟨e, hpath.tail hmentions, he⟩
  · rintro ⟨d, hpath, hd⟩
    have hindex : ∃ k, script.First d.name k d ∧ ReflTransGen script.Calls i k := by
      clear hd
      induction hpath with
      | refl => exact ⟨i, hc, .refl⟩
      | @tail b d _ hmentions ih =>
        obtain ⟨k, hk, hpath⟩ := ih
        obtain ⟨name, hname, hfind⟩ := hmentions
        obtain ⟨l, hl⟩ := find?_eq_some_iff.1 hfind
        exact ⟨l, hl.own, hpath.tail ((calls_iff hk.get).2 ⟨d, ⟨name, hname, hfind⟩, hl.own⟩)⟩
    obtain ⟨k, hk, hpath⟩ := hindex
    rwa [hd.index_eq hk]

/-- A command lies on a cycle of the call graph if its index does. -/
theorem transGen_calls_iff (hc : script.First c.name i c) :
    TransGen script.Calls i i ↔ TransGen script.Mentions c c := by
  simp only [TransGen.head'_iff]
  constructor
  · rintro ⟨j, hcalls, hpath⟩
    obtain ⟨d, hmentions, hd⟩ := (calls_iff hc.get).1 hcalls
    obtain ⟨e, hpath, he⟩ := (reflTransGen_calls_iff hd).1 hpath
    obtain rfl := he.command_eq hc.get
    exact ⟨d, hmentions, hpath⟩
  · rintro ⟨d, hmentions, hpath⟩
    obtain ⟨name, hname, hfind⟩ := hmentions
    obtain ⟨j, hj⟩ := find?_eq_some_iff.1 hfind
    exact ⟨j, (calls_iff hc.get).2 ⟨d, ⟨name, hname, hfind⟩, hj.own⟩,
      (reflTransGen_calls_iff hj.own).2 ⟨c, hpath, hc⟩⟩

theorem leadsTo_iff {entry : String} :
    script.LeadsTo entry i ↔ ∃ c ∈ script.reachable entry, script.First c.name i c := by
  simp only [mem_reachable_iff, find?_eq_some_iff]
  constructor
  · rintro ⟨k, origin, hk, hpath⟩
    obtain ⟨c, hpath, hc⟩ := (reflTransGen_calls_iff hk.own).1 hpath
    exact ⟨c, ⟨origin, ⟨k, hk⟩, hpath⟩, hc⟩
  · rintro ⟨c, ⟨origin, ⟨k, hk⟩, hpath⟩, hc⟩
    exact ⟨k, origin, hk, (reflTransGen_calls_iff hk.own).2 ⟨c, hpath, hc⟩⟩

/-- **The search lists the commands that calls lead to**, each of them once. -/
theorem lists_reachable (script : Script) (entry : String) :
    Lists (fun i c => script.LeadsTo entry i ∧ script.commands[i]? = some c)
      (script.reachable entry) := by
  have hfirst : ∀ c ∈ script.reachable entry, ∃ i, script.First c.name i c := fun c hc =>
    find?_eq_some_iff.1 (find?_of_mem_reachable hc)
  choose! index hindex using hfirst
  have hnodup : ((script.reachable entry).map index).Nodup := by
    refine (List.Nodup.of_map _ (script.nodup_reachable entry)).map_on fun c hc d hd heq => ?_
    exact (hindex c hc).command_eq (heq ▸ (hindex d hd).get)
  refine (Lists.of_nodup hnodup).congr fun i c => ?_
  constructor
  · rintro ⟨hc, rfl⟩
    exact ⟨leadsTo_iff.2 ⟨c, hc, hindex c hc⟩, (hindex c hc).get⟩
  · rintro ⟨hleads, hget⟩
    obtain ⟨d, hd, hfirst⟩ := leadsTo_iff.1 hleads
    obtain rfl := hfirst.command_eq hget
    exact ⟨hd, (hindex d hd).index_eq hfirst⟩

end Script

end KarelRobot
