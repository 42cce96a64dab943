import KarelRobot.Proofs.Reachability

/-!
# The order of the search

The search finds the commands that paths of the call graph lead to, and it finds them depth first:
whatever can be reached from a command without touching a command listed before it is listed
directly behind it, and nothing else comes in between.  Two facts carry this.  A search for several
names is one search after the other, each among the commands that those before it have left
(`CallGraph.visit_append`).  And the part of the list that starts with a command starts with the
search for that command alone (`CallGraph.exists_block`).

* `Script.Edge` — the call graph, read off the statements of a command.
* `CallGraph.unvisited` — the commands that some visits leave over.
* `CallGraph.mem_visit_unvisited_iff` — a search among them follows the paths that avoid the visits.
* `reachable_depthFirst` — what the search lists, and in which order.
-/

set_option autoImplicit false
namespace KarelRobot

open Relation

/-! ## The call graph -/

/-- An edge of the call graph.  It leads to the first command of a name that a statement anywhere
inside a command calls or passes on, unless the name is that of a parameter. -/
def Script.Edge (script : Script) (c d : Command) : Prop :=
  ∃ call, Statement.call call ∈ c.body.walk ∧
    ∃ ident ∈ call.target :: call.arguments,
      (∀ parameter ∈ c.parameters, parameter.text ≠ ident.text) ∧
        script.find? ident.text = some d

theorem Command.mem_globalNames_iff {c : Command} {name : String} :
    name ∈ c.globalNames ↔ ∃ call, Statement.call call ∈ c.body.walk ∧
      ∃ ident ∈ call.target :: call.arguments,
        (∀ parameter ∈ c.parameters, parameter.text ≠ ident.text) ∧ ident.text = name := by
  simp only [globalNames, globals, hasParameter, Call.references, List.mem_map, List.mem_filter,
    List.mem_flatMap, List.mem_filterMap, Statement.call?_eq_some_iff]
  constructor
  · rintro ⟨ident, ⟨⟨call, ⟨s, hs, rfl⟩, hident⟩, hfree⟩, rfl⟩
    exact ⟨call, hs, ident, hident, by simpa using hfree, rfl⟩
  · rintro ⟨call, hs, ident, hident, hfree, rfl⟩
    exact ⟨ident, ⟨⟨call, ⟨_, hs, rfl⟩, hident⟩, by simpa using hfree⟩, rfl⟩

theorem Script.mentions_eq_edge (script : Script) : script.Mentions = script.Edge := by
  ext c d
  simp only [Mentions, Edge, Command.mem_globalNames_iff]
  constructor
  · rintro ⟨_, ⟨call, hcall, ident, hident, hfree, rfl⟩, hd⟩
    exact ⟨call, hcall, ident, hident, hfree, hd⟩
  · rintro ⟨call, hcall, ident, hident, hfree, hd⟩
    exact ⟨_, ⟨call, hcall, ident, hident, hfree, rfl⟩, hd⟩

namespace CallGraph

/-! ## What visits leave over -/

/-- The commands that are left after some visits: those of other names. -/
def unvisited (visits commands : List Command) : List Command :=
  commands.filter fun c => decide (c.name ∉ visits.map Command.name)

@[simp] theorem unvisited_nil (commands : List Command) : unvisited [] commands = commands := by
  simp [unvisited]

/-- The first visit can be made first. -/
theorem unvisited_cons (c : Command) (visits commands : List Command) :
    unvisited (c :: visits) commands = unvisited visits (without c.name commands) := by
  rw [unvisited, unvisited, without, List.filter_filter]
  congr 1
  funext d
  by_cases hname : d.name = c.name <;> simp [hname]

theorem first?_unvisited_eq_some_iff {visits commands : List Command} {name : String}
    {c : Command} :
    first? (unvisited visits commands) name = some c ↔
      first? commands name = some c ∧ name ∉ visits.map Command.name := by
  induction visits generalizing commands with
  | nil => simp
  | cons visit visits ih =>
    rw [unvisited_cons, ih, first?_without]
    by_cases hname : name = visit.name <;> simp [hname]

/-! ## One search after the other -/

/-- **A search for several names is one search after the other.**  The second one has what the
first one leaves over. -/
theorem visit_append (remaining : List Command) (names pending : List String) :
    visit remaining (names ++ pending) =
      visit remaining names ++ visit (unvisited (visit remaining names) remaining) pending := by
  fun_induction visit remaining names with
  | case1 remaining => simp
  | case2 remaining name names hnone ih => rw [List.cons_append, visit_cons_of_none hnone, ih]
  | case3 remaining name names c hc ih =>
    rw [List.cons_append, visit_cons_of_some hc, ← List.append_assoc, ih, unvisited_cons,
      name_of_first? hc, List.cons_append]

/-- **What follows a command in the search starts with the search for that command alone**, among
the commands that all visits before it have left over. -/
theorem exists_block {remaining : List Command} {pending : List String}
    {before after : List Command} {c : Command}
    (h : visit remaining pending = before ++ c :: after) :
    ∃ block following, after = block ++ following ∧
      visit (unvisited before remaining) [c.name] = c :: block := by
  fun_induction visit remaining pending generalizing before with
  | case1 remaining => simp at h
  | case2 remaining name pending hnone ih => exact ih h
  | case3 remaining name pending d hd ih =>
    have hname := name_of_first? hd
    cases before with
    | nil =>
      -- This is the visit itself: the names that it adds are searched for before the others.
      obtain ⟨rfl, rfl⟩ := List.cons.inj h
      refine ⟨_, _, visit_append _ _ _, ?_⟩
      rw [unvisited_nil, hname, visit_cons_of_some hd, List.append_nil]
    | cons first before =>
      obtain ⟨rfl, hrest⟩ := List.cons.inj h
      rw [unvisited_cons, hname]
      exact ih hrest

end CallGraph

/-! ## Paths that avoid commands -/

section Avoiding

open CallGraph

variable {script : Script} {entry : String} {before : List Command}

/-- Visited commands are told apart by their names. -/
theorem Script.name_mem_map_iff (hbefore : ∀ d ∈ before, script.find? d.name = some d)
    {name : String} {c : Command} (hc : script.find? name = some c) :
    name ∈ before.map Command.name ↔ c ∈ before := by
  rw [List.mem_map]
  constructor
  · rintro ⟨d, hd, rfl⟩
    rwa [Option.some.inj (hc.symm.trans (hbefore d hd))]
  · exact fun hmem => ⟨c, hmem, name_of_find? hc⟩

/-- **A search among the commands that are left follows the paths that avoid the visits.** -/
theorem CallGraph.mem_visit_unvisited_iff (hbefore : ∀ d ∈ before, script.find? d.name = some d)
    {c d : Command} (hc : script.find? c.name = some c) (hfresh : c ∉ before) :
    d ∈ visit (unvisited before script.commands) [c.name] ↔
      ReflTransGen (fun a b => script.Edge a b ∧ b ∉ before) c d := by
  have hleft (name : String) (e : Command) :
      first? (unvisited before script.commands) name = some e ↔
        script.find? name = some e ∧ e ∉ before := by
    rw [first?_unvisited_eq_some_iff]
    exact and_congr_right fun he => not_congr (Script.name_mem_map_iff hbefore he)
  rw [mem_visit_iff, ← script.mentions_eq_edge]
  constructor
  · intro h
    induction h with
    | @root name e hname he =>
      obtain ⟨he, -⟩ := (hleft name e).1 he
      rw [List.mem_singleton.1 hname, hc] at he
      cases he
      exact .refl
    | @edge parent e name _ hname he ih =>
      obtain ⟨he, hnew⟩ := (hleft name e).1 he
      exact ih.tail ⟨⟨name, hname, he⟩, hnew⟩
  · intro h
    induction h with
    | refl => exact .root List.mem_cons_self ((hleft _ _).2 ⟨hc, hfresh⟩)
    | tail _ hstep ih =>
      obtain ⟨⟨name, hname, he⟩, hnew⟩ := hstep
      exact .edge ih hname ((hleft _ _).2 ⟨he, hnew⟩)

/-- The commands behind a command that can be reached from it without touching those before it stand
directly behind it. -/
theorem Script.exists_block_reachable {c : Command} {after : List Command}
    (h : script.reachable entry = before ++ c :: after) :
    ∃ block following, after = block ++ following ∧
      ∀ d, d ∈ c :: block ↔ ReflTransGen (fun a b => script.Edge a b ∧ b ∉ before) c d := by
  have hfind : ∀ d ∈ before ++ c :: after, script.find? d.name = some d := by
    rw [← h]
    exact fun d hd => find?_of_mem_reachable hd
  have hnodup : (before ++ c :: after).Nodup := by
    rw [← h]
    exact (nodup_reachable script entry).of_map _
  have hbefore : ∀ d ∈ before, script.find? d.name = some d :=
    fun d hd => hfind d (List.mem_append_left _ hd)
  have hc : script.find? c.name = some c := hfind c (by simp)
  have hfresh : c ∉ before := fun hmem =>
    (List.nodup_append.1 hnodup).2.2 c hmem c List.mem_cons_self rfl
  obtain ⟨block, following, hafter, hblock⟩ := exists_block h
  refine ⟨block, following, hafter, fun d => ?_⟩
  rw [← hblock]
  exact mem_visit_unvisited_iff hbefore hc hfresh

end Avoiding

/-! ## The whole search -/

/-- **Reachability is the depth-first closure.**  If nothing has the name to start with, nothing is
listed.  Otherwise the list starts with the first command of that name, has no two commands of one
name, and holds exactly the commands that paths lead to; and the commands that can be reached from a
listed one without touching those before it are a block of the list that starts with it. -/
theorem reachable_depthFirst (script : Script) (entry : String) :
    (script.find? entry = none → script.reachable entry = []) ∧
      ∀ origin, script.find? entry = some origin →
        (∃ following, script.reachable entry = origin :: following) ∧
          ((script.reachable entry).map Command.name).Nodup ∧
          (∀ c, c ∈ script.reachable entry ↔ ReflTransGen script.Edge origin c) ∧
          ∀ before c after, script.reachable entry = before ++ c :: after →
            ∃ block following, after = block ++ following ∧
              ∀ d, d ∈ c :: block ↔
                ReflTransGen (fun a b => script.Edge a b ∧ b ∉ before) c d := by
  refine ⟨fun hnone => ?_, fun origin horigin => ⟨Script.reachable_eq_cons horigin,
    Script.nodup_reachable script entry, fun c => ?_, fun before c after hsplit =>
      Script.exists_block_reachable hsplit⟩⟩
  · rw [Script.reachable, CallGraph.visit_cons_of_none hnone, CallGraph.visit]
  · rw [Script.mem_reachable_iff, horigin, ← script.mentions_eq_edge]
    simp

/-- A script in which commands lead back to earlier ones: `tour` calls `lap` and passes `rest` on to
it, `lap` calls itself and `tour`, and `rest` calls `lap` and `end`.  The second `lap` does not
count, and `home` is not defined. -/
def tours : Script where
  commands :=
    [⟨0, ⟨"tour", 5⟩, [], .mk 12 [.call ⟨⟨"lap", 14⟩, [⟨"rest", 18⟩]⟩,
        .call ⟨⟨"home", 25⟩, []⟩] 33⟩,
      ⟨35, ⟨"lap", 40⟩, [⟨"pause", 49⟩], .mk 58 [.call ⟨⟨"lap", 60⟩, [⟨"pause", 64⟩]⟩,
        .call ⟨⟨"tour", 72⟩, []⟩] 80⟩,
      ⟨82, ⟨"lap", 87⟩, [], .mk 93 [.call ⟨⟨"spare", 95⟩, []⟩] 104⟩,
      ⟨106, ⟨"rest", 111⟩, [], .mk 118 [.call ⟨⟨"lap", 120⟩, [⟨"end", 124⟩]⟩] 130⟩,
      ⟨132, ⟨"end", 137⟩, [], .mk 143 [] 145⟩,
      ⟨147, ⟨"spare", 152⟩, [], .mk 160 [] 162⟩]

theorem reachable_depthFirst_tours :
    ∃ tour lap rest last, tours.find? "tour" = some tour ∧
      tours.reachable "tour" = [tour, lap] ++ rest :: [last] ∧
      [tour, lap, rest, last].map Command.name = ["tour", "lap", "rest", "end"] ∧
      ∃ block following, [last] = block ++ following ∧
        ∀ d, d ∈ rest :: block ↔
          ReflTransGen (fun a b => tours.Edge a b ∧ b ∉ [tour, lap]) rest d := by
  have hlist : tours.reachable "tour" =
      [tours.commands[0], tours.commands[1]] ++ tours.commands[3] :: [tours.commands[4]] := by
    with_unfolding_all rfl
  exact ⟨_, _, _, _, rfl, hlist, rfl,
    ((reachable_depthFirst tours "tour").2 _ rfl).2.2.2 _ _ _ hlist⟩

end KarelRobot
