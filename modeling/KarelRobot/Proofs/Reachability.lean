import KarelRobot.Script.Review
import Mathlib.Data.List.Nodup
import Mathlib.Data.List.Perm.Subperm
import Mathlib.Logic.Relation

/-!
# Reachable commands

The search over the call graph finds exactly the commands that a path leads to.  Where no command
leads back to itself, each command reaches strictly more than the commands it calls or passes on,
and the number of commands that it reaches is a rank that falls along every edge.

* `CallGraph.ReachIn` — a path that stays among the commands that are left.
* `Script.Mentions` — a command calls or passes on another one.
* `Script.mem_reachable_iff` — the search finds what paths lead to.
* `Script.isRecursive_iff` — recursive commands are those on a cycle of mentions.
* `Script.rank_lt` — without recursion the rank falls along every edge.
-/

set_option autoImplicit false
namespace KarelRobot

namespace CallGraph

/-! ## Searching among the commands that are left -/

/-- The first command of a name among some commands. -/
def first? (commands : List Command) (name : String) : Option Command :=
  commands.find? fun command => command.name == name

theorem name_of_first? {commands : List Command} {name : String} {c : Command}
    (h : first? commands name = some c) : c.name = name := by
  simpa using List.find?_some h

theorem first?_without (name other : String) (commands : List Command) :
    first? (without name commands) other =
      if other = name then none else first? commands other := by
  rw [first?, first?, without, List.find?_filter]
  split
  next hname =>
    subst hname
    rw [List.find?_eq_none]
    intro c _
    simp
  next hname =>
    congr 1
    funext c
    by_cases hc : c.name = other
    · simp [hc, hname]
    · simp [hc]

theorem visit_cons_of_none {remaining : List Command} {name : String}
    (h : first? remaining name = none) (pending : List String) :
    visit remaining (name :: pending) = visit remaining pending := by
  rw [visit]
  split
  · rfl
  next c hc => cases hc.symm.trans h

theorem visit_cons_of_some {remaining : List Command} {name : String} {c : Command}
    (h : first? remaining name = some c) (pending : List String) :
    visit remaining (name :: pending) =
      c :: visit (without name remaining) (c.globalNames ++ pending) := by
  rw [visit]
  split
  next hnone => cases hnone.symm.trans h
  next d hd =>
    cases hd.symm.trans h
    rfl

/-- A command that a path leads to.  The path starts at a name that is pending and stays among the
commands that are left. -/
inductive ReachIn (remaining : List Command) (pending : List String) : Command → Prop
  | root {name : String} {c : Command} (hname : name ∈ pending)
      (hc : first? remaining name = some c) : ReachIn remaining pending c
  | edge {parent c : Command} {name : String} (hparent : ReachIn remaining pending parent)
      (hname : name ∈ parent.globalNames) (hc : first? remaining name = some c) :
      ReachIn remaining pending c

theorem ReachIn.first?_name {remaining : List Command} {pending : List String} {c : Command}
    (h : ReachIn remaining pending c) : first? remaining c.name = some c := by
  cases h with
  | root _ hc => rw [name_of_first? hc, hc]
  | edge _ _ hc => rw [name_of_first? hc, hc]

/-- A name that nothing is called can be dropped. -/
theorem reachIn_cons_of_none {remaining : List Command} {name : String} {pending : List String}
    (hnone : first? remaining name = none) {c : Command} :
    ReachIn remaining (name :: pending) c ↔ ReachIn remaining pending c := by
  constructor
  · intro h
    induction h with
    | @root other c hname hc =>
      rcases List.mem_cons.1 hname with rfl | hname
      · rw [hnone] at hc
        cases hc
      · exact .root hname hc
    | edge _ hname hc ih => exact .edge ih hname hc
  · intro h
    induction h with
    | root hname hc => exact .root (List.mem_cons_of_mem _ hname) hc
    | edge _ hname hc ih => exact .edge ih hname hc

theorem first?_of_without {remaining : List Command} {name other : String} {c : Command}
    (h : first? (without name remaining) other = some c) :
    other ≠ name ∧ first? remaining other = some c := by
  rw [first?_without] at h
  split at h
  · cases h
  next hne => exact ⟨hne, h⟩

/-- Paths that avoid a visited command are paths. -/
theorem ReachIn.of_without {remaining : List Command} {name : String} {pending : List String}
    {visited c : Command} (hvisited : first? remaining name = some visited)
    (h : ReachIn (without name remaining) (visited.globalNames ++ pending) c) :
    ReachIn remaining (name :: pending) c := by
  induction h with
  | root hname hc =>
    have hc := (first?_of_without hc).2
    rcases List.mem_append.1 hname with hname | hname
    · exact .edge (.root List.mem_cons_self hvisited) hname hc
    · exact .root (List.mem_cons_of_mem _ hname) hc
  | edge _ hname hc ih => exact .edge ih hname (first?_of_without hc).2

/-- A path to another command can be cut behind its last visit to a visited one. -/
theorem ReachIn.without {remaining : List Command} {name : String} {pending : List String}
    {visited c : Command} (hvisited : first? remaining name = some visited)
    (h : ReachIn remaining (name :: pending) c) :
    c = visited ∨ ReachIn (without name remaining) (visited.globalNames ++ pending) c := by
  induction h with
  | @root other c hname hc =>
    by_cases hother : other = name
    · rw [hother, hvisited] at hc
      cases hc
      exact .inl rfl
    · have hname := (List.mem_cons.1 hname).resolve_left hother
      exact .inr (.root (List.mem_append_right _ hname) (by rw [first?_without, if_neg hother, hc]))
  | @edge parent c other _ hname hc ih =>
    by_cases hother : other = name
    · rw [hother, hvisited] at hc
      cases hc
      exact .inl rfl
    · have hc' : first? (CallGraph.without name remaining) other = some c := by
        rw [first?_without, if_neg hother, hc]
      rcases ih with rfl | ih
      · exact .inr (.root (List.mem_append_left _ hname) hc')
      · exact .inr (.edge ih hname hc')

/-- **The search finds exactly what paths lead to.** -/
theorem mem_visit_iff (remaining : List Command) (pending : List String) (c : Command) :
    c ∈ visit remaining pending ↔ ReachIn remaining pending c := by
  fun_induction visit remaining pending with
  | case1 remaining =>
    constructor
    · intro h
      cases h
    · intro h
      induction h with
      | root hname => cases hname
      | edge _ _ _ ih => cases ih
  | case2 remaining name pending hnone ih => rw [ih, reachIn_cons_of_none hnone]
  | case3 remaining name pending visited hvisited ih =>
    rw [List.mem_cons, ih]
    constructor
    · rintro (rfl | h)
      · exact .root List.mem_cons_self hvisited
      · exact h.of_without hvisited
    · exact ReachIn.without hvisited

/-- No name is visited twice. -/
theorem nodup_visit (remaining : List Command) (pending : List String) :
    ((visit remaining pending).map Command.name).Nodup := by
  fun_induction visit remaining pending with
  | case1 remaining => exact List.nodup_nil
  | case2 remaining name pending hnone ih => exact ih
  | case3 remaining name pending visited hvisited ih =>
    rw [List.map_cons, List.nodup_cons]
    refine ⟨fun hmem => ?_, ih⟩
    obtain ⟨c, hc, hname⟩ := List.mem_map.1 hmem
    have hc := ((mem_visit_iff _ _ c).1 hc).first?_name
    exact (first?_of_without hc).1 (by rw [hname]; exact name_of_first? hvisited)

end CallGraph

namespace Script

open CallGraph Relation

variable {script : Script}

/-! ## Searching a whole script -/

/-- A command calls another one, or passes it on. -/
def Mentions (script : Script) (c d : Command) : Prop :=
  ∃ name ∈ c.globalNames, script.find? name = some d

theorem name_of_find? {name : String} {c : Command} (h : script.find? name = some c) :
    c.name = name :=
  name_of_first? h

theorem mem_of_find? {name : String} {c : Command} (h : script.find? name = some c) :
    c ∈ script.commands :=
  List.mem_of_find?_eq_some h

/-- **The reachable commands are those that a path of mentions leads to.** -/
theorem mem_reachable_iff {name : String} {c : Command} :
    c ∈ script.reachable name ↔
      ∃ origin, script.find? name = some origin ∧ ReflTransGen script.Mentions origin c := by
  rw [reachable, mem_visit_iff]
  constructor
  · intro h
    induction h with
    | root hname hc =>
      rw [List.mem_singleton] at hname
      exact ⟨_, by rw [← hname]; exact hc, .refl⟩
    | edge _ hname hc ih =>
      obtain ⟨origin, horigin, hpath⟩ := ih
      exact ⟨origin, horigin, hpath.tail ⟨_, hname, hc⟩⟩
  · rintro ⟨origin, horigin, hpath⟩
    induction hpath with
    | refl => exact .root (List.mem_singleton_self name) horigin
    | tail _ hmention ih =>
      obtain ⟨other, hother, hc⟩ := hmention
      exact .edge ih hother hc

theorem nodup_reachable (script : Script) (name : String) :
    ((script.reachable name).map Command.name).Nodup :=
  nodup_visit _ _

/-- A reachable command is the first one of its name. -/
theorem find?_of_mem_reachable {name : String} {c : Command} (h : c ∈ script.reachable name) :
    script.find? c.name = some c :=
  ((mem_visit_iff _ _ c).1 h).first?_name

theorem mem_commands_of_mem_reachable {name : String} {c : Command}
    (h : c ∈ script.reachable name) : c ∈ script.commands :=
  mem_of_find? (find?_of_mem_reachable h)

/-- What a reachable command mentions is reachable. -/
theorem mem_reachable_of_mentions {name : String} {c d : Command}
    (h : c ∈ script.reachable name) (hd : script.Mentions c d) : d ∈ script.reachable name := by
  obtain ⟨origin, horigin, hpath⟩ := mem_reachable_iff.1 h
  exact mem_reachable_iff.2 ⟨origin, horigin, hpath.tail hd⟩

/-- The search starts with the command of the name. -/
theorem reachable_eq_cons {name : String} {c : Command} (h : script.find? name = some c) :
    ∃ following, script.reachable name = c :: following :=
  ⟨_, visit_cons_of_some h []⟩

/-- Every reachable command but the first is mentioned by a reachable one. -/
theorem mentioned_of_mem_reachable {name : String} {c : Command} (h : c ∈ script.reachable name) :
    script.find? name = some c ∨ ∃ parent ∈ script.reachable name, script.Mentions parent c := by
  obtain ⟨origin, horigin, hpath⟩ := mem_reachable_iff.1 h
  rcases ReflTransGen.cases_tail hpath with rfl | ⟨parent, hparent, hmention⟩
  · exact .inl horigin
  · exact .inr ⟨parent, mem_reachable_iff.2 ⟨origin, horigin, hparent⟩, hmention⟩

/-! ## Recursion -/

theorem mem_callees_iff {c d : Command} : d ∈ script.callees c ↔ script.Mentions c d :=
  List.mem_filterMap

/-- **A command is recursive if a path of mentions leads back to it.** -/
theorem isRecursive_iff {c : Command} (hc : script.find? c.name = some c) :
    script.isRecursive c = true ↔ TransGen script.Mentions c c := by
  simp only [isRecursive, List.any_eq_true, mem_callees_iff, beq_iff_eq, TransGen.head'_iff]
  constructor
  · rintro ⟨d, hd, e, he, hname⟩
    have hec := find?_of_mem_reachable he
    rw [hname, hc] at hec
    cases hec
    obtain ⟨origin, horigin, hpath⟩ := mem_reachable_iff.1 he
    obtain ⟨name, hmem, hfind⟩ := hd
    rw [name_of_find? hfind, hfind] at horigin
    cases horigin
    exact ⟨d, ⟨name, hmem, hfind⟩, hpath⟩
  · rintro ⟨d, ⟨name, hmem, hfind⟩, hpath⟩
    have hdname : script.find? d.name = some d := by rw [name_of_find? hfind, hfind]
    exact ⟨d, ⟨name, hmem, hfind⟩, c, mem_reachable_iff.2 ⟨d, hdname, hpath⟩, rfl⟩

/-! ## Ranks -/

/-- How many commands a command reaches, itself included. -/
def rank (script : Script) (c : Command) : Nat :=
  (script.reachable c.name).length

/-- **Without recursion the rank falls along every mention.**  The mentioned command reaches
nothing that the mentioning one does not reach, and not the mentioning one itself. -/
theorem rank_lt {c d : Command} (hc : script.find? c.name = some c)
    (hrecursive : script.isRecursive c = false) (hd : script.Mentions c d) :
    script.rank d < script.rank c := by
  obtain ⟨name, hname, hfind⟩ := hd
  have hdname : script.find? d.name = some d := by rw [name_of_find? hfind, hfind]
  have hback : c ∉ script.reachable d.name := by
    intro hmem
    obtain ⟨origin, horigin, hpath⟩ := mem_reachable_iff.1 hmem
    rw [hdname] at horigin
    cases horigin
    have hcycle := (isRecursive_iff hc).2 (TransGen.head'_iff.2 ⟨d, ⟨name, hname, hfind⟩, hpath⟩)
    rw [hrecursive] at hcycle
    cases hcycle
  have hsubset : c :: script.reachable d.name ⊆ script.reachable c.name := by
    intro e he
    rcases List.mem_cons.1 he with rfl | he
    · exact mem_reachable_iff.2 ⟨e, hc, .refl⟩
    · obtain ⟨origin, horigin, hpath⟩ := mem_reachable_iff.1 he
      rw [hdname] at horigin
      cases horigin
      exact mem_reachable_iff.2 ⟨c, hc, .head ⟨name, hname, hfind⟩ hpath⟩
  have hnodup : (c :: script.reachable d.name).Nodup :=
    List.nodup_cons.2 ⟨hback, List.Nodup.of_map _ (nodup_reachable script d.name)⟩
  exact (List.subperm_of_subset hnodup hsubset).length_le

end Script
end KarelRobot
