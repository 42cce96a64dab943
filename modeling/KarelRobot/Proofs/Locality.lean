import KarelRobot.Proofs.Reachability
import KarelRobot.Script.Assembly

/-!
# The code depends on the reachable commands only

Two scripts may list their commands in different orders, and each may have commands that the other
one lacks or words otherwise.  As long as the same commands can be reached in both, the search
visits them in the same order, since it asks for commands by name and in the order of their
mentions.

* `CallGraph.Alike` — two lists of commands give the same answers to all questions of a search.
* `CallGraph.Alike.visit_eq` — so the search goes the same way in both.
* `Script.Reaches` — a path of mentions leads to a command.
* `code_depends_on_reachable` — the same commands make the same program.
-/

set_option autoImplicit false
namespace KarelRobot

namespace CallGraph

/-! ## Two searches side by side -/

/-- Two lists of commands agree on every name that a search asks for: on those that are pending, and
on those that are mentioned by a command that it comes to. -/
structure Alike (remaining remaining' : List Command) (pending : List String) : Prop where
  asked : ∀ name ∈ pending, first? remaining name = first? remaining' name
  mentioned : ∀ c, ReachIn remaining pending c →
    ∀ name ∈ c.globalNames, first? remaining name = first? remaining' name

section Alike

variable {remaining remaining' : List Command} {name : String} {pending : List String}

/-- A name that nothing is called makes no difference. -/
theorem Alike.of_none (h : Alike remaining remaining' (name :: pending))
    (hnone : first? remaining name = none) : Alike remaining remaining' pending where
  asked := fun other hother => h.asked other (List.mem_cons_of_mem _ hother)
  mentioned := fun c hc => h.mentioned c ((reachIn_cons_of_none hnone).2 hc)

/-- After a visit to the same command the searches are still alike. -/
theorem Alike.without (h : Alike remaining remaining' (name :: pending)) {visited : Command}
    (hvisited : first? remaining name = some visited) :
    Alike (without name remaining) (without name remaining') (visited.globalNames ++ pending) where
  asked := by
    intro other hother
    -- Neither list answers for the visited name any more; for any other both answer as before.
    rw [first?_without, first?_without]
    congr 1
    rcases List.mem_append.1 hother with hother | hother
    · exact h.mentioned visited (.root List.mem_cons_self hvisited) other hother
    · exact h.asked other (List.mem_cons_of_mem _ hother)
  mentioned := by
    intro c hc other hother
    rw [first?_without, first?_without, h.mentioned c (hc.of_without hvisited) other hother]

/-- **The search goes the same way among commands that are alike.** -/
theorem Alike.visit_eq (h : Alike remaining remaining' pending) :
    visit remaining pending = visit remaining' pending := by
  fun_induction visit remaining pending generalizing remaining' with
  | case1 remaining => rw [visit]
  | case2 remaining name pending hnone ih =>
    have hnone' := (h.asked name List.mem_cons_self).symm.trans hnone
    rw [ih (h.of_none hnone), visit_cons_of_none hnone']
  | case3 remaining name pending visited hvisited ih =>
    have hvisited' := (h.asked name List.mem_cons_self).symm.trans hvisited
    rw [ih (h.without hvisited), visit_cons_of_some hvisited']

end Alike
end CallGraph

namespace Script

open CallGraph Relation

/-- A path of mentions leads to a command from the one of a name. -/
def Reaches (script : Script) (entry : String) (c : Command) : Prop :=
  ∃ origin, script.find? entry = some origin ∧ ReflTransGen script.Mentions origin c

theorem mem_reachable {script : Script} {entry : String} {c : Command} :
    c ∈ script.reachable entry ↔ script.Reaches entry c :=
  mem_reachable_iff

section Same

variable {script other : Script} {entry : String}

/-- A reachable command of one script stands for its name in the other one too. -/
theorem find?_of_reaches (hsame : ∀ c, script.Reaches entry c ↔ other.Reaches entry c)
    {name : String} (hreaches : ∀ c, script.find? name = some c → script.Reaches entry c)
    {c : Command} (h : script.find? name = some c) : other.find? name = some c := by
  have hc : c ∈ other.reachable entry := mem_reachable.2 ((hsame c).1 (hreaches c h))
  rw [← name_of_find? h]
  exact find?_of_mem_reachable hc

/-- A name that leads to reachable commands only means the same in both scripts. -/
theorem find?_eq_of_reaches (hsame : ∀ c, script.Reaches entry c ↔ other.Reaches entry c)
    {name : String} (hreaches : ∀ c, script.find? name = some c → script.Reaches entry c)
    (hreaches' : ∀ c, other.find? name = some c → other.Reaches entry c) :
    script.find? name = other.find? name := by
  ext c
  exact ⟨find?_of_reaches hsame hreaches, find?_of_reaches (fun c => (hsame c).symm) hreaches'⟩

/-- Scripts with the same reachable commands are alike for the search. -/
theorem alike_of_reaches (hsame : ∀ c, script.Reaches entry c ↔ other.Reaches entry c) :
    Alike script.commands other.commands [entry] where
  asked := by
    intro name hname
    rw [List.mem_singleton.1 hname]
    exact find?_eq_of_reaches hsame (fun c hc => ⟨c, hc, .refl⟩) fun c hc => ⟨c, hc, .refl⟩
  mentioned := by
    intro parent hparent name hname
    have hmem : parent ∈ script.reachable entry := (mem_visit_iff _ _ parent).2 hparent
    have hreaches := mem_reachable.1 hmem
    refine find?_eq_of_reaches hsame (fun c hc => ?_) fun c hc => ?_
    · exact mem_reachable.1 (mem_reachable_of_mentions hmem ⟨name, hname, hc⟩)
    · have hmem' := mem_reachable.2 ((hsame parent).1 hreaches)
      exact mem_reachable.1 (mem_reachable_of_mentions hmem' ⟨name, hname, hc⟩)

end Same
end Script

/-- **The code depends on the reachable commands only.**  Where the same commands can be reached in
two scripts, they are listed in the same order, and the program or the fault in it is the same.  A
name that a reachable command mentions then means the same in both scripts, or nothing in both,
since what it means is reachable as well; that no two commands have the same name is not needed,
since only the first command of a name can be reached. -/
theorem code_depends_on_reachable {script other : Script} {entry : String}
    (hsame : ∀ c, script.Reaches entry c ↔ other.Reaches entry c) :
    script.reachable entry = other.reachable entry ∧
      Program.ofCommands (script.reachable entry) = Program.ofCommands (other.reachable entry) := by
  have hlist : script.reachable entry = other.reachable entry :=
    (Script.alike_of_reaches hsame).visit_eq
  exact ⟨hlist, congrArg Program.ofCommands hlist⟩

/-- A command that calls another one twice. -/
def outing : Command :=
  ⟨0, ⟨"outing", 8⟩, [], .mk 17 [.call ⟨⟨"around", 21⟩, []⟩, .call ⟨⟨"around", 31⟩, []⟩] 40⟩

/-- A command that calls itself and built-in ones. -/
def around : Command :=
  ⟨42, ⟨"around", 50⟩, [], .mk 58 [.call ⟨⟨"turnLeft", 62⟩, []⟩, .call ⟨⟨"around", 75⟩, []⟩] 84⟩

/-- A command that calls another one. -/
def spare : Command :=
  ⟨86, ⟨"spare", 94⟩, [], .mk 102 [.call ⟨⟨"outing", 106⟩, []⟩] 116⟩

theorem code_depends_on_reachable_outing :
    (∀ c, (Script.mk [outing, around]).Reaches "outing" c ↔
        (Script.mk [around, spare, outing]).Reaches "outing" c) ∧
      (Script.mk [outing, around]).reachable "outing" =
        (Script.mk [around, spare, outing]).reachable "outing" ∧
      Program.ofCommands ((Script.mk [outing, around]).reachable "outing") =
        Program.ofCommands ((Script.mk [around, spare, outing]).reachable "outing") := by
  have hfirst : (Script.mk [outing, around]).reachable "outing" = [outing, around] := by
    with_unfolding_all rfl
  have hsecond : (Script.mk [around, spare, outing]).reachable "outing" = [outing, around] := by
    with_unfolding_all rfl
  have hsame : ∀ c, (Script.mk [outing, around]).Reaches "outing" c ↔
      (Script.mk [around, spare, outing]).Reaches "outing" c := by
    intro c
    rw [← Script.mem_reachable, ← Script.mem_reachable, hfirst, hsecond]
  exact ⟨hsame, code_depends_on_reachable hsame⟩

end KarelRobot
