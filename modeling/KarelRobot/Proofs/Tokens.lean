import KarelRobot.Proofs.Reading
import Mathlib.Data.List.Forall2
import Mathlib.Data.List.Nodup

/-!
# Tokens and the trees they spell

Tokens stand behind one another, so a position belongs to one token only, and what a tree keeps of
its tokens keeps their order.

* `Scan.pairwise_position` — the positions of the tokens of a text increase.
* `Grammar.Starts` — the first token of a statement.
* `Grammar.Spells.inOrder` — the statements that a walk meets start in the order of the tokens.
* `Script.call_eq_of_position` — two calls of a script with their targets at one position are one.
* `Script.inRange_of_parse` — the loops of a script are repeated a number of times that fits.
-/

set_option autoImplicit false
namespace KarelRobot

/-! ## Positions of tokens -/

namespace Cursor

theorem le_skip_position (gap : Gap) (position : Nat) (cs : List Char) :
    position ≤ (skip gap position cs).1.position := by
  fun_induction skip gap position cs <;> grind

/-- A token stands behind the cursor, and the cursor goes on behind the token. -/
theorem next_position {cursor after : Cursor} {t : Token} (h : cursor.next = (.ok t, after))
    (ht : t.kind ≠ .endOfInput) : cursor.position ≤ t.position ∧ t.position < after.position := by
  have hskip := le_skip_position .code cursor.position cursor.rest
  unfold next at h
  split at h
  · simp at h
  next here hhere =>
    split at h
    · simp at h
    next kind length hclassify =>
      simp only [Prod.mk.injEq, Except.ok.injEq] at h
      obtain ⟨rfl, rfl⟩ := h
      have hlength := (classify_pos hclassify ht).1
      rw [hhere] at hskip
      exact ⟨hskip, Nat.lt_add_of_pos_right hlength⟩

end Cursor

namespace Scan

theorem ofCursor_position (cursor : Cursor) :
    (ofCursor cursor).tokens.Pairwise (fun t u => t.position < u.position) ∧
      ∀ t ∈ (ofCursor cursor).tokens, cursor.position ≤ t.position := by
  fun_induction ofCursor cursor with
  | case1 cursor => exact ⟨.nil, fun t ht => by cases ht⟩
  | case2 cursor => exact ⟨.nil, fun t ht => by cases ht⟩
  | case3 cursor t after h hkind following ih =>
    obtain ⟨hpairwise, hbound⟩ := ih
    obtain ⟨hle, hlt⟩ := Cursor.next_position h hkind
    refine ⟨List.pairwise_cons.2 ⟨fun u hu => Nat.lt_of_lt_of_le hlt (hbound u hu), hpairwise⟩,
      fun u hu => ?_⟩
    rcases List.mem_cons.1 hu with rfl | hu
    · exact hle
    · have := hbound u hu
      omega

/-- The positions of the tokens of a text increase. -/
theorem pairwise_position (source : String) :
    (ofText source).tokens.Pairwise fun t u => t.position < u.position :=
  (ofCursor_position _).1

theorem nodup_position (source : String) : ((ofText source).tokens.map Token.position).Nodup :=
  List.pairwise_map.2 ((pairwise_position source).imp Nat.ne_of_lt)

end Scan

/-! ## What a tree keeps of its tokens -/

namespace Grammar

/-- The statements in a piece of a command.  A block is one of them. -/
def Tree.walk : Tree → List Statement
  | statement s => s.walk
  | statements ss => Statement.walkAll ss
  | block b => .block b :: b.walk

/-- A statement as a piece of a command.  A block that is an alternative is spelt like any block. -/
def Tree.ofStatement : Statement → Tree
  | .block body => .block body
  | s => .statement s

theorem Spells.head?_position {ts : List Token} {s : Statement} (h : Spells ts (.ofStatement s)) :
    ts.head?.map Token.position = some s.position := by
  cases s with
  | call => cases h with | call => rfl
  | repeatTimes => cases h with | repeatTimes => rfl
  | ifThen => cases h with | ifThen => rfl
  | ifElse => cases h with | ifElseBlock | ifElseIf => rfl
  | whileLoop => cases h with | whileLoop => rfl
  | block => cases h with | block => rfl

/-- In `tokens` stands the statement `s`, and its first token is `t`. -/
def Starts (tokens : List Token) (s : Statement) (t : Token) : Prop :=
  ∃ ts, t :: ts <:+: tokens ∧ Spells (t :: ts) (.ofStatement s)

/-- The position of a statement is that of its first token. -/
theorem Starts.position_eq {tokens : List Token} {s : Statement} {t : Token}
    (h : Starts tokens s t) : t.position = s.position := by
  obtain ⟨ts, -, hspells⟩ := h
  exact Option.some.inj hspells.head?_position

theorem Starts.mono {ts us : List Token} {s : Statement} {t : Token} (h : Starts ts s t)
    (hts : ts <:+: us) : Starts us s t := by
  obtain ⟨vs, hvs, hspells⟩ := h
  exact ⟨vs, hvs.trans hts, hspells⟩

/-- Statements stand in `tokens`, and their first tokens are in the order of the statements. -/
def InOrder (tokens : List Token) (ss : List Statement) : Prop :=
  ∃ firsts, List.Forall₂ (Starts tokens) ss firsts ∧ firsts.Sublist tokens

namespace InOrder

variable {ts us : List Token} {ss ss' : List Statement} {s : Statement} {t : Token}

theorem nil (ts : List Token) : InOrder ts [] :=
  ⟨[], .nil, List.nil_sublist ts⟩

theorem mono (h : InOrder ts ss) (hts : ts <:+: us) : InOrder us ss := by
  obtain ⟨firsts, hstarts, hsublist⟩ := h
  exact ⟨firsts, hstarts.imp fun _ _ hstart => hstart.mono hts, hsublist.trans hts.sublist⟩

/-- A statement comes before what is inside it. -/
theorem cons (hs : Spells (t :: ts) (.ofStatement s)) (h : InOrder ts ss) :
    InOrder (t :: ts) (s :: ss) := by
  obtain ⟨firsts, hstarts, hsublist⟩ := h
  refine ⟨t :: firsts, .cons ⟨ts, List.infix_refl _, hs⟩ (hstarts.imp fun _ _ hstart => ?_),
    hsublist.cons_cons t⟩
  exact hstart.mono (List.suffix_cons t ts).isInfix

/-- Statements stand behind one another if their tokens do. -/
theorem append (h : InOrder ts ss) (h' : InOrder us ss') : InOrder (ts ++ us) (ss ++ ss') := by
  obtain ⟨firsts, hstarts, hsublist⟩ := h
  obtain ⟨firsts', hstarts', hsublist'⟩ := h'
  refine ⟨firsts ++ firsts', List.rel_append (hstarts.imp fun _ _ hstart => ?_)
    (hstarts'.imp fun _ _ hstart => ?_), hsublist.append hsublist'⟩
  · exact hstart.mono (List.prefix_append ts us).isInfix
  · exact hstart.mono (List.suffix_append ts us).isInfix

theorem behind (ts : List Token) (h : InOrder us ss) : InOrder (ts ++ us) ss :=
  (nil ts).append h

theorem of_append_left (h : InOrder ts (ss ++ ss')) : InOrder ts ss := by
  obtain ⟨firsts, hstarts, hsublist⟩ := h
  have htake := List.forall₂_take ss.length hstarts
  rw [List.take_left] at htake
  exact ⟨_, htake, (List.take_sublist _ _).trans hsublist⟩

theorem of_append_right (h : InOrder ts (ss ++ ss')) : InOrder ts ss' := by
  obtain ⟨firsts, hstarts, hsublist⟩ := h
  have hdrop := List.forall₂_drop ss.length hstarts
  rw [List.drop_left] at hdrop
  exact ⟨_, hdrop, (List.drop_sublist _ _).trans hsublist⟩

theorem of_cons (h : InOrder ts (s :: ss)) : InOrder ts ss := by
  rw [← List.singleton_append] at h
  exact h.of_append_right

/-- The positions of the statements are positions of tokens, in their order. -/
theorem sublist_position (h : InOrder ts ss) :
    (ss.map Statement.position).Sublist (ts.map Token.position) := by
  obtain ⟨firsts, hstarts, hsublist⟩ := h
  have hpositions : ss.map Statement.position = firsts.map Token.position := by
    clear hsublist
    induction hstarts with
    | nil => rfl
    | cons hstart _ ih => rw [List.map_cons, List.map_cons, hstart.position_eq, ih]
  rw [hpositions]
  exact hsublist.map Token.position

end InOrder

/-- **The statements of a tree start in the order in which a walk meets them.** -/
theorem Spells.inOrder {ts : List Token} {tree : Tree} (h : Spells ts tree) :
    InOrder ts tree.walk := by
  induction h with
  | call ht harguments hsemicolon => exact .cons (.call ht harguments hsemicolon) (.nil _)
  | repeatTimes hkeyword hopening hnumeral hvalue hrange hclosing hbody ih =>
    exact .cons (.repeatTimes hkeyword hopening hnumeral hvalue hrange hclosing hbody)
      (ih.of_cons.behind [_, _, _])
  | whileLoop hkeyword hc hbody ih =>
    exact .cons (.whileLoop hkeyword hc hbody) (ih.of_cons.behind _)
  | ifThen hkeyword hc hbody ih => exact .cons (.ifThen hkeyword hc hbody) (ih.of_cons.behind _)
  -- The body of a statement is not met as a block, but a block that is an alternative is.
  | ifElseBlock hkeyword hc hbody helse hotherwise ihbody ihother =>
    exact .cons (.ifElseBlock hkeyword hc hbody helse hotherwise)
      ((ihbody.of_cons.behind _).append (ihother.behind [_]))
  | ifElseIf hkeyword hc hbody helse hnext hotherwise ihbody ihother =>
    exact .cons (.ifElseIf hkeyword hc hbody helse hnext hotherwise)
      ((ihbody.of_cons.behind _).append (ihother.behind [_]))
  | nil => exact .nil _
  | cons _ _ ihfirst ihfollowing => exact ihfirst.append ihfollowing
  | block hopening hstatements hclosing ih =>
    exact .cons (.block hopening hstatements hclosing) (ih.mono (List.prefix_append _ _).isInfix)

theorem Definition.inOrder {ts : List Token} {c : Command} (h : Definition ts c) :
    InOrder ts c.body.walk := by
  cases h with
  | @mk void name _ _ _ _ _ _ _ hbody =>
    exact (hbody.inOrder.of_cons.behind _).behind [void, name]

theorem Definitions.inOrder {ts : List Token} {cs : List Command} (h : Definitions ts cs) :
    InOrder ts (cs.flatMap fun c => c.body.walk) := by
  induction h with
  | nil => exact .nil _
  | cons hfirst _ ih =>
    rw [List.flatMap_cons]
    exact hfirst.inOrder.append ih

end Grammar

/-! ## Loops in range -/

/-- A loop is repeated a number of times that fits into an instruction and is at least two. -/
def Statement.InRange : Statement → Prop
  | .repeatTimes _ times _ => Reader.repeatRange.1 ≤ times ∧ times ≤ Reader.repeatRange.2
  | _ => True

theorem Grammar.Spells.inRange {ts : List Token} {tree : Grammar.Tree}
    (h : Grammar.Spells ts tree) : ∀ s ∈ tree.walk, s.InRange := by
  induction h with
  | call => exact List.forall_mem_singleton.2 trivial
  | repeatTimes _ _ _ _ hrange _ _ ih =>
    exact List.forall_mem_cons.2 ⟨hrange, (List.forall_mem_cons.1 ih).2⟩
  | whileLoop _ _ _ ih | ifThen _ _ _ ih =>
    exact List.forall_mem_cons.2 ⟨trivial, (List.forall_mem_cons.1 ih).2⟩
  | ifElseBlock _ _ _ _ _ ihbody ihother | ifElseIf _ _ _ _ _ _ ihbody ihother =>
    refine List.forall_mem_cons.2 ⟨trivial, List.forall_mem_append.2 ⟨?_, ihother⟩⟩
    exact (List.forall_mem_cons.1 ihbody).2
  | nil => exact fun s hs => by cases hs
  | cons _ _ ihfirst ihfollowing => exact List.forall_mem_append.2 ⟨ihfirst, ihfollowing⟩
  | block _ _ _ ih => exact List.forall_mem_cons.2 ⟨trivial, ih⟩

theorem Grammar.Definitions.inRange {ts : List Token} {cs : List Command}
    (h : Grammar.Definitions ts cs) : ∀ c ∈ cs, ∀ s ∈ c.body.walk, s.InRange := by
  induction h with
  | nil => exact fun c hc => by cases hc
  | cons hfirst _ ih =>
    refine List.forall_mem_cons.2 ⟨?_, ih⟩
    cases hfirst with
    | mk _ _ _ hbody => exact (List.forall_mem_cons.1 hbody.inRange).2

/-! ## Scripts -/

namespace Script

/-- All calls of a script, in source order. -/
def calls (script : Script) : List Call :=
  script.commands.flatMap fun c => c.body.calls

/-- All statements of a script, in source order. -/
def statements (script : Script) : List Statement :=
  script.commands.flatMap fun c => c.body.walk

theorem call_mem_statements {script : Script} {c : Call} (hc : c ∈ script.calls) :
    .call c ∈ script.statements := by
  obtain ⟨command, hcommand, hc⟩ := List.mem_flatMap.1 hc
  rw [Block.calls_eq, List.mem_filterMap] at hc
  obtain ⟨s, hs, hcall⟩ := hc
  cases s <;> cases hcall
  exact List.mem_flatMap.2 ⟨command, hcommand, hs⟩

/-- **Its position identifies a statement.** -/
theorem statement_eq_of_position {source : String} {script : Script}
    (h : Script.parse source = .ok script) {s t : Statement} (hs : s ∈ script.statements)
    (ht : t ∈ script.statements) (hposition : s.position = t.position) : s = t := by
  obtain ⟨-, hspells, -⟩ := parse_sound h
  have hnodup := (Scan.nodup_position source).sublist hspells.inOrder.sublist_position
  exact List.inj_on_of_nodup_map hnodup hs ht hposition

/-- **The position of its target identifies a call.** -/
theorem call_eq_of_position {source : String} {script : Script}
    (h : Script.parse source = .ok script) {c d : Call} (hc : c ∈ script.calls)
    (hd : d ∈ script.calls) (hposition : c.target.position = d.target.position) : c = d :=
  Statement.call.inj
    (statement_eq_of_position h (call_mem_statements hc) (call_mem_statements hd) hposition)

theorem inRange_of_parse {source : String} {script : Script}
    (h : Script.parse source = .ok script) {c : Command} (hc : c ∈ script.commands) :
    ∀ s ∈ c.body.walk, s.InRange := by
  obtain ⟨-, hspells, -⟩ := parse_sound h
  exact hspells.inRange c hc

end Script
end KarelRobot
