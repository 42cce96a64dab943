import KarelRobot.Script.CallGraph

/-!
# Induction over scripts

Statements, blocks and lists of statements are built from each other.  A list of statements can be
looked at as the block that consists of it, and then statements alone are enough to do induction
on: a block is empty, or it is a statement followed by a shorter block.

* `Statement.induction` — the principle.
* `Block.calls_eq` — the calls of a block are those that a walk over it meets.
* `Statement.Everywhere` — a property of all statements that a walk meets.
* `bind_eq_ok`, `getElem?_of_mapM_eq_ok`, `exists_mapM_eq_ok` — how a computation that may fail
  succeeds, and `mapM_eq_error_iff` how it fails.
-/

set_option autoImplicit false
namespace KarelRobot

/-- Induction over statements, with lists of statements in the form of blocks. -/
@[elab_as_elim] theorem Statement.induction {P : Statement → Prop}
    (call : ∀ c, P (.call c))
    (nil : ∀ opening closing, P (.block (.mk opening [] closing)))
    (cons : ∀ opening first following closing, P first →
      P (.block (.mk opening following closing)) →
      P (.block (.mk opening (first :: following) closing)))
    (repeatTimes : ∀ position times body, P (.block body) → P (.repeatTimes position times body))
    (ifThen : ∀ position condition body, P (.block body) → P (.ifThen position condition body))
    (ifElse : ∀ position condition body otherwise, P (.block body) → P otherwise →
      P (.ifElse position condition body otherwise))
    (whileLoop : ∀ position condition body, P (.block body) →
      P (.whileLoop position condition body)) (s : Statement) : P s :=
  @Statement.rec P (fun body => P (.block body))
    (fun statements => ∀ opening closing, P (.block (.mk opening statements closing)))
    call repeatTimes ifThen ifElse whileLoop (fun _ hbody => hbody)
    (fun opening _ closing hstatements => hstatements opening closing) nil
    (fun first following hfirst hfollowing opening closing =>
      cons opening first following closing hfirst (hfollowing opening closing)) s

/-! ## Walks and calls -/

/-- The calls of a statement are those that a walk over it meets. -/
theorem Statement.calls_eq (s : Statement) : s.calls = s.walk.filterMap Statement.call? := by
  induction s using Statement.induction with
  | call c => rfl
  | nil opening closing => rfl
  | cons opening first following closing hfirst hfollowing =>
    simp only [Statement.calls, Block.calls, Statement.callsAll, Statement.walk, Block.walk,
      Statement.walkAll, List.filterMap_cons, Statement.call?, List.filterMap_append] at *
    rw [hfirst, hfollowing]
  | repeatTimes position times body hbody => exact hbody
  | ifThen position condition body hbody => exact hbody
  | ifElse position condition body otherwise hbody hother =>
    simp only [Statement.calls, Statement.walk, List.filterMap_cons, Statement.call?,
      List.filterMap_append] at *
    rw [hbody, hother]
  | whileLoop position condition body hbody => exact hbody

theorem Block.calls_eq (b : Block) : b.calls = b.walk.filterMap Statement.call? := by
  exact Statement.calls_eq (.block b)

/-! ## Properties of all parts of a statement -/

namespace Statement

/-- A property holds of a statement and of all statements inside it. -/
def Everywhere (P : Statement → Prop) (s : Statement) : Prop :=
  ∀ part ∈ s.walk, P part

variable {P : Statement → Prop}

theorem everywhere_call {c : Call} : (Statement.call c).Everywhere P ↔ P (.call c) :=
  List.forall_mem_singleton

/-- A block counts as a statement itself, so a property that blocks have anyway passes from a
statement to the blocks inside it. -/
theorem Everywhere.block {s : Statement} {body : Block} (h : s.Everywhere P)
    (hblock : ∀ b, P (.block b)) (hbody : body.walk ⊆ s.walk) :
    (Statement.block body).Everywhere P :=
  List.forall_mem_cons.2 ⟨hblock body, fun part hpart => h part (hbody hpart)⟩

end Statement

/-! ## Computations that may fail -/

theorem bind_eq_ok {ε α β : Type} {x : Except ε α} {f : α → Except ε β} {b : β} :
    (x >>= f) = .ok b ↔ ∃ a, x = .ok a ∧ f a = .ok b := by
  cases x with
  | error e =>
    constructor
    · intro h
      cases h
    · rintro ⟨a, ha, -⟩
      cases ha
  | ok a =>
    constructor
    · exact fun h => ⟨a, rfl, h⟩
    · rintro ⟨a, ha, hf⟩
      cases ha
      exact hf

theorem pure_eq_ok {ε α : Type} {a b : α} : (pure a : Except ε α) = .ok b ↔ a = b := by
  constructor
  · intro h
    cases h
    rfl
  · rintro rfl
    rfl

theorem bind_pure_eq_error {ε α β : Type} {x : Except ε α} {f : α → β} {e : ε} :
    (x >>= fun a => pure (f a)) = .error e ↔ x = .error e := by
  cases x with
  | error e' =>
    constructor
    · rintro ⟨⟩
      rfl
    · rintro ⟨⟩
      rfl
  | ok a => exact ⟨nofun, nofun⟩

theorem exists_ok_of_any {ε α : Type} {x : Except ε α} {f : α → Bool}
    (h : x.toOption.any f = true) : ∃ a, x = .ok a ∧ f a = true := by
  cases x with
  | error e => cases h
  | ok a => exact ⟨a, rfl, h⟩

/-- A list whose members are all computed has each result in the place of its member. -/
theorem getElem?_of_mapM_eq_ok {ε α β : Type} {f : α → Except ε β} {xs : List α} {ys : List β}
    (h : xs.mapM f = .ok ys) :
    xs.length = ys.length ∧
      ∀ (i : Nat) (x : α), xs[i]? = some x → ∃ y, f x = .ok y ∧ ys[i]? = some y := by
  induction xs generalizing ys with
  | nil =>
    rw [List.mapM_nil, pure_eq_ok] at h
    subst h
    exact ⟨rfl, fun i x hx => by simp at hx⟩
  | cons x xs ih =>
    rw [List.mapM_cons, bind_eq_ok] at h
    obtain ⟨y, hy, h⟩ := h
    rw [bind_eq_ok] at h
    obtain ⟨ys, hys, h⟩ := h
    rw [pure_eq_ok] at h
    subst h
    obtain ⟨hlen, hget⟩ := ih hys
    refine ⟨by rw [List.length_cons, List.length_cons, hlen], fun i z hz => ?_⟩
    cases i with
    | zero => cases hz; exact ⟨y, hy, rfl⟩
    | succ i => exact hget i z hz

/-- A list whose members can all be computed can be computed. -/
theorem exists_mapM_eq_ok {ε α β : Type} {f : α → Except ε β} {xs : List α}
    (h : ∀ x ∈ xs, ∃ y, f x = .ok y) : ∃ ys, xs.mapM f = .ok ys := by
  induction xs with
  | nil => exact ⟨[], rfl⟩
  | cons x xs ih =>
    obtain ⟨y, hy⟩ := h x List.mem_cons_self
    obtain ⟨ys, hys⟩ := ih fun z hz => h z (List.mem_cons_of_mem _ hz)
    exact ⟨y :: ys, by rw [List.mapM_cons, hy, hys]; rfl⟩

/-- A list whose members are computed one after the other fails with the first of them that
fails. -/
theorem mapM_eq_error_iff {ε α β : Type} {f : α → Except ε β} {xs : List α} {e : ε} :
    xs.mapM f = .error e ↔ ∃ x, xs.find? (fun x => !(f x).isOk) = some x ∧ f x = .error e := by
  induction xs with
  | nil =>
    rw [List.mapM_nil]
    exact ⟨nofun, fun ⟨x, hx, _⟩ => nomatch hx⟩
  | cons x xs ih =>
    rw [List.mapM_cons, List.find?_cons]
    cases hx : f x with
    | error e' =>
      constructor
      · rintro ⟨⟩
        exact ⟨x, rfl, hx⟩
      · rintro ⟨_, ⟨⟩, hy⟩
        rw [hx] at hy
        cases hy
        rfl
    | ok y =>
      refine Iff.trans ?_ ih
      cases xs.mapM f with
      | error e' => exact .rfl
      | ok ys => exact ⟨nofun, nofun⟩

end KarelRobot
