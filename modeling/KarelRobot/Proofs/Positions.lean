import KarelRobot.Proofs.Rejection

/-!
# Diagnostics point into the source

Positions are worked out in many ways: where a character starts nothing, behind the token that
something is missing after, at a brace that was read before, in the middle of a name from where it
differs from the one that was perhaps meant.  All of them lie in the source.  The scanner hands out
tokens that do; each rule of the reader points at tokens that it has seen and keeps their places in
its trees, with `Reader.Keeps.bind` wherever it goes on behind a smaller rule; and whatever is found
wrong later is found at a place that a tree has kept.

* `Diagnostic.Within` — a diagnostic and what it marks lie in a text of so many characters.
* `Scan.within_ofText` — the tokens of a text lie in it.
* `Points`, `Reader.Keeps` — a computation, and a rule of the reader, that fails within a text only.
* `Script.parse_points` — so does reading a script, which keeps to the text otherwise.
* `diagnostics_point_into_source` — and so does compiling.
-/

set_option autoImplicit false
namespace KarelRobot

open Token (Kind)

variable {n : Nat}

/-! ## Places in a text -/

/-- A diagnostic points into a text of `n` characters, or right behind it, and so does the end of
what it marks. -/
def Diagnostic.Within (n : Nat) (d : Diagnostic) : Prop :=
  d.position + d.highlight.getD 0 ≤ n

/-- A token ends within `n` characters. -/
def Token.Within (n : Nat) (t : Token) : Prop :=
  t.endPosition ≤ n

/-- A name ends within `n` characters. -/
def Ident.Within (n : Nat) (ident : Ident) : Prop :=
  ident.position + ident.text.length ≤ n

/-- A text ends within `n` characters, or has a fault there. -/
def Ending.Within (n : Nat) : Ending → Prop
  | .endOfInput position => position ≤ n
  | .fault d => d.Within n

theorem Token.Within.position_le {t : Token} (h : t.Within n) : t.position ≤ n :=
  Nat.le_trans (Nat.le_add_right _ _) h

theorem Ident.Within.position_le {ident : Ident} (h : ident.Within n) : ident.position ≤ n :=
  Nat.le_trans (Nat.le_add_right _ _) h

theorem Text.commonLengthList_le (as bs : List Char) : commonLengthList as bs ≤ as.length := by
  fun_induction commonLengthList as bs <;> simp_all

/-- What differs between a name and a suggestion lies inside the name. -/
theorem Diagnostic.within_unknownName {name : String} {position : Nat}
    (h : position + name.length ≤ n) (headline : Option String) (candidates : List String) :
    (unknownName name position headline candidates).Within n := by
  simp only [unknownName]
  split
  next only _ =>
    have hcommon : Text.commonLength name only ≤ name.length := by
      rw [← String.length_toList]
      exact Text.commonLengthList_le _ _
    simp only [Within, Option.getD_some]
    omega
  · exact Nat.le_trans (Nat.le_add_right _ _) h

/-! ## Tokens -/

namespace Cursor

/-- A comment was opened before a position. -/
def Gap.OpenedBy (position : Nat) : Gap → Prop
  | blockComment start => start ≤ position
  | code | lineComment => True

/-- Skipping stays in the text, and what is wrong with a comment is wrong there. -/
theorem skip_within (gap : Gap) (position : Nat) (cs : List Char)
    (hgap : gap.OpenedBy position) (hn : position + cs.length = n) :
    (skip gap position cs).1.position + (skip gap position cs).1.rest.length = n ∧
      ∀ d, (skip gap position cs).2 = some d → d.Within n := by
  fun_induction skip gap position cs <;> grind [Gap.OpenedBy, Diagnostic.Within]

/-- A token is no longer than the text that it begins. -/
theorem classify_ok_le {cs : List Char} {kind : Kind} {length : Nat}
    (h : classify cs = .ok (kind, length)) : length ≤ cs.length := by
  have hdigits (cs : List Char) := (List.takeWhile_prefix (l := cs) Char.isDigit).length_le
  have hwords (cs : List Char) := (List.takeWhile_prefix (l := cs) isWordPart).length_le
  unfold classify at h
  grind

/-- What is no token is wrong at its first character or right behind it. -/
theorem classify_error_le {cs : List Char} {problem : Problem} {offset : Nat}
    (h : classify cs = .error (problem, offset)) : offset ≤ cs.length := by
  unfold classify at h
  grind

/-- The next token, the fault in its place and the rest of the text lie in the text. -/
theorem next_within {cursor : Cursor} (hn : cursor.position + cursor.rest.length = n) :
    (∀ d after, cursor.next = (.error d, after) → d.Within n) ∧
      ∀ t after, cursor.next = (.ok t, after) →
        t.Within n ∧ after.position + after.rest.length = n := by
  obtain ⟨hspan, hfault⟩ := skip_within .code cursor.position cursor.rest trivial hn
  unfold next
  split
  next here fault hhere =>
    rw [hhere] at hfault
    refine ⟨fun d after h => ?_, nofun⟩
    cases h
    exact hfault _ rfl
  next here hhere =>
    rw [hhere] at hspan
    dsimp only at hspan
    split
    next problem offset hclassify =>
      have hoffset := classify_error_le hclassify
      refine ⟨fun d after h => ?_, nofun⟩
      cases h
      simp only [Diagnostic.Within, Option.getD_none]
      omega
    next kind length hclassify =>
      have hlength := classify_ok_le hclassify
      refine ⟨nofun, fun t after h => ?_⟩
      cases h
      simp only [Token.Within, Token.endPosition, String.length_ofList, List.length_take,
        List.length_drop]
      omega

end Cursor

/-- The tokens of a text and its end lie in the text. -/
structure Scan.Within (n : Nat) (scan : Scan) : Prop where
  tokens : ∀ t ∈ scan.tokens, t.Within n
  ending : scan.ending.Within n

theorem Scan.within_ofCursor (cursor : Cursor) (hn : cursor.position + cursor.rest.length = n) :
    (ofCursor cursor).Within n := by
  obtain ⟨hfault, htoken⟩ := Cursor.next_within hn
  fun_induction ofCursor cursor with
  | case1 cursor d after h => exact ⟨List.forall_mem_nil _, hfault _ _ h⟩
  | case2 cursor t after h hkind =>
    exact ⟨List.forall_mem_nil _, (htoken _ _ h).1.position_le⟩
  | case3 cursor t after h hkind following ih =>
    obtain ⟨ht, hafter⟩ := htoken _ _ h
    obtain ⟨hfault', htoken'⟩ := Cursor.next_within hafter
    have hfollowing := ih hafter hfault' htoken'
    exact ⟨List.forall_mem_cons.2 ⟨ht, hfollowing.tokens⟩, hfollowing.ending⟩

theorem Scan.within_ofText (source : String) : (ofText source).Within source.length :=
  within_ofCursor _ (by simp [Cursor.ofText, String.length_toList])

/-! ## Computations that may fail -/

/-- A computation succeeds with a result of a kind, or fails within `n` characters. -/
inductive Points (n : Nat) {α : Type} (P : α → Prop) : Except Diagnostic α → Prop
  | ok {a : α} (h : P a) : Points n P (.ok a)
  | error {d : Diagnostic} (h : d.Within n) : Points n P (.error d)

theorem Points.bind {α β : Type} {P : α → Prop} {Q : β → Prop} {x : Except Diagnostic α}
    {k : α → Except Diagnostic β} (h : Points n P x) (hk : ∀ a, P a → Points n Q (k a)) :
    Points n Q (x >>= k) := by
  cases h with
  | ok h => exact hk _ h
  | error h => exact .error h

/-! ## Trees -/

/-- What a diagnostic can point at in a statement: the names of a call, and the word that starts a
loop with a condition. -/
def Statement.Marked (n : Nat) : Statement → Prop
  | .call c => ∀ ident ∈ c.references, ident.Within n
  | .whileLoop position _ _ => position ≤ n
  | _ => True

/-- The statements inside a block are marked within `n` characters. -/
def Block.Within (n : Nat) (b : Block) : Prop :=
  ∀ s ∈ b.walk, s.Marked n

/-- The name, the parameters and the statements of a command are marked within `n` characters. -/
structure Command.Within (n : Nat) (c : Command) : Prop where
  ident : c.ident.Within n
  parameters : ∀ parameter ∈ c.parameters, parameter.Within n
  body : c.body.Within n

namespace Reader

/-- All that a reader can point at lies within `n` characters. -/
structure Within (n : Nat) (r : Reader) : Prop where
  tokens : ∀ t ∈ r.tokens, t.Within n
  ending : r.ending.Within n
  previous : r.previous ≤ n
  previousEnd : r.previousEnd ≤ n

/-- A rule makes a value of a kind and leaves a reader within `n` characters, or it fails there. -/
def Keeps (n : Nat) {α : Type} (P : α → Prop) {r : Reader} :
    Except Diagnostic (Reading α r) → Prop :=
  Points n fun v => P v.value ∧ v.rest.Within n

section Rules

variable {r : Reader}

/-- A rule that begins with a smaller one. -/
theorem Keeps.bind {α β : Type} {P : α → Prop} {Q : β → Prop}
    {x : Except Diagnostic (Reading α r)} {k : Reading α r → Except Diagnostic β}
    (h : Keeps n P x)
    (hk : ∀ a rest hrest, P a → rest.Within n → Points n Q (k ⟨a, rest, hrest⟩)) :
    Points n Q (x >>= k) :=
  Points.bind h fun ⟨a, rest, hrest⟩ ⟨ha, hwithin⟩ => hk a rest hrest ha hwithin

theorem Within.current (h : r.Within n) : r.current.Within n := by
  obtain ⟨tokens, ending, previous, previousEnd, recorded⟩ := r
  cases tokens with
  | cons t tokens => exact h.tokens t List.mem_cons_self
  | nil =>
    have hending := h.ending
    cases ending with
    | endOfInput position => exact hending
    | fault d => exact Nat.le_trans (Nat.le_add_right _ _) hending

theorem Within.fail {α : Type} {P : α → Prop} (h : r.Within n) (problem : Problem) :
    Points n P (r.fail problem) :=
  .error h.current.position_le

/-- A reader never points at the calls that it has recorded. -/
theorem Within.recorded (h : r.Within n) (calls : List Call) :
    Within n { r with recorded := calls } :=
  ⟨h.tokens, h.ending, h.previous, h.previousEnd⟩

/-! ## Single tokens and names -/

theorem inView_points (tokens : List Token) {ending : Ending} (h : ending.Within n) :
    Points n (fun _ => True) (inView tokens ending) := by
  match tokens, ending with
  | [], .endOfInput _ | [_], .endOfInput _ => exact .ok trivial
  | [], .fault d | [_], .fault d => exact .error h
  | _ :: _ :: _, _ => exact .ok trivial

theorem expect_keeps (kind : Kind) (h : r.Within n) :
    Keeps n (Token.Within n) (expect kind r) := by
  have hmissing : (⟨r.previousEnd, .missing kind, none⟩ : Diagnostic).Within n := h.previousEnd
  unfold expect
  split
  · exact .error hmissing
  next t tokens htokens =>
    have hall := h.tokens
    rw [htokens, List.forall_mem_cons] at hall
    split
    · exact (inView_points tokens h.ending).bind fun _ _ =>
        .ok ⟨hall.1, hall.2, h.ending, hall.1.position_le, hall.1⟩
    · exact .error hmissing

theorem ident_keeps (h : r.Within n) : Keeps n (Ident.Within n) (ident r) := by
  rw [ident]
  exact (expect_keeps .identifier h).bind fun t r₁ h₁ ht hr₁ => .ok ⟨ht, hr₁⟩

theorem emptyParens_keeps (h : r.Within n) : Keeps n (fun _ => True) (emptyParens r) := by
  rw [emptyParens]
  refine (expect_keeps .openingParen h).bind fun _ r₁ h₁ _ hr₁ => ?_
  exact (expect_keeps .closingParen hr₁).bind fun _ r₂ h₂ _ hr₂ => .ok ⟨trivial, hr₂⟩

theorem identList_keeps {r : Reader} (h : r.Within n) :
    Keeps n (fun idents => ∀ ident ∈ idents, ident.Within n) (identList r) := by
  rw [identList]
  refine (ident_keeps h).bind fun first r₁ h₁ hfirst hr₁ => ?_
  dsimp only
  split
  · refine (expect_keeps .comma hr₁).bind fun _ r₂ h₂ _ hr₂ => ?_
    exact (identList_keeps hr₂).bind fun following r₃ h₃ hfollowing hr₃ =>
      .ok ⟨List.forall_mem_cons.2 ⟨hfirst, hfollowing⟩, hr₃⟩
  · exact .ok ⟨List.forall_mem_singleton.2 hfirst, hr₁⟩
termination_by r.tokens.length

theorem arguments_keeps (h : r.Within n) :
    Keeps n (fun idents => ∀ ident ∈ idents, ident.Within n) (arguments r) := by
  rw [arguments]
  refine (expect_keeps .openingParen h).bind fun _ r₁ h₁ _ hr₁ => ?_
  dsimp only
  split
  · refine (identList_keeps hr₁).bind fun idents r₂ h₂ hidents hr₂ => ?_
    exact (expect_keeps .closingParen hr₂).bind fun _ r₃ h₃ _ hr₃ => .ok ⟨hidents, hr₃⟩
  · exact (expect_keeps .closingParen hr₁).bind fun _ r₂ h₂ _ hr₂ =>
      .ok ⟨List.forall_mem_nil _, hr₂⟩

theorem parameterList_keeps {r : Reader} (h : r.Within n) :
    Keeps n (fun idents => ∀ ident ∈ idents, ident.Within n) (parameterList r) := by
  rw [parameterList]
  refine (expect_keeps .voidWord h).bind fun _ r₁ h₁ _ hr₁ => ?_
  refine (ident_keeps hr₁).bind fun parameter r₂ h₂ hparameter hr₂ => ?_
  refine (emptyParens_keeps hr₂).bind fun _ r₃ h₃ _ hr₃ => ?_
  dsimp only
  split
  · refine (expect_keeps .comma hr₃).bind fun _ r₄ h₄ _ hr₄ => ?_
    exact (parameterList_keeps hr₄).bind fun following r₅ h₅ hfollowing hr₅ =>
      .ok ⟨List.forall_mem_cons.2 ⟨hparameter, hfollowing⟩, hr₅⟩
  · exact .ok ⟨List.forall_mem_singleton.2 hparameter, hr₃⟩
termination_by r.tokens.length

theorem parameters_keeps (h : r.Within n) :
    Keeps n (fun idents => ∀ ident ∈ idents, ident.Within n) (parameters r) := by
  rw [parameters]
  refine (expect_keeps .openingParen h).bind fun _ r₁ h₁ _ hr₁ => ?_
  dsimp only
  split
  · refine (parameterList_keeps hr₁).bind fun idents r₂ h₂ hidents hr₂ => ?_
    exact (expect_keeps .closingParen hr₂).bind fun _ r₃ h₃ _ hr₃ => .ok ⟨hidents, hr₃⟩
  · exact (expect_keeps .closingParen hr₁).bind fun _ r₂ h₂ _ hr₂ =>
      .ok ⟨List.forall_mem_nil _, hr₂⟩

/-! ## Conditions

Diagnostics never point at a condition that has been read, so nothing is kept of it. -/

theorem namedCondition_keeps (h : r.Within n) : Keeps n (fun _ => True) (namedCondition r) := by
  unfold namedCondition
  dsimp only
  split
  · exact (expect_keeps .identifier h).bind fun _ r₁ h₁ _ hr₁ => .ok ⟨trivial, hr₁⟩
  · split
    · refine (expect_keeps .identifier h).bind fun _ r₁ h₁ _ hr₁ => ?_
      exact (emptyParens_keeps hr₁).bind fun _ r₂ h₂ _ hr₂ => .ok ⟨trivial, hr₂⟩
    · exact .error (Diagnostic.within_unknownName h.current _ _)

mutual

theorem condition_keeps {r : Reader} (h : r.Within n) : Keeps n (fun _ => True) (condition r) := by
  rw [condition]
  refine (expect_keeps .openingParen h).bind fun _ r₁ h₁ _ hr₁ => ?_
  refine (either_keeps hr₁).bind fun inner r₂ h₂ _ hr₂ => ?_
  exact (expect_keeps .closingParen hr₂).bind fun _ r₃ h₃ _ hr₃ => .ok ⟨trivial, hr₃⟩
termination_by 4 * r.tokens.length

theorem primary_keeps {r : Reader} (h : r.Within n) : Keeps n (fun _ => True) (primary r) := by
  rw [primary]
  cases r.kind with
  | identifier => exact namedCondition_keeps h
  | bang =>
    refine (expect_keeps .bang h).bind fun bang r₁ h₁ _ hr₁ => ?_
    exact (primary_keeps hr₁).bind fun operand r₂ h₂ _ hr₂ => .ok ⟨trivial, hr₂⟩
  | openingParen => exact condition_keeps h
  | _ => exact h.fail _
termination_by 4 * r.tokens.length + 1

theorem both_keeps {r : Reader} (h : r.Within n) : Keeps n (fun _ => True) (both r) := by
  rw [both]
  refine (primary_keeps h).bind fun left r₁ h₁ _ hr₁ => ?_
  dsimp only
  split
  · refine (expect_keeps .ampersandAmpersand hr₁).bind fun operator r₂ h₂ _ hr₂ => ?_
    exact (both_keeps hr₂).bind fun right r₃ h₃ _ hr₃ => .ok ⟨trivial, hr₃⟩
  · exact .ok ⟨trivial, hr₁⟩
termination_by 4 * r.tokens.length + 2

theorem either_keeps {r : Reader} (h : r.Within n) : Keeps n (fun _ => True) (either r) := by
  rw [either]
  refine (both_keeps h).bind fun left r₁ h₁ _ hr₁ => ?_
  dsimp only
  split
  · refine (expect_keeps .barBar hr₁).bind fun operator r₂ h₂ _ hr₂ => ?_
    exact (either_keeps hr₂).bind fun right r₃ h₃ _ hr₃ => .ok ⟨trivial, hr₃⟩
  · exact .ok ⟨trivial, hr₁⟩
termination_by 4 * r.tokens.length + 3

end

/-! ## Statements -/

theorem call_keeps (h : r.Within n) :
    Keeps n (fun c => ∀ ident ∈ c.references, ident.Within n) (call r) := by
  rw [call]
  refine (ident_keeps h).bind fun target r₁ h₁ htarget hr₁ => ?_
  refine (arguments_keeps hr₁).bind fun arguments r₂ h₂ harguments hr₂ => ?_
  exact (expect_keeps .semicolon hr₂).bind fun _ r₃ h₃ _ hr₃ =>
    .ok ⟨List.forall_mem_cons.2 ⟨htarget, harguments⟩, hr₃⟩

theorem toNat_points {t : Token} (h : t.Within n) (low high : Nat) :
    Points n (fun _ => True) (t.toNat low high) := by
  have hproblem : (⟨t.position, .outOfRange t.lexeme low high, none⟩ : Diagnostic).Within n :=
    h.position_le
  unfold Token.toNat
  dsimp only
  split
  · split
    · exact .ok trivial
    · exact .error hproblem
  · exact .error hproblem

theorem times_keeps (h : r.Within n) : Keeps n (fun _ => True) (times r) := by
  rw [times]
  refine (expect_keeps .openingParen h).bind fun _ r₁ h₁ _ hr₁ => ?_
  refine (expect_keeps .number hr₁).bind fun numeral r₂ h₂ hnumeral hr₂ => ?_
  refine (toNat_points hnumeral _ _).bind fun times _ => ?_
  exact (expect_keeps .closingParen hr₂).bind fun _ r₃ h₃ _ hr₃ => .ok ⟨trivial, hr₃⟩

theorem innerDefinition_points {α : Type} (P : α → Prop) (outer : String) (h : r.Within n) :
    Points n P (innerDefinition outer r) := by
  rw [innerDefinition]
  refine (expect_keeps .voidWord h).bind fun void r₁ h₁ hvoid hr₁ => ?_
  refine (ident_keeps hr₁).bind fun inner r₂ h₂ _ hr₂ => ?_
  refine (emptyParens_keeps hr₂).bind fun _ r₃ h₃ _ hr₃ => ?_
  dsimp only
  split
  · exact .error hvoid.position_le
  · exact .error hvoid.position_le

mutual

theorem block_keeps {r : Reader} (outer : String) (h : r.Within n) :
    Keeps n (Block.Within n) (block outer r) := by
  rw [block]
  refine (expect_keeps .openingBrace h).bind fun opening r₁ h₁ _ hr₁ => ?_
  exact (statements_keeps outer hr₁).bind fun inner r₂ h₂ hinner hr₂ => .ok ⟨hinner, hr₂⟩
termination_by 3 * r.tokens.length

theorem choice_keeps {r : Reader} (outer : String) (h : r.Within n) :
    Keeps n (Statement.Everywhere (Statement.Marked n)) (choice outer r) := by
  rw [choice]
  refine (expect_keeps .ifWord h).bind fun keyword r₁ h₁ _ hr₁ => ?_
  refine (condition_keeps hr₁).bind fun test r₂ h₂ _ hr₂ => ?_
  refine (block_keeps outer hr₂).bind fun body r₃ h₃ hbody hr₃ => ?_
  dsimp only
  split
  · refine (expect_keeps .elseWord hr₃).bind fun _ r₄ h₄ _ hr₄ => ?_
    dsimp only
    cases r₄.kind with
    | openingBrace =>
      exact (block_keeps outer hr₄).bind fun otherwise r₅ h₅ hother hr₅ =>
        .ok ⟨List.forall_mem_cons.2 ⟨trivial, List.forall_mem_append.2
          ⟨hbody, List.forall_mem_cons.2 ⟨trivial, hother⟩⟩⟩, hr₅⟩
    | ifWord =>
      exact (choice_keeps outer hr₄).bind fun otherwise r₅ h₅ hother hr₅ =>
        .ok ⟨List.forall_mem_cons.2 ⟨trivial, List.forall_mem_append.2 ⟨hbody, hother⟩⟩, hr₅⟩
    | _ => exact .error hr₄.previous
  · exact .ok ⟨List.forall_mem_cons.2 ⟨trivial, hbody⟩, hr₃⟩
termination_by 3 * r.tokens.length

theorem statement_keeps {r : Reader} (outer : String) (h : r.Within n) :
    Keeps n (Statement.Everywhere (Statement.Marked n)) (statement outer r) := by
  rw [statement]
  cases r.kind with
  | identifier =>
    exact (call_keeps h).bind fun call r₁ h₁ hcall hr₁ =>
      .ok ⟨Statement.everywhere_call.2 hcall, hr₁.recorded _⟩
  | repeatWord =>
    refine (expect_keeps .repeatWord h).bind fun keyword r₁ h₁ _ hr₁ => ?_
    refine (times_keeps hr₁).bind fun times r₂ h₂ _ hr₂ => ?_
    exact (block_keeps outer hr₂).bind fun body r₃ h₃ hbody hr₃ =>
      .ok ⟨List.forall_mem_cons.2 ⟨trivial, hbody⟩, hr₃⟩
  | whileWord =>
    refine (expect_keeps .whileWord h).bind fun keyword r₁ h₁ hkeyword hr₁ => ?_
    refine (condition_keeps hr₁).bind fun test r₂ h₂ _ hr₂ => ?_
    exact (block_keeps outer hr₂).bind fun body r₃ h₃ hbody hr₃ =>
      .ok ⟨List.forall_mem_cons.2 ⟨hkeyword.position_le, hbody⟩, hr₃⟩
  | ifWord => exact choice_keeps outer h
  | voidWord => exact innerDefinition_points _ outer h
  | _ => exact h.fail _
termination_by 3 * r.tokens.length + 1

theorem statements_keeps {r : Reader} (outer : String) (h : r.Within n) :
    Keeps n (fun inner => ∀ s ∈ Statement.walkAll inner.1, s.Marked n) (statements outer r) := by
  rw [statements]
  split
  · exact (expect_keeps .closingBrace h).bind fun closing r₁ h₁ _ hr₁ =>
      .ok ⟨List.forall_mem_nil _, hr₁⟩
  · refine (statement_keeps outer h).bind fun first r₁ h₁ hfirst hr₁ => ?_
    exact (statements_keeps outer hr₁).bind fun inner r₂ h₂ hinner hr₂ =>
      .ok ⟨List.forall_mem_append.2 ⟨hfirst, hinner⟩, hr₂⟩
termination_by 3 * r.tokens.length + 2

end

/-! ## Definitions -/

theorem definition_keeps (h : r.Within n) : Keeps n (Command.Within n) (definition r) := by
  rw [definition]
  refine (expect_keeps .voidWord h).bind fun void r₁ h₁ _ hr₁ => ?_
  refine (ident_keeps hr₁).bind fun name r₂ h₂ hname hr₂ => ?_
  refine (parameters_keeps hr₂).bind fun parameters r₃ h₃ hparameters hr₃ => ?_
  exact (block_keeps name.text hr₃).bind fun body r₄ h₄ hbody hr₄ =>
    .ok ⟨⟨hname, hparameters, hbody⟩, hr₄⟩

theorem strayName_points {α : Type} (P : α → Prop) (last : String) (h : r.Within n) :
    Points n P (strayName last r) := by
  rw [strayName]
  refine (ident_keeps h).bind fun name r₁ h₁ hname hr₁ => ?_
  refine (emptyParens_keeps hr₁).bind fun _ r₂ h₂ _ hr₂ => ?_
  dsimp only
  split
  · exact .error h.previous
  · exact .error hname.position_le

theorem command_keeps (last : String) (h : r.Within n) :
    Keeps n (Command.Within n) (command last r) := by
  rw [command]
  cases r.kind with
  | voidWord => exact definition_keeps h
  | repeatWord | whileWord | ifWord => exact .error h.previous
  | identifier => exact strayName_points _ last h
  | _ => exact h.fail _

end Rules
end Reader

/-! ## Names in scope -/

/-- The diagnostic that was found, if any, points within `n` characters. -/
def FoundWithin (n : Nat) (found : Option Diagnostic) : Prop :=
  ∀ d, found = some d → d.Within n

namespace Scope

variable (scope : Scope)

theorem undefined_within {ident : Ident} (h : ident.Within n) : (scope.undefined ident).Within n :=
  Diagnostic.within_unknownName h _ _

theorem argumentProblem?_within {argument : Ident} (h : argument.Within n) :
    FoundWithin n (scope.argumentProblem? argument) := by
  intro d hd
  unfold argumentProblem? at hd
  split at hd <;> cases hd
  · exact scope.undefined_within h
  · exact h.position_le

theorem callProblem?_within {c : Call} (h : ∀ ident ∈ c.references, ident.Within n) :
    FoundWithin n (scope.callProblem? c) := by
  obtain ⟨htarget, harguments⟩ := List.forall_mem_cons.1 h
  intro d hd
  unfold callProblem? at hd
  split at hd
  · cases hd
    exact scope.undefined_within htarget
  · split at hd
    · cases hd
      exact htarget.position_le
    · obtain ⟨argument, hmem, hproblem⟩ := List.exists_of_findSome?_eq_some hd
      exact scope.argumentProblem?_within (harguments argument hmem) d hproblem

theorem duplicateParameter?_within {parameters : List Ident}
    (h : ∀ parameter ∈ parameters, parameter.Within n) (seen : List String) :
    FoundWithin n (duplicateParameter? seen parameters) := by
  induction parameters generalizing seen with
  | nil => exact nofun
  | cons parameter following ih =>
    obtain ⟨hparameter, hfollowing⟩ := List.forall_mem_cons.1 h
    intro d hd
    rw [duplicateParameter?] at hd
    split at hd
    · cases hd
      exact hparameter.position_le
    · exact ih hfollowing _ d hd

theorem commandProblem?_within {c : Command} (h : c.Within n) :
    FoundWithin n (scope.commandProblem? c) := by
  intro d hd
  unfold commandProblem? at hd
  split at hd
  next problem hproblem =>
    cases hd
    exact duplicateParameter?_within h.parameters _ _ hproblem
  · obtain ⟨call, hcall, hproblem⟩ := List.exists_of_findSome?_eq_some hd
    rw [Block.calls_eq, List.mem_filterMap] at hcall
    obtain ⟨s, hs, hcall⟩ := hcall
    have hmarked := h.body s hs
    cases s <;> cases hcall
    exact callProblem?_within _ hmarked d hproblem

theorem definitionProblem?_within {c : Command} (h : c.Within n) :
    FoundWithin n (scope.definitionProblem? c) := by
  intro d hd
  unfold definitionProblem? at hd
  split at hd <;> cases hd
  exact h.ident.position_le

end Scope

/-! ## Scripts -/

theorem Reader.commands_points {r : Reader} (scope : Scope) (last : String) (h : r.Within n) :
    Points n (fun m => ∀ c ∈ m.commands, c.Within n) (commands scope last r) := by
  rw [commands]
  split
  · exact .ok (List.forall_mem_nil _)
  · refine (command_keeps last h).bind fun first r₁ h₁ hfirst hr₁ => ?_
    dsimp only
    split
    next problem hproblem => exact .error (scope.definitionProblem?_within hfirst _ hproblem)
    · have hr : r₁.handedOver.Within n := hr₁.recorded []
      exact (commands_points _ _ hr).bind fun following hfollowing =>
        .ok (List.forall_mem_cons.2 ⟨hfirst, hfollowing⟩)
termination_by r.tokens.length

/-- **A script that is read lies in its text, and so does what keeps a text from being read.** -/
theorem Script.parse_points (source : String) :
    Points source.length (fun script => ∀ c ∈ script.commands, c.Within source.length)
      (Script.parse source) := by
  have hscan := Scan.within_ofText source
  have hreader : Points source.length (Reader.Within source.length)
      (Reader.ofScan (Scan.ofText source)) := by
    rw [Reader.ofScan]
    exact (Reader.inView_points _ hscan.ending).bind fun _ _ =>
      .ok ⟨hscan.tokens, hscan.ending, Nat.zero_le _, Nat.zero_le _⟩
  have hm : Points source.length (fun m => ∀ c ∈ m.commands, c.Within source.length)
      (Manuscript.ofScan (Scan.ofText source)) := by
    refine hreader.bind fun r hr => ?_
    split
    · exact Reader.commands_points _ _ hr
    · exact hr.fail _
  rw [parse_eq_ofScan]
  refine hm.bind fun m hcommands => ?_
  split
  next problem hproblem =>
    obtain ⟨c, hc, hproblem⟩ := List.exists_of_findSome?_eq_some hproblem
    exact .error (Scope.commandProblem?_within _ (hcommands c hc) _ hproblem)
  · exact .ok hcommands

/-- What a script is refused for lies where its commands lie. -/
theorem Script.Refuses.within {script : Script} {entry : String} {level : Level} {d : Diagnostic}
    (h : script.Refuses entry level d) (hcommands : ∀ c ∈ script.commands, c.Within n) :
    d.Within n := by
  cases h with
  | undefinedEntry => exact Nat.zero_le n
  | entryTakesParameters hmain => exact (hcommands _ (mem_of_find? hmain)).ident.position_le
  | whileNotAllowed _ hc hloop =>
    exact (hcommands _ (mem_commands_of_mem_reachable hc)).body _ hloop
  | recursionNotAllowed _ hc =>
    exact (hcommands _ (mem_commands_of_mem_reachable hc)).ident.position_le

/-- A program is too long at the name of its first command. -/
theorem Script.WellScoped.ofCommands_within {script : Script} (h : script.WellScoped)
    (entry : String) (hcommands : ∀ c ∈ script.commands, c.Within n) {d : Diagnostic}
    (hd : Program.ofCommands (script.reachable entry) = .error d) : d.Within n := by
  by_cases hlong : Program.maxSize <
      Program.entryPoint + (Assembly.lines (script.reachable entry)).length
  · rw [Program.ofCommands_eq, if_pos hlong] at hd
    cases hd
    cases hreachable : script.reachable entry with
    | nil => exact Nat.zero_le n
    | cons first following =>
      have hfirst : first ∈ script.reachable entry := by
        rw [hreachable]
        exact List.mem_cons_self
      exact (hcommands _ (mem_commands_of_mem_reachable hfirst)).ident.position_le
  · obtain ⟨p, hp⟩ := Program.exists_ofCommands (h.closed entry) (Nat.not_lt.1 hlong)
    rw [hp] at hd
    cases hd

theorem Script.WellScoped.compile_within {script : Script} (h : script.WellScoped) (entry : String)
    (level : Level) (hcommands : ∀ c ∈ script.commands, c.Within n) {problems : List Diagnostic}
    (hproblems : script.compile entry level = .error problems) : ∀ d ∈ problems, d.Within n := by
  unfold Script.compile at hproblems
  split at hproblems
  · cases hprogram : Program.ofCommands (script.reachable entry) with
    | ok p =>
      rw [hprogram] at hproblems
      cases hproblems
    | error d =>
      rw [hprogram] at hproblems
      cases hproblems
      exact List.forall_mem_singleton.2 (h.ofCommands_within entry hcommands hprogram)
  · cases hproblems
    exact fun d hd => (h.mem_review_iff.1 hd).within hcommands

/-- **Every diagnostic points into the source.**  Its position lies in the text or right behind it,
and where it marks something, what it marks ends there too. -/
theorem diagnostics_point_into_source {source : String} {entry : Option String} {level : Level}
    {problems : List Diagnostic} (h : compile source entry level = .error problems) :
    ∀ d ∈ problems, d.position ≤ source.length ∧
      ∀ marked, d.highlight = some marked → d.position + marked ≤ source.length := by
  have hwithin : ∀ d ∈ problems, d.Within source.length := by
    have hparse := Script.parse_points source
    unfold compile at h
    split at h
    next e he =>
      cases h
      rw [he] at hparse
      cases hparse with
      | error hd => exact List.forall_mem_singleton.2 hd
    next script hscript =>
      rw [hscript] at hparse
      cases hparse with
      | ok hcommands =>
        exact (Script.wellScoped_of_parse hscript).compile_within _ level hcommands h
  intro d hd
  refine ⟨Nat.le_trans (Nat.le_add_right _ _) (hwithin d hd), fun marked hmarked => ?_⟩
  have hend := hwithin d hd
  rwa [Diagnostic.Within, hmarked] at hend

/-- A text that ends one character before the end of the name of a predicate. -/
def truncated : String :=
  "void main() \x7b if (frontIsClea"

/-- The name is a beginning of the one suggested, so that nothing of it is marked, at the very end
of the text. -/
theorem diagnostics_point_into_source_truncated :
    ∃ d, compile truncated none .basics = .error [d] ∧ d.position = truncated.length ∧
      d.highlight = some 0 ∧
      ∀ e ∈ [d], e.position ≤ truncated.length ∧
        ∀ marked, e.highlight = some marked → e.position + marked ≤ truncated.length := by
  have hcompile : compile truncated none .basics =
      .error [⟨29, .unknownName none ["frontIsClear"], some 0⟩] := by decide +kernel
  exact ⟨_, hcompile, by decide, rfl, diagnostics_point_into_source hcompile⟩

end KarelRobot
