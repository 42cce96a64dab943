import KarelRobot.Proofs.Relocation
import KarelRobot.Proofs.Rejection
import KarelRobot.Proofs.Tokens

/-!
# The layout of a text does not matter

Blanks and comments set the positions of words and nothing else.  The reader decides by kinds and
spellings: on the same words at other positions every rule takes as many tokens, makes the same tree
at other positions of them, or fails for the same reason.  Each proof follows its rule, with
`Reader.Agrees.bind` wherever the rule goes on behind a smaller one.  Texts are compared through
their words numbered from zero, since the numbers are in the same order as the positions in any
text.

* `Scan.words`, `Scan.ofWords` — the words of a text, and the same words at their numbers.
* `Reader.Relocated` — two readers in front of the same words.
* `Reader.commands_relocate` — the rules of the reader make the same of them.
* `layout_does_not_matter` — texts with the same words compile to the same program or have the same
  things wrong with them.
-/

set_option autoImplicit false
namespace KarelRobot

open Token (Kind)

/-! ## Words -/

/-- A token at another position. -/
def Token.relocate (f : Nat → Nat) (t : Token) : Token :=
  ⟨t.kind, f t.position, t.lexeme⟩

/-- What keeps a text from being read to its end. -/
def Ending.problem? : Ending → Option Problem
  | .endOfInput _ => none
  | .fault d => some d.problem

namespace Reader

/-- Two readers stand in front of the same words, those of the second one at other positions. -/
structure Relocated (f : Nat → Nat) (r r' : Reader) : Prop where
  tokens : r'.tokens = r.tokens.map (Token.relocate f)
  ending : r'.ending.problem? = r.ending.problem?

/-- A rule makes a value of the first words of a reader and the value `move` makes of it of the same
words at other positions; or it fails on both for the same reason. -/
def Agrees {α : Type} (f : Nat → Nat) (move : α → α) {r r' : Reader} :
    Except Diagnostic (Reading α r) → Except Diagnostic (Reading α r') → Prop :=
  Matches fun v w => w.value = move v.value ∧ Relocated f v.rest w.rest

section Rules

variable {f : Nat → Nat} {r r' : Reader}

theorem Relocated.kind (h : Relocated f r r') : r'.kind = r.kind := by
  rw [kind_eq, kind_eq, h.tokens]
  cases r.tokens <;> rfl

theorem Relocated.lexeme (h : Relocated f r r') : r'.current.lexeme = r.current.lexeme := by
  obtain ⟨tokens, ending, previous, previousEnd, recorded⟩ := r
  obtain ⟨tokens', ending', previous', previousEnd', recorded'⟩ := r'
  obtain ⟨rfl, -⟩ := h
  cases tokens with
  | nil => cases ending <;> cases ending' <;> rfl
  | cons t tokens => rfl

/-- The calls that two readers have recorded make no difference. -/
theorem Relocated.recorded (h : Relocated f r r') (calls calls' : List Call) :
    Relocated f { r with recorded := calls } { r' with recorded := calls' } :=
  ⟨h.tokens, h.ending⟩

/-- A rule that begins with a smaller one. -/
theorem Agrees.bind {α β γ : Type} {move : α → α} {S : β → γ → Prop}
    {x : Except Diagnostic (Reading α r)} {y : Except Diagnostic (Reading α r')}
    {k : Reading α r → Except Diagnostic β} {l : Reading α r' → Except Diagnostic γ}
    (h : Agrees f move x y)
    (hkl : ∀ a rest hrest rest' hrest', Relocated f rest rest' →
      Matches S (k ⟨a, rest, hrest⟩) (l ⟨move a, rest', hrest'⟩)) :
    Matches S (x >>= k) (y >>= l) := by
  refine Matches.bind h fun v w hvw => ?_
  obtain ⟨a, rest, hrest⟩ := v
  obtain ⟨b, rest', hrest'⟩ := w
  obtain ⟨rfl, hmoved⟩ := hvw
  exact hkl a rest hrest rest' hrest' hmoved

/-! ## Single tokens and names -/

theorem inView_relocate (f : Nat → Nat) (tokens : List Token) {ending ending' : Ending}
    (h : ending'.problem? = ending.problem?) :
    Matches (fun _ _ => True) (inView tokens ending)
      (inView (tokens.map (Token.relocate f)) ending') := by
  have hend : Matches (fun (_ _ : Unit) => True) (inView [] ending) (inView [] ending') := by
    cases ending with
    | endOfInput =>
      cases ending' with
      | endOfInput => exact .ok trivial
      | fault d => cases h
    | fault d =>
      cases ending' with
      | endOfInput => cases h
      | fault e => exact .error (Option.some.inj h)
  match tokens with
  | [] => exact hend
  | [t] => cases ending <;> cases ending' <;> exact hend
  | _ :: _ :: _ => exact .ok trivial

theorem expect_cons (kind : Kind) (t : Token) (tokens : List Token) (ending : Ending)
    (previous previousEnd : Nat) (recorded : List Call) :
    expect kind ⟨t :: tokens, ending, previous, previousEnd, recorded⟩ =
      if t.kind = kind then
        inView tokens ending >>= fun _ =>
          pure ⟨t, ⟨tokens, ending, t.position, t.endPosition, recorded⟩, Nat.lt_succ_self _⟩
      else .error ⟨previousEnd, .missing kind, none⟩ := rfl

theorem expect_relocate (kind : Kind) (h : Relocated f r r') :
    Agrees f (Token.relocate f) (expect kind r) (expect kind r') := by
  obtain ⟨tokens, ending, previous, previousEnd, recorded⟩ := r
  obtain ⟨tokens', ending', previous', previousEnd', recorded'⟩ := r'
  obtain ⟨rfl, hending⟩ := h
  cases tokens with
  | nil => exact .error rfl
  | cons t tokens =>
    change Agrees f (Token.relocate f)
      (expect kind ⟨t :: tokens, ending, previous, previousEnd, recorded⟩)
      (expect kind ⟨t.relocate f :: tokens.map (Token.relocate f), ending', previous', previousEnd',
        recorded'⟩)
    have hkind : (t.relocate f).kind = t.kind := rfl
    rw [expect_cons, expect_cons, hkind]
    split
    · exact (inView_relocate f tokens hending).bind fun _ _ _ => .ok ⟨rfl, rfl, hending⟩
    · exact .error rfl

theorem ident_relocate (h : Relocated f r r') :
    Agrees f (Ident.relocate f) (ident r) (ident r') := by
  rw [ident, ident]
  exact (expect_relocate .identifier h).bind fun t r₁ h₁ r₁' h₁' hr₁ => .ok ⟨rfl, hr₁⟩

theorem emptyParens_relocate (h : Relocated f r r') :
    Agrees f id (emptyParens r) (emptyParens r') := by
  rw [emptyParens, emptyParens]
  refine (expect_relocate .openingParen h).bind fun _ r₁ h₁ r₁' h₁' hr₁ => ?_
  exact (expect_relocate .closingParen hr₁).bind fun _ r₂ h₂ r₂' h₂' hr₂ => .ok ⟨rfl, hr₂⟩

theorem identList_relocate {r r' : Reader} (h : Relocated f r r') :
    Agrees f (List.map (Ident.relocate f)) (identList r) (identList r') := by
  rw [identList, identList]
  refine (ident_relocate h).bind fun first r₁ h₁ r₁' h₁' hr₁ => ?_
  dsimp only
  rw [hr₁.kind]
  split
  · refine (expect_relocate .comma hr₁).bind fun _ r₂ h₂ r₂' h₂' hr₂ => ?_
    exact (identList_relocate hr₂).bind fun following r₃ h₃ r₃' h₃' hr₃ => .ok ⟨rfl, hr₃⟩
  · exact .ok ⟨rfl, hr₁⟩
termination_by r.tokens.length

theorem arguments_relocate (h : Relocated f r r') :
    Agrees f (List.map (Ident.relocate f)) (arguments r) (arguments r') := by
  rw [arguments, arguments]
  refine (expect_relocate .openingParen h).bind fun _ r₁ h₁ r₁' h₁' hr₁ => ?_
  dsimp only
  rw [hr₁.kind]
  split
  · refine (identList_relocate hr₁).bind fun idents r₂ h₂ r₂' h₂' hr₂ => ?_
    exact (expect_relocate .closingParen hr₂).bind fun _ r₃ h₃ r₃' h₃' hr₃ => .ok ⟨rfl, hr₃⟩
  · exact (expect_relocate .closingParen hr₁).bind fun _ r₂ h₂ r₂' h₂' hr₂ => .ok ⟨rfl, hr₂⟩

theorem parameterList_relocate {r r' : Reader} (h : Relocated f r r') :
    Agrees f (List.map (Ident.relocate f)) (parameterList r) (parameterList r') := by
  rw [parameterList, parameterList]
  refine (expect_relocate .voidWord h).bind fun _ r₁ h₁ r₁' h₁' hr₁ => ?_
  refine (ident_relocate hr₁).bind fun parameter r₂ h₂ r₂' h₂' hr₂ => ?_
  refine (emptyParens_relocate hr₂).bind fun _ r₃ h₃ r₃' h₃' hr₃ => ?_
  dsimp only
  rw [hr₃.kind]
  split
  · refine (expect_relocate .comma hr₃).bind fun _ r₄ h₄ r₄' h₄' hr₄ => ?_
    exact (parameterList_relocate hr₄).bind fun following r₅ h₅ r₅' h₅' hr₅ => .ok ⟨rfl, hr₅⟩
  · exact .ok ⟨rfl, hr₃⟩
termination_by r.tokens.length

theorem parameters_relocate (h : Relocated f r r') :
    Agrees f (List.map (Ident.relocate f)) (parameters r) (parameters r') := by
  rw [parameters, parameters]
  refine (expect_relocate .openingParen h).bind fun _ r₁ h₁ r₁' h₁' hr₁ => ?_
  dsimp only
  rw [hr₁.kind]
  split
  · refine (parameterList_relocate hr₁).bind fun idents r₂ h₂ r₂' h₂' hr₂ => ?_
    exact (expect_relocate .closingParen hr₂).bind fun _ r₃ h₃ r₃' h₃' hr₃ => .ok ⟨rfl, hr₃⟩
  · exact (expect_relocate .closingParen hr₁).bind fun _ r₂ h₂ r₂' h₂' hr₂ => .ok ⟨rfl, hr₂⟩

/-! ## Conditions -/

theorem namedCondition_relocate (h : Relocated f r r') :
    Agrees f (Condition.relocate f) (namedCondition r) (namedCondition r') := by
  simp only [namedCondition, h.lexeme]
  split
  · exact (expect_relocate .identifier h).bind fun _ r₁ h₁ r₁' h₁' hr₁ => .ok ⟨rfl, hr₁⟩
  · split
    · refine (expect_relocate .identifier h).bind fun _ r₁ h₁ r₁' h₁' hr₁ => ?_
      exact (emptyParens_relocate hr₁).bind fun _ r₂ h₂ r₂' h₂' hr₂ => .ok ⟨rfl, hr₂⟩
    · exact .error (by rw [Diagnostic.problem_unknownName, Diagnostic.problem_unknownName])

mutual

theorem condition_relocate {r r' : Reader} (h : Relocated f r r') :
    Agrees f (Condition.relocate f) (condition r) (condition r') := by
  rw [condition, condition]
  refine (expect_relocate .openingParen h).bind fun _ r₁ h₁ r₁' h₁' hr₁ => ?_
  refine (either_relocate hr₁).bind fun inner r₂ h₂ r₂' h₂' hr₂ => ?_
  exact (expect_relocate .closingParen hr₂).bind fun _ r₃ h₃ r₃' h₃' hr₃ => .ok ⟨rfl, hr₃⟩
termination_by 4 * r.tokens.length

theorem primary_relocate {r r' : Reader} (h : Relocated f r r') :
    Agrees f (Condition.relocate f) (primary r) (primary r') := by
  rw [primary, primary, h.kind]
  cases r.kind with
  | identifier => exact namedCondition_relocate h
  | bang =>
    refine (expect_relocate .bang h).bind fun bang r₁ h₁ r₁' h₁' hr₁ => ?_
    exact (primary_relocate hr₁).bind fun operand r₂ h₂ r₂' h₂' hr₂ => .ok ⟨rfl, hr₂⟩
  | openingParen => exact condition_relocate h
  | _ => exact .error rfl
termination_by 4 * r.tokens.length + 1

theorem both_relocate {r r' : Reader} (h : Relocated f r r') :
    Agrees f (Condition.relocate f) (both r) (both r') := by
  rw [both, both]
  refine (primary_relocate h).bind fun left r₁ h₁ r₁' h₁' hr₁ => ?_
  dsimp only
  rw [hr₁.kind]
  split
  · refine (expect_relocate .ampersandAmpersand hr₁).bind fun operator r₂ h₂ r₂' h₂' hr₂ => ?_
    exact (both_relocate hr₂).bind fun right r₃ h₃ r₃' h₃' hr₃ => .ok ⟨rfl, hr₃⟩
  · exact .ok ⟨rfl, hr₁⟩
termination_by 4 * r.tokens.length + 2

theorem either_relocate {r r' : Reader} (h : Relocated f r r') :
    Agrees f (Condition.relocate f) (either r) (either r') := by
  rw [either, either]
  refine (both_relocate h).bind fun left r₁ h₁ r₁' h₁' hr₁ => ?_
  dsimp only
  rw [hr₁.kind]
  split
  · refine (expect_relocate .barBar hr₁).bind fun operator r₂ h₂ r₂' h₂' hr₂ => ?_
    exact (either_relocate hr₂).bind fun right r₃ h₃ r₃' h₃' hr₃ => .ok ⟨rfl, hr₃⟩
  · exact .ok ⟨rfl, hr₁⟩
termination_by 4 * r.tokens.length + 3

end

/-! ## Statements -/

theorem call_relocate (h : Relocated f r r') :
    Agrees f (Call.relocate f) (call r) (call r') := by
  rw [call, call]
  refine (ident_relocate h).bind fun target r₁ h₁ r₁' h₁' hr₁ => ?_
  refine (arguments_relocate hr₁).bind fun arguments r₂ h₂ r₂' h₂' hr₂ => ?_
  exact (expect_relocate .semicolon hr₂).bind fun _ r₃ h₃ r₃' h₃' hr₃ => .ok ⟨rfl, hr₃⟩

theorem toNat_relocate (f : Nat → Nat) (t : Token) (low high : Nat) :
    Matches (fun n k => k = n) (t.toNat low high) ((t.relocate f).toNat low high) := by
  have hlexeme : (t.relocate f).lexeme = t.lexeme := rfl
  simp only [Token.toNat, hlexeme]
  split
  · split
    · exact .ok rfl
    · exact .error rfl
  · exact .error rfl

theorem times_relocate (h : Relocated f r r') : Agrees f id (times r) (times r') := by
  rw [times, times]
  refine (expect_relocate .openingParen h).bind fun _ r₁ h₁ r₁' h₁' hr₁ => ?_
  refine (expect_relocate .number hr₁).bind fun numeral r₂ h₂ r₂' h₂' hr₂ => ?_
  refine (toNat_relocate f numeral _ _).bind fun n k hk => ?_
  subst hk
  exact (expect_relocate .closingParen hr₂).bind fun _ r₃ h₃ r₃' h₃' hr₃ => .ok ⟨rfl, hr₃⟩

theorem innerDefinition_relocate {α β : Type} (R : α → β → Prop) (outer : String)
    (h : Relocated f r r') : Matches R (innerDefinition outer r) (innerDefinition outer r') := by
  rw [innerDefinition, innerDefinition]
  refine (expect_relocate .voidWord h).bind fun _ r₁ h₁ r₁' h₁' hr₁ => ?_
  refine (ident_relocate hr₁).bind fun inner r₂ h₂ r₂' h₂' hr₂ => ?_
  refine (emptyParens_relocate hr₂).bind fun _ r₃ h₃ r₃' h₃' hr₃ => ?_
  dsimp only
  rw [hr₃.kind]
  split
  · exact .error rfl
  · exact .error rfl

mutual

theorem block_relocate {r r' : Reader} (outer : String) (h : Relocated f r r') :
    Agrees f (Block.relocate f) (block outer r) (block outer r') := by
  rw [block, block]
  refine (expect_relocate .openingBrace h).bind fun opening r₁ h₁ r₁' h₁' hr₁ => ?_
  exact (statements_relocate outer hr₁).bind fun inner r₂ h₂ r₂' h₂' hr₂ => .ok ⟨rfl, hr₂⟩
termination_by 3 * r.tokens.length

theorem choice_relocate {r r' : Reader} (outer : String) (h : Relocated f r r') :
    Agrees f (Statement.relocate f) (choice outer r) (choice outer r') := by
  rw [choice, choice]
  refine (expect_relocate .ifWord h).bind fun keyword r₁ h₁ r₁' h₁' hr₁ => ?_
  refine (condition_relocate hr₁).bind fun test r₂ h₂ r₂' h₂' hr₂ => ?_
  refine (block_relocate outer hr₂).bind fun body r₃ h₃ r₃' h₃' hr₃ => ?_
  dsimp only
  rw [hr₃.kind]
  split
  · refine (expect_relocate .elseWord hr₃).bind fun _ r₄ h₄ r₄' h₄' hr₄ => ?_
    dsimp only
    rw [hr₄.kind]
    cases r₄.kind with
    | openingBrace =>
      exact (block_relocate outer hr₄).bind fun otherwise r₅ h₅ r₅' h₅' hr₅ => .ok ⟨rfl, hr₅⟩
    | ifWord =>
      exact (choice_relocate outer hr₄).bind fun otherwise r₅ h₅ r₅' h₅' hr₅ => .ok ⟨rfl, hr₅⟩
    | _ => exact .error rfl
  · exact .ok ⟨rfl, hr₃⟩
termination_by 3 * r.tokens.length

theorem statement_relocate {r r' : Reader} (outer : String) (h : Relocated f r r') :
    Agrees f (Statement.relocate f) (statement outer r) (statement outer r') := by
  rw [statement, statement, h.kind]
  cases r.kind with
  | identifier =>
    exact (call_relocate h).bind fun call r₁ h₁ r₁' h₁' hr₁ => .ok ⟨rfl, hr₁.recorded _ _⟩
  | repeatWord =>
    refine (expect_relocate .repeatWord h).bind fun keyword r₁ h₁ r₁' h₁' hr₁ => ?_
    refine (times_relocate hr₁).bind fun times r₂ h₂ r₂' h₂' hr₂ => ?_
    exact (block_relocate outer hr₂).bind fun body r₃ h₃ r₃' h₃' hr₃ => .ok ⟨rfl, hr₃⟩
  | whileWord =>
    refine (expect_relocate .whileWord h).bind fun keyword r₁ h₁ r₁' h₁' hr₁ => ?_
    refine (condition_relocate hr₁).bind fun test r₂ h₂ r₂' h₂' hr₂ => ?_
    exact (block_relocate outer hr₂).bind fun body r₃ h₃ r₃' h₃' hr₃ => .ok ⟨rfl, hr₃⟩
  | ifWord => exact choice_relocate outer h
  | voidWord => exact innerDefinition_relocate _ outer h
  | _ => exact .error rfl
termination_by 3 * r.tokens.length + 1

theorem statements_relocate {r r' : Reader} (outer : String) (h : Relocated f r r') :
    Agrees f (Prod.map (Statement.relocateAll f) f) (statements outer r) (statements outer r') := by
  rw [statements, statements, h.kind]
  split
  · exact (expect_relocate .closingBrace h).bind fun closing r₁ h₁ r₁' h₁' hr₁ => .ok ⟨rfl, hr₁⟩
  · refine (statement_relocate outer h).bind fun first r₁ h₁ r₁' h₁' hr₁ => ?_
    exact (statements_relocate outer hr₁).bind fun inner r₂ h₂ r₂' h₂' hr₂ => .ok ⟨rfl, hr₂⟩
termination_by 3 * r.tokens.length + 2

end

/-! ## Definitions -/

theorem definition_relocate (h : Relocated f r r') :
    Agrees f (Command.relocate f) (definition r) (definition r') := by
  rw [definition, definition]
  refine (expect_relocate .voidWord h).bind fun void r₁ h₁ r₁' h₁' hr₁ => ?_
  refine (ident_relocate hr₁).bind fun name r₂ h₂ r₂' h₂' hr₂ => ?_
  refine (parameters_relocate hr₂).bind fun parameters r₃ h₃ r₃' h₃' hr₃ => ?_
  exact (block_relocate name.text hr₃).bind fun body r₄ h₄ r₄' h₄' hr₄ => .ok ⟨rfl, hr₄⟩

theorem strayName_relocate {α β : Type} (R : α → β → Prop) (last : String)
    (h : Relocated f r r') : Matches R (strayName last r) (strayName last r') := by
  rw [strayName, strayName]
  refine (ident_relocate h).bind fun name r₁ h₁ r₁' h₁' hr₁ => ?_
  refine (emptyParens_relocate hr₁).bind fun _ r₂ h₂ r₂' h₂' hr₂ => ?_
  dsimp only
  rw [hr₂.kind]
  split
  · exact .error rfl
  · exact .error rfl

theorem command_relocate (last : String) (h : Relocated f r r') :
    Agrees f (Command.relocate f) (command last r) (command last r') := by
  rw [command, command, h.kind]
  cases r.kind with
  | voidWord => exact definition_relocate h
  | identifier => exact strayName_relocate _ last h
  | _ => exact .error rfl

/-- **The reader makes the same of the same words.** -/
theorem commands_relocate {r r' : Reader} (scope : Scope) (last : String)
    (h : Relocated f r r') :
    Matches (fun m m' => m'.commands = m.commands.map (Command.relocate f))
      (commands scope last r) (commands scope last r') := by
  rw [commands, commands, h.kind]
  split
  · exact .ok rfl
  · refine (command_relocate last h).bind fun first r₁ h₁ r₁' h₁' hr₁ => ?_
    refine .unless (Scope.definitionProblem?_relocate f scope first) ?_
    simp only [Command.name_relocate, Command.parameters_relocate, List.length_map]
    have hr : Relocated f r₁.handedOver r₁'.handedOver := hr₁.recorded [] []
    refine (commands_relocate _ _ hr).bind fun following following' hfollowing => .ok ?_
    exact congrArg (first.relocate f :: ·) hfollowing
termination_by r.tokens.length

end Rules
end Reader

/-! ## Whole texts -/

namespace Scan

/-- The words of a text in their order, and what keeps it from being read further. -/
def words (scan : Scan) : List (Kind × String) × Option Problem :=
  (scan.tokens.map fun t => (t.kind, t.lexeme), scan.ending.problem?)

/-- Words at the positions 0, 1, 2, …. -/
def ofWords (words : List (Kind × String) × Option Problem) : Scan where
  tokens := words.1.mapIdx fun i word => ⟨word.1, i, word.2⟩
  ending :=
    match words.2 with
    | none => .endOfInput words.1.length
    | some problem => .fault ⟨words.1.length, problem, none⟩

theorem problem?_ending_ofWords (words : List (Kind × String) × Option Problem) :
    (ofWords words).ending.problem? = words.2 := by
  obtain ⟨ws, problem⟩ := words
  cases problem <;> rfl

end Scan

/-- Numbers that rise along a list are values of a function that rises everywhere. -/
theorem exists_strictMono_of_pairwise {ns : List Nat} (h : ns.Pairwise (· < ·)) :
    ∃ f : Nat → Nat, StrictMono f ∧ ∀ i n, ns[i]? = some n → f i = n := by
  induction ns with
  | nil => exact ⟨id, strictMono_id, fun i n hn => by cases hn⟩
  | cons n ns ih =>
    obtain ⟨hhead, htail⟩ := List.pairwise_cons.1 h
    cases ns with
    -- Behind the last number the function just goes on rising.
    | nil =>
      refine ⟨(n + ·), fun i j hij => Nat.add_lt_add_left hij n, fun i k hk => ?_⟩
      cases i with
      | zero => exact Option.some.inj hk
      | succ i => cases hk
    | cons m ns =>
      obtain ⟨g, hg, hvalues⟩ := ih htail
      refine ⟨fun | 0 => n | i + 1 => g i, strictMono_nat_of_lt_succ fun i => ?_, fun i k hk => ?_⟩
      · cases i with
        | zero =>
          exact Nat.lt_of_lt_of_eq (hhead m List.mem_cons_self) (hvalues 0 m rfl).symm
        | succ i => exact hg (Nat.lt_succ_self i)
      · cases i with
        | zero => exact Option.some.inj hk
        | succ i => exact hvalues i k hk

/-- The words of a text stand in the order of their numbers. -/
theorem Scan.exists_relocate (source : String) :
    ∃ f, StrictMono f ∧ (Scan.ofText source).tokens =
      (Scan.ofWords (Scan.ofText source).words).tokens.map (Token.relocate f) := by
  have hrising : ((Scan.ofText source).tokens.map Token.position).Pairwise (· < ·) :=
    List.pairwise_map.2 (Scan.pairwise_position source)
  obtain ⟨f, hf, hvalues⟩ := exists_strictMono_of_pairwise hrising
  refine ⟨f, hf, List.ext_getElem? fun i => ?_⟩
  simp only [ofWords, words, List.getElem?_map, List.getElem?_mapIdx, Option.map_map]
  cases ht : (Scan.ofText source).tokens[i]? with
  | none => rfl
  | some t =>
    have hposition : f i = t.position := hvalues i _ (by rw [List.getElem?_map, ht]; rfl)
    simp [Token.relocate, hposition]

namespace Script

/-- The same words spell the same script at other positions. -/
theorem ofScan_relocate {f : Nat → Nat} {scan scan' : Scan}
    (htokens : scan'.tokens = scan.tokens.map (Token.relocate f))
    (hending : scan'.ending.problem? = scan.ending.problem?) :
    Matches (fun script script' => script' = script.relocate f) (ofScan scan) (ofScan scan') := by
  have hreader : Matches (Reader.Relocated f) (Reader.ofScan scan) (Reader.ofScan scan') := by
    rw [Reader.ofScan, Reader.ofScan, htokens]
    exact (Reader.inView_relocate f _ hending).bind fun _ _ _ => .ok ⟨rfl, hending⟩
  have hm : Matches (fun m m' => m'.commands = m.commands.map (Command.relocate f))
      (Manuscript.ofScan scan) (Manuscript.ofScan scan') := by
    refine hreader.bind fun r r' hr => ?_
    rw [hr.kind]
    split
    · exact Reader.commands_relocate _ _ hr
    · exact .error rfl
  refine hm.bind fun m m' hcommands => ?_
  rw [hcommands]
  exact .unless (scopeProblem?_relocate f ⟨m.commands⟩) (.ok rfl)

end Script

/-- What words compile to, whatever their positions. -/
def Scan.gist (words : List (Kind × String) × Option Problem) (entry : Option String)
    (level : Level) : Except (List String) (List UInt16) :=
  match Script.ofScan (Scan.ofWords words) with
  | .error d => .error [d.message]
  | .ok script => script.gist (entry.getD script.defaultEntry) level

/-- **What a text compiles to, positions apart, depends on its words only.** -/
theorem withoutPositions_compile_eq (source : String) (entry : Option String) (level : Level) :
    withoutPositions (compile source entry level) =
      Scan.gist (Scan.ofText source).words entry level := by
  obtain ⟨f, hf, htokens⟩ := Scan.exists_relocate source
  have hending := (Scan.problem?_ending_ofWords (Scan.ofText source).words).symm
  have hmatches := Script.ofScan_relocate htokens hending
  rw [← Script.parse_eq_ofScan] at hmatches
  rw [Scan.gist]
  -- From here on the numbered words count only for what the text has in common with them.
  generalize Script.ofScan (Scan.ofWords (Scan.ofText source).words) = numbered at hmatches ⊢
  cases hparse : Script.parse source with
  | error e =>
    rw [hparse] at hmatches
    cases hmatches with
    | error h =>
      rw [compile, hparse]
      exact congrArg (fun problem => Except.error [problem.message]) h
  | ok script' =>
    have hscoped := Script.wellScoped_of_parse hparse
    rw [hparse] at hmatches
    cases hmatches with
    | ok h =>
      subst h
      rw [compile_of_parse hparse, withoutPositions_compile hscoped.redefinitions_eq_nil
        hscoped.undefinedNames_eq_nil, Script.gist_relocate hf, Script.defaultEntry_relocate]

/-- **Layout does not matter.**  Texts with the same words compile to programs of the same
bytecodes, or the same is wrong with both, in the same order. -/
theorem layout_does_not_matter {source other : String}
    (hwords : (Scan.ofText source).words = (Scan.ofText other).words) (entry : Option String)
    (level : Level) :
    withoutPositions (compile source entry level) =
      withoutPositions (compile other entry level) := by
  rw [withoutPositions_compile_eq, withoutPositions_compile_eq, hwords]

/-- A script that loops and calls itself. -/
def tidy : String :=
  "void main() { while (onBeeper()) { main(); } }"

/-- The words of `tidy` with other blanks between them, and with comments. -/
def untidy : String :=
  "/* again */void  main()\x7b\n// and again\nwhile(onBeeper())\t\x7b main() ;\x7d\n\x7d\n"

/-- Below the level of loops both texts have two things wrong with them; above it both compile. -/
theorem layout_does_not_matter_untidy :
    (Scan.ofText tidy).words = (Scan.ofText untidy).words ∧
      withoutPositions (compile tidy none .basics) =
        withoutPositions (compile untidy none .basics) ∧
      withoutPositions (compile tidy none .recursion) =
        withoutPositions (compile untidy none .recursion) := by
  have hwords : (Scan.ofText tidy).words = (Scan.ofText untidy).words := by decide +kernel
  exact ⟨hwords, layout_does_not_matter hwords none .basics,
    layout_does_not_matter hwords none .recursion⟩

end KarelRobot
