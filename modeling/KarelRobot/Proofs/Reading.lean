import KarelRobot.Proofs.Grammar
import KarelRobot.Proofs.Scanning
import KarelRobot.Proofs.Shadowing

/-!
# The reader keeps to the grammar

What a rule of the reader makes of the tokens that it takes is a tree that these tokens spell, and
the calls that it records on the way are those of the tree.  The proofs call each other as the rules
do.  The lemmas whose names end in `_bind` open a rule that begins with a smaller one: they say what
the smaller rule took, and leave what follows it.

* `Reader.Takes` — a reader stands behind some tokens of another one, with some calls recorded.
* `Reader.condition_sound` — conditions.
* `Reader.statement_sound` — statements and blocks.
* `Manuscript.ofScan_sound` — definitions, and the calls that are handed over with them.
* `Script.parse_sound` — a script that can be read is spelt by the tokens of its text, and nothing
  is wrong with its names.
-/

set_option autoImplicit false
namespace KarelRobot

open Token (Kind)

/-- What is wrong with defining some commands one after the other when the names in scope are
already taken. -/
def Scope.definitionsProblem? : Scope → List Command → Option Diagnostic
  | _, [] => none
  | scope, first :: following =>
    match scope.definitionProblem? first with
    | some problem => some problem
    | none => definitionsProblem? ((first.name, first.parameters.length) :: scope) following

namespace Reader

open Grammar

/-- The reader `rest` stands behind the tokens `ts` of the reader `r`, and has recorded `calls` on
the way there. -/
structure Takes (r : Reader) (ts : List Token) (rest : Reader) (calls : List Call := []) :
    Prop where
  tokens : r.tokens = ts ++ rest.tokens
  ending : rest.ending = r.ending
  /-- There is still no fault in view. -/
  inView : inView r.tokens r.ending = .ok () → inView rest.tokens rest.ending = .ok ()
  recorded : rest.recorded = calls.reverse ++ r.recorded

theorem Takes.trans {r r₁ r₂ : Reader} {ts us : List Token} {calls calls' : List Call}
    (h₁ : r.Takes ts r₁ calls) (h₂ : r₁.Takes us r₂ calls') :
    r.Takes (ts ++ us) r₂ (calls ++ calls') :=
  ⟨by rw [h₁.tokens, h₂.tokens, List.append_assoc], by rw [h₂.ending, h₁.ending],
    fun h => h₂.inView (h₁.inView h),
    by rw [h₂.recorded, h₁.recorded, List.reverse_append, List.append_assoc]⟩

/-- The kind of the first one of some tokens, behind which the input ends. -/
def headKind : List Token → Kind
  | [] => .endOfInput
  | t :: _ => t.kind

theorem kind_eq (r : Reader) : r.kind = headKind r.tokens := by
  obtain ⟨tokens, ending, previous, previousEnd, recorded⟩ := r
  cases tokens with
  | cons t tokens => rfl
  | nil => cases ending <;> rfl

/-- The first token that is taken is the current one. -/
theorem Takes.current {r rest : Reader} {t : Token} {ts : List Token}
    (h : r.Takes (t :: ts) rest) : r.current = t := by
  rw [Reader.current, h.tokens]
  rfl

/-- The tokens still to be read are tokens of a text. -/
def Proper (r : Reader) : Prop :=
  ∀ t ∈ r.tokens, t.Proper

theorem Takes.proper {r rest : Reader} {ts : List Token} {calls : List Call}
    (h : r.Takes ts rest calls) (hr : r.Proper) : rest.Proper :=
  fun t ht => hr t (by rw [h.tokens]; exact List.mem_append_right _ ht)

/-! ## Recorded calls -/

section

variable {r rest : Reader} {ts : List Token} {calls : List Call}

theorem Takes.record (h : r.Takes ts rest calls) (c : Call) :
    r.Takes ts (rest.record c) (calls ++ [c]) where
  tokens := h.tokens
  ending := h.ending
  inView := h.inView
  recorded := by rw [Reader.record, h.recorded, List.reverse_append]; rfl

/-- Whatever has been recorded is handed over. -/
theorem Takes.handedOver (h : r.Takes ts rest calls) (hr : r.recorded = []) :
    r.Takes ts rest.handedOver where
  tokens := h.tokens
  ending := h.ending
  inView := h.inView
  recorded := hr.symm

/-- What is handed over has been recorded since the last time. -/
theorem Takes.caller_eq (h : r.Takes ts rest calls) (hr : r.recorded = [])
    (parameters : List Ident) : rest.caller parameters = ⟨parameters, calls⟩ := by
  rw [caller, h.recorded, hr, List.append_nil, List.reverse_reverse]

end

/-! ## Single tokens and names -/

section

variable {β : Type} {r : Reader} {b : β}

theorem expect_bind {kind : Kind} {f : Reading Token r → Except Diagnostic β}
    (h : (expect kind r >>= f) = .ok b) :
    ∃ t rest hrest, t.kind = kind ∧ r.Takes [t] rest ∧ f ⟨t, rest, hrest⟩ = .ok b := by
  rw [bind_eq_ok] at h
  obtain ⟨v, hv, h⟩ := h
  unfold expect at hv
  split at hv
  · cases hv
  next token tokens htokens =>
    split at hv
    next hkind =>
      rw [bind_eq_ok] at hv
      obtain ⟨⟨⟩, hview, hv⟩ := hv
      rw [pure_eq_ok] at hv
      subst hv
      exact ⟨token, ⟨tokens, r.ending, _, _, r.recorded⟩, _, hkind,
        ⟨htokens, rfl, fun _ => hview, rfl⟩, h⟩
    · cases hv

theorem ident_bind {f : Reading Ident r → Except Diagnostic β} (h : (ident r >>= f) = .ok b) :
    ∃ t rest hrest, t.kind = Kind.identifier ∧ r.Takes [t] rest ∧
      f ⟨t.ident, rest, hrest⟩ = .ok b := by
  rw [ident, bind_assoc] at h
  obtain ⟨t, r₁, h₁, ht, htakes, h⟩ := expect_bind h
  exact ⟨t, r₁, h₁, ht, htakes, h⟩

theorem emptyParens_bind {f : Reading Unit r → Except Diagnostic β}
    (h : (emptyParens r >>= f) = .ok b) :
    ∃ opening closing rest hrest, opening.kind = Kind.openingParen ∧
      closing.kind = Kind.closingParen ∧ r.Takes [opening, closing] rest ∧
      f ⟨(), rest, hrest⟩ = .ok b := by
  rw [emptyParens, bind_assoc] at h
  obtain ⟨opening, r₁, h₁, hopening, htakes₁, h⟩ := expect_bind h
  rw [bind_assoc] at h
  obtain ⟨closing, r₂, h₂, hclosing, htakes₂, h⟩ := expect_bind h
  exact ⟨opening, closing, r₂, _, hopening, hclosing, htakes₁.trans htakes₂, h⟩

end

/-- One or more names. -/
theorem identList_sound {r : Reader} {v : Reading (List Ident) r} (h : identList r = .ok v) :
    ∃ ts, Names ts v.value ∧ r.Takes ts v.rest := by
  rw [identList] at h
  obtain ⟨t, r₁, h₁, ht, htakes₁, h⟩ := ident_bind h
  dsimp only at h
  split at h
  · obtain ⟨comma, r₂, h₂, hcomma, htakes₂, h⟩ := expect_bind h
    dsimp only at h
    rw [bind_eq_ok] at h
    obtain ⟨⟨following, r₃, h₃⟩, hfollowing, h⟩ := h
    rw [pure_eq_ok] at h
    subst h
    obtain ⟨ts, hts, htakes₃⟩ := identList_sound hfollowing
    exact ⟨_, .more ht hcomma hts, htakes₁.trans (htakes₂.trans htakes₃)⟩
  · rw [pure_eq_ok] at h
    subst h
    exact ⟨[t], .one ht, htakes₁⟩
termination_by r.tokens.length

/-- The names that a call passes on. -/
theorem arguments_sound {r : Reader} {v : Reading (List Ident) r} (h : arguments r = .ok v) :
    ∃ ts, Arguments ts v.value ∧ r.Takes ts v.rest := by
  rw [arguments] at h
  obtain ⟨opening, r₁, h₁, hopening, htakes₁, h⟩ := expect_bind h
  dsimp only at h
  split at h
  · rw [bind_eq_ok] at h
    obtain ⟨⟨idents, r₂, h₂⟩, hidents, h⟩ := h
    obtain ⟨closing, r₃, h₃, hclosing, htakes₃, h⟩ := expect_bind h
    rw [pure_eq_ok] at h
    subst h
    obtain ⟨ts, hts, htakes₂⟩ := identList_sound hidents
    exact ⟨_, .some hopening hts hclosing, htakes₁.trans (htakes₂.trans htakes₃)⟩
  · obtain ⟨closing, r₂, h₂, hclosing, htakes₂, h⟩ := expect_bind h
    rw [pure_eq_ok] at h
    subst h
    exact ⟨_, .none hopening hclosing, htakes₁.trans htakes₂⟩

/-- One or more parameters. -/
theorem parameterList_sound {r : Reader} {v : Reading (List Ident) r}
    (h : parameterList r = .ok v) : ∃ ts, ParameterList ts v.value ∧ r.Takes ts v.rest := by
  rw [parameterList] at h
  obtain ⟨void, r₁, h₁, hvoid, htakes₁, h⟩ := expect_bind h
  obtain ⟨t, r₂, h₂, ht, htakes₂, h⟩ := ident_bind h
  obtain ⟨opening, closing, r₃, h₃, hopening, hclosing, htakes₃, h⟩ := emptyParens_bind h
  have hparameter := Parameter.mk hvoid ht hopening hclosing
  have htakes := htakes₁.trans (htakes₂.trans htakes₃)
  dsimp only at h h₁ h₂ h₃
  split at h
  · obtain ⟨comma, r₄, h₄, hcomma, htakes₄, h⟩ := expect_bind h
    dsimp only at h
    rw [bind_eq_ok] at h
    obtain ⟨⟨following, r₅, h₅⟩, hfollowing, h⟩ := h
    rw [pure_eq_ok] at h
    subst h
    obtain ⟨ts, hts, htakes₅⟩ := parameterList_sound hfollowing
    exact ⟨_, .more hparameter hcomma hts, htakes.trans (htakes₄.trans htakes₅)⟩
  · rw [pure_eq_ok] at h
    subst h
    exact ⟨_, .one hparameter, htakes⟩
termination_by r.tokens.length

/-- The parameters of a definition. -/
theorem parameters_sound {r : Reader} {v : Reading (List Ident) r} (h : parameters r = .ok v) :
    ∃ ts, Parameters ts v.value ∧ r.Takes ts v.rest := by
  rw [parameters] at h
  obtain ⟨opening, r₁, h₁, hopening, htakes₁, h⟩ := expect_bind h
  dsimp only at h
  split at h
  · rw [bind_eq_ok] at h
    obtain ⟨⟨idents, r₂, h₂⟩, hidents, h⟩ := h
    obtain ⟨closing, r₃, h₃, hclosing, htakes₃, h⟩ := expect_bind h
    rw [pure_eq_ok] at h
    subst h
    obtain ⟨ts, hts, htakes₂⟩ := parameterList_sound hidents
    exact ⟨_, .some hopening hts hclosing, htakes₁.trans (htakes₂.trans htakes₃)⟩
  · obtain ⟨closing, r₂, h₂, hclosing, htakes₂, h⟩ := expect_bind h
    rw [pure_eq_ok] at h
    subst h
    exact ⟨_, .none hopening hclosing, htakes₁.trans htakes₂⟩

/-! ## Conditions -/

/-- A truth value or a predicate. -/
theorem namedCondition_sound {r : Reader} {v : Reading Condition r}
    (h : namedCondition r = .ok v) :
    ∃ ts, Formula .primary ts v.value ∧ r.Takes ts v.rest := by
  unfold namedCondition at h
  dsimp only at h
  split at h
  next hword =>
    obtain ⟨t, r₁, h₁, ht, htakes, h⟩ := expect_bind h
    rw [pure_eq_ok] at h
    subst h
    rw [htakes.current] at hword ⊢
    refine ⟨[t], .literal ht ?_, htakes⟩
    rcases hword with hword | hword
    · rw [hword]
      rfl
    · rw [hword]
      rfl
  · split at h
    next which hwhich =>
      obtain ⟨t, r₁, h₁, ht, htakes₁, h⟩ := expect_bind h
      obtain ⟨opening, closing, r₂, h₂, hopening, hclosing, htakes₂, h⟩ := emptyParens_bind h
      rw [pure_eq_ok] at h
      subst h
      rw [htakes₁.current] at hwhich
      exact ⟨_, .predicate ht hwhich hopening hclosing, htakes₁.trans htakes₂⟩
    · cases h

mutual

/-- A condition in parentheses. -/
theorem condition_sound {r : Reader} {v : Reading Condition r} (h : condition r = .ok v) :
    ∃ ts, Test ts v.value ∧ r.Takes ts v.rest := by
  rw [condition] at h
  obtain ⟨opening, r₁, h₁, hopening, htakes₁, h⟩ := expect_bind h
  dsimp only at h
  rw [bind_eq_ok] at h
  obtain ⟨⟨inner, r₂, h₂⟩, hinner, h⟩ := h
  obtain ⟨closing, r₃, h₃, hclosing, htakes₃, h⟩ := expect_bind h
  rw [pure_eq_ok] at h
  subst h
  obtain ⟨ts, hts, htakes₂⟩ := either_sound hinner
  exact ⟨_, .mk hopening hts hclosing, htakes₁.trans (htakes₂.trans htakes₃)⟩
termination_by 4 * r.tokens.length

theorem primary_sound {r : Reader} {v : Reading Condition r} (h : primary r = .ok v) :
    ∃ ts, Formula .primary ts v.value ∧ r.Takes ts v.rest := by
  rw [primary] at h
  split at h
  · exact namedCondition_sound h
  · obtain ⟨bang, r₁, h₁, hbang, htakes₁, h⟩ := expect_bind h
    dsimp only at h
    rw [bind_eq_ok] at h
    obtain ⟨⟨operand, r₂, h₂⟩, hoperand, h⟩ := h
    rw [pure_eq_ok] at h
    subst h
    obtain ⟨ts, hts, htakes₂⟩ := primary_sound hoperand
    exact ⟨_, .not hbang hts, htakes₁.trans htakes₂⟩
  · obtain ⟨ts, hts, htakes⟩ := condition_sound h
    cases hts with
    | mk hopening hc hclosing => exact ⟨_, .parentheses hopening hc hclosing, htakes⟩
  · cases h
termination_by 4 * r.tokens.length + 1

theorem both_sound {r : Reader} {v : Reading Condition r} (h : both r = .ok v) :
    ∃ ts, Formula .both ts v.value ∧ r.Takes ts v.rest := by
  rw [both, bind_eq_ok] at h
  obtain ⟨⟨left, r₁, h₁⟩, hleft, h⟩ := h
  obtain ⟨ts, hts, htakes₁⟩ := primary_sound hleft
  dsimp only at h
  split at h
  · obtain ⟨operator, r₂, h₂, hoperator, htakes₂, h⟩ := expect_bind h
    dsimp only at h
    rw [bind_eq_ok] at h
    obtain ⟨⟨right, r₃, h₃⟩, hright, h⟩ := h
    rw [pure_eq_ok] at h
    subst h
    obtain ⟨us, hus, htakes₃⟩ := both_sound hright
    exact ⟨_, .and hts hoperator hus, htakes₁.trans (htakes₂.trans htakes₃)⟩
  · rw [pure_eq_ok] at h
    subst h
    exact ⟨ts, .bothOfPrimary hts, htakes₁⟩
termination_by 4 * r.tokens.length + 2

theorem either_sound {r : Reader} {v : Reading Condition r} (h : either r = .ok v) :
    ∃ ts, Formula .either ts v.value ∧ r.Takes ts v.rest := by
  rw [either, bind_eq_ok] at h
  obtain ⟨⟨left, r₁, h₁⟩, hleft, h⟩ := h
  obtain ⟨ts, hts, htakes₁⟩ := both_sound hleft
  dsimp only at h
  split at h
  · obtain ⟨operator, r₂, h₂, hoperator, htakes₂, h⟩ := expect_bind h
    dsimp only at h
    rw [bind_eq_ok] at h
    obtain ⟨⟨right, r₃, h₃⟩, hright, h⟩ := h
    rw [pure_eq_ok] at h
    subst h
    obtain ⟨us, hus, htakes₃⟩ := either_sound hright
    exact ⟨_, .or hts hoperator hus, htakes₁.trans (htakes₂.trans htakes₃)⟩
  · rw [pure_eq_ok] at h
    subst h
    exact ⟨ts, .eitherOfBoth hts, htakes₁⟩
termination_by 4 * r.tokens.length + 3

end

/-! ## Statements -/

theorem call_sound {r : Reader} {v : Reading Call r} (h : call r = .ok v) :
    ∃ ts, Spells ts (.statement (.call v.value)) ∧ r.Takes ts v.rest := by
  rw [call] at h
  obtain ⟨t, r₁, h₁, ht, htakes₁, h⟩ := ident_bind h
  rw [bind_eq_ok] at h
  obtain ⟨⟨idents, r₂, h₂⟩, hidents, h⟩ := h
  obtain ⟨semicolon, r₃, h₃, hsemicolon, htakes₃, h⟩ := expect_bind h
  rw [pure_eq_ok] at h
  subst h
  obtain ⟨ts, hts, htakes₂⟩ := arguments_sound hidents
  exact ⟨_, .call ht hts hsemicolon, htakes₁.trans (htakes₂.trans htakes₃)⟩

theorem times_sound {r : Reader} (hr : r.Proper) {v : Reading Nat r} (h : times r = .ok v) :
    ∃ opening numeral closing, opening.kind = Kind.openingParen ∧ numeral.kind = Kind.number ∧
      Text.digitsValue numeral.lexeme.toList = v.value ∧ (2 ≤ v.value ∧ v.value ≤ 4095) ∧
      closing.kind = Kind.closingParen ∧ r.Takes [opening, numeral, closing] v.rest := by
  rw [times] at h
  obtain ⟨opening, r₁, h₁, hopening, htakes₁, h⟩ := expect_bind h
  obtain ⟨numeral, r₂, h₂, hnumeral, htakes₂, h⟩ := expect_bind h
  rw [bind_eq_ok] at h
  obtain ⟨times, htimes, h⟩ := h
  obtain ⟨closing, r₃, h₃, hclosing, htakes₃, h⟩ := expect_bind h
  rw [pure_eq_ok] at h
  subst h
  have hproper : numeral.Proper :=
    htakes₁.proper hr numeral (by rw [htakes₂.tokens]; exact List.mem_cons_self)
  obtain ⟨hvalue, hrange⟩ := (Token.toNat_eq_ok_iff hproper hnumeral (by decide)).1 htimes
  exact ⟨opening, numeral, closing, hopening, hnumeral, hvalue, hrange, hclosing,
    htakes₁.trans (htakes₂.trans htakes₃)⟩

/-- A definition inside a command is never read. -/
theorem innerDefinition_ne_ok {α : Type} {outer : String} {r : Reader} {a : α} :
    innerDefinition outer r ≠ .ok a := by
  intro h
  rw [innerDefinition] at h
  obtain ⟨void, r₁, h₁, -, -, h⟩ := expect_bind h
  obtain ⟨t, r₂, h₂, -, -, h⟩ := ident_bind h
  obtain ⟨opening, closing, r₃, h₃, -, -, -, h⟩ := emptyParens_bind h
  dsimp only at h
  split at h
  · cases h
  · cases h

mutual

theorem block_sound {outer : String} {r : Reader} (hr : r.Proper) {v : Reading Block r}
    (h : block outer r = .ok v) :
    ∃ ts, Spells ts (.block v.value) ∧ r.Takes ts v.rest v.value.calls := by
  rw [block] at h
  obtain ⟨opening, r₁, h₁, hopening, htakes₁, h⟩ := expect_bind h
  dsimp only at h
  rw [bind_eq_ok] at h
  obtain ⟨⟨⟨inner, position⟩, r₂, h₂⟩, hinner, h⟩ := h
  rw [pure_eq_ok] at h
  subst h
  obtain ⟨ts, closing, hclosing, rfl, hts, htakes₂⟩ := statements_sound (htakes₁.proper hr) hinner
  exact ⟨_, .block hopening hts hclosing, htakes₁.trans htakes₂⟩
termination_by 3 * r.tokens.length

/-- A case distinction, down to the last of its cases. -/
theorem choice_sound {outer : String} {r : Reader} (hr : r.Proper) {v : Reading Statement r}
    (h : choice outer r = .ok v) :
    ∃ t ts, t.kind = Kind.ifWord ∧ Spells (t :: ts) (.statement v.value) ∧
      r.Takes (t :: ts) v.rest v.value.calls := by
  rw [choice] at h
  obtain ⟨keyword, r₁, h₁, hkeyword, htakes₁, h⟩ := expect_bind h
  dsimp only at h
  rw [bind_eq_ok] at h
  obtain ⟨⟨c, r₂, h₂⟩, hc, h⟩ := h
  dsimp only at h
  rw [bind_eq_ok] at h
  obtain ⟨⟨body, r₃, h₃⟩, hbody, h⟩ := h
  obtain ⟨ts, hts, htakes₂⟩ := condition_sound hc
  have htest := htakes₁.trans htakes₂
  obtain ⟨us, hus, htakes₃⟩ := block_sound (htest.proper hr) hbody
  have htakes := htest.trans htakes₃
  dsimp only at h h₁ h₂ h₃
  split at h
  · obtain ⟨elseWord, r₄, h₄, helse, htakes₄, h⟩ := expect_bind h
    dsimp only at h
    split at h
    · rw [bind_eq_ok] at h
      obtain ⟨⟨otherwise, r₅, h₅⟩, hotherwise, h⟩ := h
      rw [pure_eq_ok] at h
      subst h
      obtain ⟨vs, hvs, htakes₅⟩ := block_sound ((htakes.trans htakes₄).proper hr) hotherwise
      exact ⟨keyword, _, hkeyword, .ifElseBlock hkeyword hts hus helse hvs,
        htakes.trans (htakes₄.trans htakes₅)⟩
    · rw [bind_eq_ok] at h
      obtain ⟨⟨otherwise, r₅, h₅⟩, hotherwise, h⟩ := h
      rw [pure_eq_ok] at h
      subst h
      obtain ⟨next, vs, hnext, hvs, htakes₅⟩ :=
        choice_sound ((htakes.trans htakes₄).proper hr) hotherwise
      exact ⟨keyword, _, hkeyword, .ifElseIf hkeyword hts hus helse hnext hvs,
        htakes.trans (htakes₄.trans htakes₅)⟩
    · cases h
  · rw [pure_eq_ok] at h
    subst h
    exact ⟨keyword, _, hkeyword, .ifThen hkeyword hts hus, htakes⟩
termination_by 3 * r.tokens.length

theorem statement_sound {outer : String} {r : Reader} (hr : r.Proper) {v : Reading Statement r}
    (h : statement outer r = .ok v) :
    ∃ ts, Spells ts (.statement v.value) ∧ r.Takes ts v.rest v.value.calls := by
  rw [statement] at h
  split at h
  · rw [bind_eq_ok] at h
    obtain ⟨⟨c, r₁, h₁⟩, hc, h⟩ := h
    rw [pure_eq_ok] at h
    subst h
    obtain ⟨ts, hts, htakes⟩ := call_sound hc
    exact ⟨ts, hts, htakes.record c⟩
  · obtain ⟨keyword, r₁, h₁, hkeyword, htakes₁, h⟩ := expect_bind h
    dsimp only at h
    rw [bind_eq_ok] at h
    obtain ⟨⟨times, r₂, h₂⟩, htimes, h⟩ := h
    dsimp only at h
    rw [bind_eq_ok] at h
    obtain ⟨⟨body, r₃, h₃⟩, hbody, h⟩ := h
    rw [pure_eq_ok] at h
    subst h
    obtain ⟨opening, numeral, closing, hopening, hnumeral, hvalue, hrange, hclosing, htakes₂⟩ :=
      times_sound (htakes₁.proper hr) htimes
    obtain ⟨ts, hts, htakes₃⟩ := block_sound ((htakes₁.trans htakes₂).proper hr) hbody
    exact ⟨_, .repeatTimes hkeyword hopening hnumeral hvalue hrange hclosing hts,
      htakes₁.trans (htakes₂.trans htakes₃)⟩
  · obtain ⟨keyword, r₁, h₁, hkeyword, htakes₁, h⟩ := expect_bind h
    dsimp only at h
    rw [bind_eq_ok] at h
    obtain ⟨⟨c, r₂, h₂⟩, hc, h⟩ := h
    dsimp only at h
    rw [bind_eq_ok] at h
    obtain ⟨⟨body, r₃, h₃⟩, hbody, h⟩ := h
    rw [pure_eq_ok] at h
    subst h
    obtain ⟨ts, hts, htakes₂⟩ := condition_sound hc
    obtain ⟨us, hus, htakes₃⟩ := block_sound ((htakes₁.trans htakes₂).proper hr) hbody
    exact ⟨_, .whileLoop hkeyword hts hus, htakes₁.trans (htakes₂.trans htakes₃)⟩
  · obtain ⟨t, ts, -, hts, htakes⟩ := choice_sound hr h
    exact ⟨t :: ts, hts, htakes⟩
  · exact absurd h innerDefinition_ne_ok
  · cases h
  · cases h
termination_by 3 * r.tokens.length + 1

/-- The statements of a block, and the brace behind them. -/
theorem statements_sound {outer : String} {r : Reader} (hr : r.Proper)
    {v : Reading (List Statement × Nat) r} (h : statements outer r = .ok v) :
    ∃ ts closing, closing.kind = Kind.closingBrace ∧ closing.position = v.value.2 ∧
      Spells ts (.statements v.value.1) ∧
      r.Takes (ts ++ [closing]) v.rest (Statement.callsAll v.value.1) := by
  rw [statements] at h
  split at h
  · obtain ⟨closing, r₁, h₁, hclosing, htakes, h⟩ := expect_bind h
    rw [pure_eq_ok] at h
    subst h
    exact ⟨[], closing, hclosing, rfl, .nil, htakes⟩
  · rw [bind_eq_ok] at h
    obtain ⟨⟨first, r₁, h₁⟩, hfirst, h⟩ := h
    dsimp only at h
    rw [bind_eq_ok] at h
    obtain ⟨⟨⟨following, position⟩, r₂, h₂⟩, hfollowing, h⟩ := h
    rw [pure_eq_ok] at h
    subst h
    obtain ⟨ts, hts, htakes₁⟩ := statement_sound hr hfirst
    obtain ⟨us, closing, hclosing, rfl, hus, htakes₂⟩ :=
      statements_sound (htakes₁.proper hr) hfollowing
    exact ⟨ts ++ us, closing, hclosing, rfl, .cons hts hus,
      by rw [List.append_assoc]; exact htakes₁.trans htakes₂⟩
termination_by 3 * r.tokens.length + 2

end

/-! ## Definitions -/

theorem definition_sound {r : Reader} (hr : r.Proper) {v : Reading Command r}
    (h : definition r = .ok v) :
    ∃ ts, Definition ts v.value ∧ r.Takes ts v.rest v.value.body.calls := by
  rw [definition] at h
  obtain ⟨void, r₁, h₁, hvoid, htakes₁, h⟩ := expect_bind h
  obtain ⟨name, r₂, h₂, hname, htakes₂, h⟩ := ident_bind h
  dsimp only at h
  rw [bind_eq_ok] at h
  obtain ⟨⟨parameters, r₃, h₃⟩, hparameters, h⟩ := h
  dsimp only at h
  rw [bind_eq_ok] at h
  obtain ⟨⟨body, r₄, h₄⟩, hbody, h⟩ := h
  rw [pure_eq_ok] at h
  subst h
  obtain ⟨ts, hts, htakes₃⟩ := parameters_sound hparameters
  have htakes := htakes₁.trans (htakes₂.trans htakes₃)
  obtain ⟨us, hus, htakes₄⟩ := block_sound (htakes.proper hr) hbody
  exact ⟨_, .mk hvoid hname hts hus, htakes.trans htakes₄⟩

/-- A name in the place of a definition is never read. -/
theorem strayName_ne_ok {α : Type} {last : String} {r : Reader} {a : α} :
    strayName last r ≠ .ok a := by
  intro h
  rw [strayName] at h
  obtain ⟨name, r₁, h₁, -, -, h⟩ := ident_bind h
  obtain ⟨opening, closing, r₂, h₂, -, -, -, h⟩ := emptyParens_bind h
  dsimp only at h
  split at h
  · cases h
  · cases h

theorem command_sound {last : String} {r : Reader} (hr : r.Proper) {v : Reading Command r}
    (h : command last r = .ok v) :
    ∃ ts, Definition ts v.value ∧ r.Takes ts v.rest v.value.body.calls := by
  unfold command at h
  split at h
  · exact definition_sound hr h
  · cases h
  · cases h
  · cases h
  · cases h
  · exact absurd h strayName_ne_ok
  · cases h

/-- The definitions up to the end of the input.  Each is handed over with the calls that it has, if
there are none from before it. -/
theorem commands_sound {scope : Scope} {last : String} {r : Reader} (hr : r.Proper)
    (hrecorded : r.recorded = []) {m : Manuscript} (h : commands scope last r = .ok m) :
    (∃ ts rest, Definitions ts m.commands ∧ r.Takes ts rest ∧ rest.kind = .endOfInput) ∧
      scope.definitionsProblem? m.commands = none ∧
      m.callers = m.commands.map Command.caller := by
  rw [commands] at h
  split at h
  next hend =>
    cases h
    exact ⟨⟨[], r, .nil, ⟨rfl, rfl, id, rfl⟩, hend⟩, rfl, rfl⟩
  · rw [bind_eq_ok] at h
    obtain ⟨⟨first, r₁, h₁⟩, hfirst, h⟩ := h
    dsimp only at h
    split at h
    · cases h
    next hnone =>
      rw [bind_eq_ok] at h
      obtain ⟨following, hfollowing, h⟩ := h
      rw [pure_eq_ok] at h
      subst h
      obtain ⟨ts, hts, htakes₁⟩ := command_sound hr hfirst
      -- Handing over is what makes the next definition start with nothing recorded again.
      have htakes := htakes₁.handedOver hrecorded
      obtain ⟨⟨us, rest, hus, htakes₂, hend⟩, hproblem, hcallers⟩ :=
        commands_sound (htakes.proper hr) rfl hfollowing
      refine ⟨⟨ts ++ us, rest, .cons hts hus, htakes.trans htakes₂, hend⟩, ?_, ?_⟩
      · rw [Scope.definitionsProblem?, hnone]
        exact hproblem
      · exact congrArg₂ List.cons (htakes₁.caller_eq hrecorded _) hcallers
termination_by r.tokens.length

/-- A reader of proper tokens at the end of the input, with no fault in view, has read all. -/
theorem eq_nil_of_kind {r : Reader} (hr : r.Proper) (hend : r.kind = .endOfInput)
    (hview : inView r.tokens r.ending = .ok ()) :
    r.tokens = [] ∧ ∃ position, r.ending = .endOfInput position := by
  rw [kind_eq] at hend
  obtain ⟨tokens, ending, previous, previousEnd, recorded⟩ := r
  cases tokens with
  | cons t tokens => exact absurd hend (hr t List.mem_cons_self).kind
  | nil =>
    cases ending with
    | endOfInput position => exact ⟨rfl, position, rfl⟩
    | fault d => cases hview

end Reader

/-- **Definitions that can be read are spelt by all the tokens of their text,** and are handed over
with the calls that they have. -/
theorem Manuscript.ofScan_sound {source : String} {m : Manuscript}
    (h : Manuscript.ofScan (Scan.ofText source) = .ok m) :
    (∃ position, (Scan.ofText source).ending = .endOfInput position) ∧
      Grammar.Definitions (Scan.ofText source).tokens m.commands ∧ m.commands ≠ [] ∧
      Scope.builtins.definitionsProblem? m.commands = none ∧
      m.callers = m.commands.map Command.caller := by
  rw [Manuscript.ofScan, bind_eq_ok] at h
  obtain ⟨r, hr, h⟩ := h
  rw [Reader.ofScan, bind_eq_ok] at hr
  obtain ⟨⟨⟩, hview, hr⟩ := hr
  rw [pure_eq_ok] at hr
  subst hr
  split at h
  next hkind =>
    have hproper : Reader.Proper
        ⟨(Scan.ofText source).tokens, (Scan.ofText source).ending, 0, 0, []⟩ := Scan.proper _
    obtain ⟨⟨ts, rest, hts, htakes, hend⟩, hproblem, hcallers⟩ :=
      Reader.commands_sound hproper rfl h
    obtain ⟨hnil, position, hposition⟩ :=
      Reader.eq_nil_of_kind (htakes.proper hproper) hend (htakes.inView hview)
    have htokens : (Scan.ofText source).tokens = ts ++ rest.tokens := htakes.tokens
    rw [hnil, List.append_nil] at htokens
    refine ⟨⟨position, by rw [← hposition, htakes.ending]⟩, htokens ▸ hts, ?_, hproblem, hcallers⟩
    intro hempty
    rw [hempty] at hts
    cases hts
    rw [Reader.kind_eq, htokens] at hkind
    cases hkind
  · cases h

/-- The check of the recorded calls comes to the rule for the commands of the manuscript. -/
theorem Manuscript.callsProblem?_eq {source : String} {m : Manuscript}
    (h : Manuscript.ofScan (Scan.ofText source) = .ok m) :
    m.callsProblem? = Script.scopeProblem? ⟨m.commands⟩ := by
  obtain ⟨-, -, -, -, hcallers⟩ := ofScan_sound h
  rw [← Script.callsProblem?_eq, Script.callsProblem?, ← hcallers]

namespace Script

/-- The script that a scan spells, with its calls checked by the rule. -/
def ofScan (scan : Scan) : Except Diagnostic Script := do
  let m ← Manuscript.ofScan scan
  match scopeProblem? ⟨m.commands⟩ with
  | some problem => .error problem
  | none => return ⟨m.commands⟩

theorem parse_eq_ofScan (source : String) : parse source = ofScan (Scan.ofText source) := by
  rw [parse, ofScan]
  cases hm : Manuscript.ofScan (Scan.ofText source) with
  | error d => rfl
  | ok m =>
    have hproblem := Manuscript.callsProblem?_eq hm
    cases hscope : scopeProblem? ⟨m.commands⟩ with
    | some problem => simp only [bind, Except.bind, hproblem.trans hscope, hscope]
    | none => simp only [bind, Except.bind, hproblem.trans hscope, hscope]

/-- A script that can be read has been a manuscript with which nothing was wrong. -/
theorem exists_manuscript {source : String} {script : Script} (h : parse source = .ok script) :
    ∃ m, Manuscript.ofScan (Scan.ofText source) = .ok m ∧ m.commands = script.commands ∧
      script.scopeProblem? = none := by
  rw [parse_eq_ofScan, ofScan, bind_eq_ok] at h
  obtain ⟨m, hm, h⟩ := h
  split at h
  · cases h
  next hnone =>
    rw [pure_eq_ok] at h
    subst h
    exact ⟨m, hm, rfl, hnone⟩

/-- **A script that can be read is spelt by all the tokens of its text,** and nothing is wrong with
the names that its commands have and use. -/
theorem parse_sound {source : String} {script : Script} (h : parse source = .ok script) :
    (∃ position, (Scan.ofText source).ending = .endOfInput position) ∧
      Grammar.Definitions (Scan.ofText source).tokens script.commands ∧ script.commands ≠ [] ∧
      Scope.builtins.definitionsProblem? script.commands = none ∧
      script.scopeProblem? = none := by
  obtain ⟨m, hm, hcommands, hscope⟩ := exists_manuscript h
  obtain ⟨hending, hspells, hne, hdefinitions, -⟩ := Manuscript.ofScan_sound hm
  rw [hcommands] at hspells hne hdefinitions
  exact ⟨hending, hspells, hne, hdefinitions, hscope⟩

end Script
end KarelRobot
