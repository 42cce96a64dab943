import KarelRobot.Proofs.Reading

/-!
# The reader accepts the grammar

Tokens that spell a tree are read as that tree, if what follows them cannot be part of it: a list of
names is not followed by a comma, operands not by their operator, and a case distinction not by
another case.  Together with what the reader keeps to, a text is read as a script if and only if its
tokens spell that script and nothing is wrong with its names.

* `Reader.Stands` — a reader in front of the tokens of a text.
* `Reader.Reads` — what a rule makes of the tokens, and the tokens it leaves.
* `Reader.formula_reads`, `Reader.spells_reads` — conditions and statements are read as they are
  spelt.
* `Script.parse_eq_ok_iff` — the texts of a script.
-/

set_option autoImplicit false
namespace KarelRobot

open Token (Kind)

namespace Reader

open Grammar

/-- A reader in front of some tokens of a text, behind which the input ends. -/
structure Stands (r : Reader) (ts : List Token) : Prop where
  tokens : r.tokens = ts
  ending : ∃ position, r.ending = .endOfInput position
  proper : r.Proper

/-- A rule makes a value of the first tokens and leaves the reader in front of the others. -/
def Reads {α : Type} {r : Reader} (x : Except Diagnostic (Reading α r)) (value : α)
    (us : List Token) : Prop :=
  ∃ rest hrest, x = .ok ⟨value, rest, hrest⟩ ∧ rest.Stands us

section Rules

variable {α β : Type} {r r' : Reader} {a : α} {b : β} {t opening closing : Token}
  {ts us vs : List Token}

theorem Stands.kind (h : r.Stands us) : r.kind = headKind us := by
  rw [kind_eq, h.tokens]

theorem Stands.current (h : r.Stands (t :: us)) : r.current = t := by
  rw [Reader.current, h.tokens]

/-- Where a reader stands has nothing to do with the calls that it has recorded. -/
theorem Stands.recorded (h : r.Stands us) (calls : List Call) :
    Stands { r with recorded := calls } us :=
  ⟨h.tokens, h.ending, h.proper⟩

theorem Stands.reads {hrest : r'.tokens.length < r.tokens.length} (h : r'.Stands us) :
    Reads (pure ⟨a, r', hrest⟩) a us :=
  ⟨r', hrest, rfl, h⟩

/-- A rule that begins with a smaller one. -/
theorem Reads.bind {x : Except Diagnostic (Reading α r)}
    {f : Reading α r → Except Diagnostic (Reading β r')} (h : Reads x a us)
    (hf : ∀ rest hrest, rest.Stands us → Reads (f ⟨a, rest, hrest⟩) b vs) :
    Reads (x >>= f) b vs := by
  obtain ⟨rest, hrest, rfl, hstands⟩ := h
  exact hf rest hrest hstands

/-! ## Single tokens and names -/

theorem inView_endOfInput (ts : List Token) (position : Nat) :
    inView ts (.endOfInput position) = .ok () := by
  unfold inView
  split
  · rfl
  · rfl
  next heq => cases heq

theorem expect_reads {kind : Kind} (hr : r.Stands (t :: us)) (ht : t.kind = kind) :
    Reads (expect kind r) t us := by
  obtain ⟨tokens, ending, previous, previousEnd, recorded⟩ := r
  obtain ⟨rfl, ⟨position, rfl⟩, hproper⟩ := hr
  refine ⟨⟨us, .endOfInput position, t.position, t.endPosition, recorded⟩, Nat.lt_succ_self _, ?_,
    rfl, ⟨position, rfl⟩, fun u hu => hproper u (List.mem_cons_of_mem _ hu)⟩
  rw [expect]
  simp only [if_pos ht, inView_endOfInput]
  rfl

theorem ident_reads (hr : r.Stands (t :: us)) (ht : t.kind = .identifier) :
    Reads (ident r) t.ident us := by
  rw [ident]
  exact (expect_reads hr ht).bind fun r₁ h₁ hr₁ => hr₁.reads

theorem emptyParens_reads (hr : r.Stands (opening :: closing :: us))
    (hopening : opening.kind = .openingParen) (hclosing : closing.kind = .closingParen) :
    Reads (emptyParens r) () us := by
  rw [emptyParens]
  refine (expect_reads hr hopening).bind fun r₁ h₁ hr₁ => ?_
  exact (expect_reads hr₁ hclosing).bind fun r₂ h₂ hr₂ => hr₂.reads

/-- One or more names, with no comma behind them. -/
theorem names_reads {idents : List Ident} (h : Names ts idents) (hr : r.Stands (ts ++ us))
    (hus : headKind us ≠ .comma) : Reads (identList r) idents us := by
  induction h generalizing r with
  | one ht =>
    rw [identList]
    refine (ident_reads hr ht).bind fun r₁ h₁ hr₁ => ?_
    dsimp only
    rw [if_neg (by rw [hr₁.kind]; exact hus)]
    exact hr₁.reads
  | more ht hcomma hfollowing ih =>
    rw [identList]
    refine (ident_reads hr ht).bind fun r₁ h₁ hr₁ => ?_
    dsimp only
    rw [if_pos (by rw [hr₁.kind]; exact hcomma)]
    refine (expect_reads hr₁ hcomma).bind fun r₂ h₂ hr₂ => ?_
    exact (ih hr₂).bind fun r₃ h₃ hr₃ => hr₃.reads

theorem headKind_names {idents : List Ident} (h : Names ts idents) (us : List Token) :
    headKind (ts ++ us) = .identifier := by
  cases h with
  | one ht => exact ht
  | more ht => exact ht

theorem headKind_ne {kind other : Kind} (ht : t.kind = kind) (hne : kind ≠ other) :
    headKind (t :: us) ≠ other :=
  fun h => hne (ht.symm.trans h)

/-- The names that a call passes on. -/
theorem arguments_reads {idents : List Ident} (h : Arguments ts idents)
    (hr : r.Stands (ts ++ us)) : Reads (arguments r) idents us := by
  rw [arguments]
  cases h with
  | none hopening hclosing =>
    refine (expect_reads hr hopening).bind fun r₁ h₁ hr₁ => ?_
    dsimp only
    rw [if_neg (by rw [hr₁.kind]; exact headKind_ne hclosing (by decide))]
    exact (expect_reads hr₁ hclosing).bind fun r₂ h₂ hr₂ => hr₂.reads
  | some hopening hnames hclosing =>
    rw [List.cons_append, List.append_assoc] at hr
    refine (expect_reads hr hopening).bind fun r₁ h₁ hr₁ => ?_
    dsimp only
    rw [if_pos (by rw [hr₁.kind]; exact headKind_names hnames _)]
    refine (names_reads hnames hr₁ (headKind_ne hclosing (by decide))).bind
      fun r₂ h₂ hr₂ => ?_
    exact (expect_reads hr₂ hclosing).bind fun r₃ h₃ hr₃ => hr₃.reads

/-- One or more parameters, with no comma behind them. -/
theorem parameterList_reads {idents : List Ident} (h : ParameterList ts idents)
    (hr : r.Stands (ts ++ us)) (hus : headKind us ≠ .comma) :
    Reads (parameterList r) idents us := by
  induction h generalizing r with
  | one hparameter =>
    cases hparameter with
    | mk hvoid ht hopening hclosing =>
      rw [parameterList]
      refine (expect_reads hr hvoid).bind fun r₁ h₁ hr₁ => ?_
      refine (ident_reads hr₁ ht).bind fun r₂ h₂ hr₂ => ?_
      refine (emptyParens_reads hr₂ hopening hclosing).bind fun r₃ h₃ hr₃ => ?_
      dsimp only
      rw [if_neg (by rw [hr₃.kind]; exact hus)]
      exact hr₃.reads
  | more hparameter hcomma hfollowing ih =>
    cases hparameter with
    | mk hvoid ht hopening hclosing =>
      rw [parameterList]
      refine (expect_reads hr hvoid).bind fun r₁ h₁ hr₁ => ?_
      refine (ident_reads hr₁ ht).bind fun r₂ h₂ hr₂ => ?_
      refine (emptyParens_reads hr₂ hopening hclosing).bind fun r₃ h₃ hr₃ => ?_
      dsimp only
      rw [if_pos (by rw [hr₃.kind]; exact hcomma)]
      refine (expect_reads hr₃ hcomma).bind fun r₄ h₄ hr₄ => ?_
      exact (ih hr₄).bind fun r₅ h₅ hr₅ => hr₅.reads

theorem headKind_parameterList {idents : List Ident} (h : ParameterList ts idents)
    (us : List Token) : headKind (ts ++ us) = .voidWord := by
  cases h with
  | one hparameter => cases hparameter with | mk hvoid => exact hvoid
  | more hparameter => cases hparameter with | mk hvoid => exact hvoid

/-- The parameters of a definition. -/
theorem parameters_reads {idents : List Ident} (h : Parameters ts idents)
    (hr : r.Stands (ts ++ us)) : Reads (parameters r) idents us := by
  rw [parameters]
  cases h with
  | none hopening hclosing =>
    refine (expect_reads hr hopening).bind fun r₁ h₁ hr₁ => ?_
    dsimp only
    rw [if_neg (by rw [hr₁.kind]; exact headKind_ne hclosing (by decide))]
    exact (expect_reads hr₁ hclosing).bind fun r₂ h₂ hr₂ => hr₂.reads
  | some hopening hparameters hclosing =>
    rw [List.cons_append, List.append_assoc] at hr
    refine (expect_reads hr hopening).bind fun r₁ h₁ hr₁ => ?_
    dsimp only
    rw [if_pos (by rw [hr₁.kind]; exact headKind_parameterList hparameters _)]
    refine (parameterList_reads hparameters hr₁ (headKind_ne hclosing (by decide))).bind
      fun r₂ h₂ hr₂ => ?_
    exact (expect_reads hr₂ hclosing).bind fun r₃ h₃ hr₃ => hr₃.reads

/-! ## Conditions -/

/-- The rule for conditions that hold together as tightly. -/
def ofBinding : Binding → (r : Reader) → Except Diagnostic (Reading Condition r)
  | .primary => primary
  | .both => both
  | .either => either

/-- The kinds of tokens that would go on with a condition. -/
def operators : Binding → List Kind
  | .primary => []
  | .both => [.ampersandAmpersand]
  | .either => [.ampersandAmpersand, .barBar]

theorem literal_reads {value : Bool} (hr : r.Stands (t :: us)) (ht : t.kind = .identifier)
    (hvalue : t.lexeme = if value then "true" else "false") :
    Reads (namedCondition r) (.literal value t.position) us := by
  unfold namedCondition
  dsimp only
  rw [hr.current, hvalue]
  cases value with
  | false => exact (expect_reads hr ht).bind fun r₁ h₁ hr₁ => hr₁.reads
  | true => exact (expect_reads hr ht).bind fun r₁ h₁ hr₁ => hr₁.reads

theorem predicate_reads {which : Predicate} (hr : r.Stands (t :: opening :: closing :: us))
    (ht : t.kind = .identifier) (hwhich : Predicate.ofName? t.lexeme = some which)
    (hopening : opening.kind = .openingParen) (hclosing : closing.kind = .closingParen) :
    Reads (namedCondition r) (.predicate which t.position) us := by
  have hword : ¬ (t.lexeme = "false" ∨ t.lexeme = "true") := by
    rintro (hword | hword)
    · rw [hword] at hwhich
      exact absurd hwhich (by decide +revert)
    · rw [hword] at hwhich
      exact absurd hwhich (by decide +revert)
  unfold namedCondition
  dsimp only
  rw [hr.current, if_neg hword, hwhich]
  refine (expect_reads hr ht).bind fun r₁ h₁ hr₁ => ?_
  exact (emptyParens_reads hr₁ hopening hclosing).bind fun r₂ h₂ hr₂ => hr₂.reads

/-- A condition in parentheses, if the one inside is read. -/
theorem condition_reads_of_either {c : Condition}
    (hinner : ∀ {r₁ : Reader}, r₁.Stands (ts ++ closing :: us) →
      Reads (either r₁) c (closing :: us))
    (hr : r.Stands (opening :: (ts ++ closing :: us))) (hopening : opening.kind = .openingParen)
    (hclosing : closing.kind = .closingParen) : Reads (condition r) c us := by
  rw [condition]
  refine (expect_reads hr hopening).bind fun r₁ h₁ hr₁ => ?_
  refine (hinner hr₁).bind fun r₂ h₂ hr₂ => ?_
  exact (expect_reads hr₂ hclosing).bind fun r₃ h₃ hr₃ => hr₃.reads

/-- **A condition is read as it is spelt,** with none of its operators behind it. -/
theorem formula_reads {binding : Binding} {c : Condition} (h : Formula binding ts c)
    (hr : r.Stands (ts ++ us)) (hus : headKind us ∉ operators binding) :
    Reads (ofBinding binding r) c us := by
  induction h generalizing r us with
  | literal ht hvalue =>
    rw [ofBinding, primary, hr.kind.trans ht]
    exact literal_reads hr ht hvalue
  | predicate ht hwhich hopening hclosing =>
    rw [ofBinding, primary, hr.kind.trans ht]
    exact predicate_reads hr ht hwhich hopening hclosing
  | not hbang hc ih =>
    rw [ofBinding, primary, hr.kind.trans hbang]
    refine (expect_reads hr hbang).bind fun r₁ h₁ hr₁ => ?_
    exact (ih hr₁ hus).bind fun r₂ h₂ hr₂ => hr₂.reads
  | parentheses hopening hc hclosing ih =>
    rw [ofBinding, primary, hr.kind.trans hopening]
    rw [List.cons_append, List.append_assoc] at hr
    refine condition_reads_of_either (fun hr₁ => ih hr₁ ?_) hr hopening hclosing
    simp [headKind, hclosing, operators]
  | bothOfPrimary hc ih =>
    rw [ofBinding, both]
    refine (ih hr List.not_mem_nil).bind fun r₁ h₁ hr₁ => ?_
    dsimp only
    rw [if_neg (by rw [hr₁.kind]; simpa [operators] using hus)]
    exact hr₁.reads
  | and hleft hoperator hright ihleft ihright =>
    rw [List.append_assoc, List.cons_append] at hr
    rw [ofBinding, both]
    refine (ihleft hr List.not_mem_nil).bind fun r₁ h₁ hr₁ => ?_
    dsimp only
    rw [if_pos (by rw [hr₁.kind]; exact hoperator)]
    refine (expect_reads hr₁ hoperator).bind fun r₂ h₂ hr₂ => ?_
    exact (ihright hr₂ hus).bind fun r₃ h₃ hr₃ => hr₃.reads
  | eitherOfBoth hc ih =>
    simp only [operators, List.mem_cons, not_or] at hus
    rw [ofBinding, either]
    refine (ih hr (by simpa [operators] using hus.1)).bind fun r₁ h₁ hr₁ => ?_
    dsimp only
    rw [if_neg (by rw [hr₁.kind]; exact hus.2.1)]
    exact hr₁.reads
  | or hleft hoperator hright ihleft ihright =>
    rw [List.append_assoc, List.cons_append] at hr
    rw [ofBinding, either]
    refine (ihleft hr (by simp [headKind, hoperator, operators])).bind fun r₁ h₁ hr₁ => ?_
    dsimp only
    rw [if_pos (by rw [hr₁.kind]; exact hoperator)]
    refine (expect_reads hr₁ hoperator).bind fun r₂ h₂ hr₂ => ?_
    exact (ihright hr₂ hus).bind fun r₃ h₃ hr₃ => hr₃.reads

theorem condition_reads {c : Condition} (h : Test ts c) (hr : r.Stands (ts ++ us)) :
    Reads (condition r) c us := by
  cases h with
  | mk hopening hc hclosing =>
    rw [List.cons_append, List.append_assoc] at hr
    refine condition_reads_of_either (fun hr₁ => formula_reads hc hr₁ ?_) hr hopening hclosing
    simp [headKind, hclosing, operators]

/-! ## Statements -/

theorem call_reads {idents : List Ident} {semicolon : Token}
    (hr : r.Stands (t :: (ts ++ semicolon :: us))) (ht : t.kind = .identifier)
    (harguments : Arguments ts idents) (hsemicolon : semicolon.kind = .semicolon) :
    Reads (call r) ⟨t.ident, idents⟩ us := by
  rw [call]
  refine (ident_reads hr ht).bind fun r₁ h₁ hr₁ => ?_
  refine (arguments_reads harguments hr₁).bind fun r₂ h₂ hr₂ => ?_
  exact (expect_reads hr₂ hsemicolon).bind fun r₃ h₃ hr₃ => hr₃.reads

theorem times_reads {numeral : Token} {value : Nat}
    (hr : r.Stands (opening :: numeral :: closing :: us)) (hopening : opening.kind = .openingParen)
    (hnumeral : numeral.kind = .number)
    (hvalue : Text.digitsValue numeral.lexeme.toList = value) (hrange : 2 ≤ value ∧ value ≤ 4095)
    (hclosing : closing.kind = .closingParen) : Reads (times r) value us := by
  have hproper : numeral.Proper := hr.proper numeral (by rw [hr.tokens]; simp)
  have htimes : numeral.toNat repeatRange.1 repeatRange.2 = .ok value :=
    (Token.toNat_eq_ok_iff hproper hnumeral (by decide)).2 ⟨hvalue, hrange⟩
  rw [times]
  refine (expect_reads hr hopening).bind fun r₁ h₁ hr₁ => ?_
  refine (expect_reads hr₁ hnumeral).bind fun r₂ h₂ hr₂ => ?_
  dsimp only
  rw [htimes]
  exact (expect_reads hr₂ hclosing).bind fun r₃ h₃ hr₃ => hr₃.reads

/-- A statement starts neither with another case nor with the end of a block. -/
theorem headKind_statement {s : Statement} (h : Spells ts (.statement s)) (us : List Token) :
    headKind (ts ++ us) ≠ .elseWord ∧ headKind (ts ++ us) ≠ .closingBrace := by
  cases h with
  | call ht => simp [headKind, ht]
  | repeatTimes hkeyword | whileLoop hkeyword => simp [headKind, hkeyword]
  | ifThen hkeyword | ifElseBlock hkeyword | ifElseIf hkeyword => simp [headKind, hkeyword]

theorem headKind_statements {ss : List Statement} (h : Spells ts (.statements ss))
    (hclosing : closing.kind = .closingBrace) : headKind (ts ++ closing :: us) ≠ .elseWord := by
  cases h with
  | nil => simp [headKind, hclosing]
  | cons hfirst hfollowing =>
    rw [List.append_assoc]
    exact (headKind_statement hfirst _).1

theorem headKind_block {body : Block} (h : Spells ts (.block body)) (us : List Token) :
    headKind (ts ++ us) = .openingBrace := by
  cases h with
  | block hopening => exact hopening

/-- A piece of a command is read from its tokens.  The rule for statements behind one another goes
on to the brace that closes their block. -/
def IsRead (ts : List Token) : Tree → Prop
  | .statement s => ∀ {outer : String} {r : Reader} {us : List Token}, r.Stands (ts ++ us) →
      headKind us ≠ .elseWord → Reads (statement outer r) s us
  | .statements ss => ∀ {outer : String} {r : Reader} {closing : Token} {us : List Token},
      r.Stands (ts ++ closing :: us) → closing.kind = .closingBrace →
      Reads (statements outer r) (ss, closing.position) us
  | .block body => ∀ {outer : String} {r : Reader} {us : List Token}, r.Stands (ts ++ us) →
      Reads (block outer r) body us

theorem statement_eq_choice {outer : String} (hkind : r.kind = .ifWord) :
    statement outer r = choice outer r := by
  rw [statement, hkind]

/-- **A piece of a command is read as it is spelt.** -/
theorem spells_reads {tree : Tree} (h : Spells ts tree) : IsRead ts tree := by
  induction h with
  | call ht harguments hsemicolon =>
    intro outer r us hr hus
    rw [List.cons_append, List.append_assoc] at hr
    rw [statement, hr.kind.trans ht]
    exact (call_reads hr ht harguments hsemicolon).bind fun r₁ h₁ hr₁ => (hr₁.recorded _).reads
  | repeatTimes hkeyword hopening hnumeral hvalue hrange hclosing hbody ih =>
    intro outer r us hr hus
    rw [statement, hr.kind.trans hkeyword]
    refine (expect_reads hr hkeyword).bind fun r₁ h₁ hr₁ => ?_
    refine (times_reads hr₁ hopening hnumeral hvalue hrange hclosing).bind fun r₂ h₂ hr₂ => ?_
    exact (ih hr₂).bind fun r₃ h₃ hr₃ => hr₃.reads
  | whileLoop hkeyword hc hbody ih =>
    intro outer r us hr hus
    rw [List.cons_append, List.append_assoc] at hr
    rw [statement, hr.kind.trans hkeyword]
    refine (expect_reads hr hkeyword).bind fun r₁ h₁ hr₁ => ?_
    refine (condition_reads hc hr₁).bind fun r₂ h₂ hr₂ => ?_
    exact (ih hr₂).bind fun r₃ h₃ hr₃ => hr₃.reads
  | ifThen hkeyword hc hbody ih =>
    intro outer r us hr hus
    rw [List.cons_append, List.append_assoc] at hr
    rw [statement_eq_choice (hr.kind.trans hkeyword), choice]
    refine (expect_reads hr hkeyword).bind fun r₁ h₁ hr₁ => ?_
    refine (condition_reads hc hr₁).bind fun r₂ h₂ hr₂ => ?_
    refine (ih hr₂).bind fun r₃ h₃ hr₃ => ?_
    dsimp only
    rw [if_neg (by rw [hr₃.kind]; exact hus)]
    exact hr₃.reads
  | ifElseBlock hkeyword hc hbody helse hotherwise ihbody ihother =>
    intro outer r us hr hus
    simp only [List.cons_append, List.append_assoc] at hr
    rw [statement_eq_choice (hr.kind.trans hkeyword), choice]
    refine (expect_reads hr hkeyword).bind fun r₁ h₁ hr₁ => ?_
    refine (condition_reads hc hr₁).bind fun r₂ h₂ hr₂ => ?_
    refine (ihbody hr₂).bind fun r₃ h₃ hr₃ => ?_
    dsimp only
    rw [if_pos (by rw [hr₃.kind]; exact helse)]
    refine (expect_reads hr₃ helse).bind fun r₄ h₄ hr₄ => ?_
    dsimp only
    rw [hr₄.kind.trans (headKind_block hotherwise us)]
    exact (ihother hr₄).bind fun r₅ h₅ hr₅ => hr₅.reads
  | ifElseIf hkeyword hc hbody helse hnext hotherwise ihbody ihother =>
    intro outer r us hr hus
    simp only [List.cons_append, List.append_assoc] at hr
    rw [statement_eq_choice (hr.kind.trans hkeyword), choice]
    refine (expect_reads hr hkeyword).bind fun r₁ h₁ hr₁ => ?_
    refine (condition_reads hc hr₁).bind fun r₂ h₂ hr₂ => ?_
    refine (ihbody hr₂).bind fun r₃ h₃ hr₃ => ?_
    dsimp only
    rw [if_pos (by rw [hr₃.kind]; exact helse)]
    refine (expect_reads hr₃ helse).bind fun r₄ h₄ hr₄ => ?_
    have hkind : r₄.kind = .ifWord := hr₄.kind.trans hnext
    dsimp only
    rw [hkind]
    dsimp only
    rw [← statement_eq_choice hkind]
    exact (ihother hr₄ hus).bind fun r₅ h₅ hr₅ => hr₅.reads
  | nil =>
    intro outer r closing us hr hclosing
    rw [statements, if_pos (by rw [hr.kind]; exact hclosing)]
    exact (expect_reads hr hclosing).bind fun r₁ h₁ hr₁ => hr₁.reads
  | cons hfirst hfollowing ihfirst ihfollowing =>
    intro outer r closing us hr hclosing
    rw [List.append_assoc] at hr
    rw [statements, if_neg (by rw [hr.kind]; exact (headKind_statement hfirst _).2)]
    refine (ihfirst hr (headKind_statements hfollowing hclosing)).bind fun r₁ h₁ hr₁ => ?_
    exact (ihfollowing hr₁ hclosing).bind fun r₂ h₂ hr₂ => hr₂.reads
  | block hopening hstatements hclosing ih =>
    intro outer r us hr
    rw [List.cons_append, List.append_assoc] at hr
    rw [block]
    refine (expect_reads hr hopening).bind fun r₁ h₁ hr₁ => ?_
    exact (ih hr₁ hclosing).bind fun r₂ h₂ hr₂ => hr₂.reads

/-! ## Definitions -/

theorem headKind_definition {c : Command} (h : Definition ts c) (us : List Token) :
    headKind (ts ++ us) = .voidWord := by
  cases h with
  | mk hvoid => exact hvoid

theorem command_reads {c : Command} (h : Definition ts c) (hr : r.Stands (ts ++ us))
    (last : String) : Reads (command last r) c us := by
  rw [command, hr.kind.trans (headKind_definition h us)]
  cases h with
  | mk hvoid hname hparameters hbody =>
    simp only [List.cons_append, List.append_assoc] at hr
    rw [definition]
    refine (expect_reads hr hvoid).bind fun r₁ h₁ hr₁ => ?_
    refine (ident_reads hr₁ hname).bind fun r₂ h₂ hr₂ => ?_
    refine (parameters_reads hparameters hr₂).bind fun r₃ h₃ hr₃ => ?_
    exact (spells_reads hbody hr₃).bind fun r₄ h₄ hr₄ => hr₄.reads

/-- Definitions up to the end of the input are read if they may stand behind one another. -/
theorem exists_commands_eq_ok {cs : List Command} (h : Definitions ts cs) (hr : r.Stands ts)
    {scope : Scope} (hscope : scope.definitionsProblem? cs = none) (last : String) :
    ∃ callers, commands scope last r = .ok ⟨cs, callers⟩ := by
  induction h generalizing r scope last with
  | nil =>
    refine ⟨[], ?_⟩
    rw [commands, if_pos (by rw [hr.kind]; rfl)]
  | @cons ts us first following hfirst hfollowing ih =>
    have hkind := hr.kind.trans (headKind_definition hfirst _)
    rw [Scope.definitionsProblem?] at hscope
    split at hscope
    · cases hscope
    next hnone =>
      obtain ⟨r₁, h₁, hread, hr₁⟩ := command_reads hfirst hr last
      have hstands : r₁.handedOver.Stands us := hr₁.recorded []
      obtain ⟨callers, hcallers⟩ := ih hstands hscope first.name
      refine ⟨r₁.caller first.parameters :: callers, ?_⟩
      rw [commands, if_neg (by rw [hkind]; decide), hread]
      simp only [bind, Except.bind]
      rw [hnone, hcallers]
      rfl

end Rules
end Reader

/-- The tokens of a text without a fault. -/
theorem Scan.toList_eq_ok_iff {scan : Scan} {tokens : List Token} {position : Nat} :
    scan.toList = .ok (tokens ++ [Token.endOfInput position]) ↔
      scan = ⟨tokens, .endOfInput position⟩ := by
  obtain ⟨scanned, ending⟩ := scan
  cases ending with
  | fault d => exact ⟨nofun, nofun⟩
  | endOfInput last =>
    constructor
    · intro h
      rw [toList, Except.ok.injEq] at h
      obtain ⟨htokens, hlast⟩ := List.append_inj' h rfl
      cases htokens
      cases hlast
      rfl
    · intro h
      cases h
      rfl

/-- A text whose tokens spell a script in which nothing is wrong with the names is read as that
script. -/
theorem Script.parse_complete {source : String} {script : Script} {tokens : List Token}
    {position : Nat} (hscan : Scan.ofText source = ⟨tokens, .endOfInput position⟩)
    (hne : script.commands ≠ []) (hspells : Grammar.Definitions tokens script.commands)
    (hdefinitions : Scope.builtins.definitionsProblem? script.commands = none)
    (hscope : script.scopeProblem? = none) : Script.parse source = .ok script := by
  obtain ⟨commands⟩ := script
  have hproper := Scan.proper (Cursor.ofText source)
  have hr : Reader.Stands ⟨tokens, .endOfInput position, 0, 0, []⟩ tokens :=
    ⟨rfl, ⟨position, rfl⟩, fun t ht => hproper t (by rw [← Scan.ofText, hscan]; exact ht)⟩
  have hkind : Reader.kind ⟨tokens, .endOfInput position, 0, 0, []⟩ = .voidWord := by
    rw [hr.kind]
    cases hspells with
    | nil => exact absurd rfl hne
    | cons hfirst hfollowing => exact Reader.headKind_definition hfirst _
  obtain ⟨callers, hcommands⟩ := Reader.exists_commands_eq_ok hspells hr hdefinitions ""
  rw [parse_eq_ofScan, ofScan, Manuscript.ofScan, Reader.ofScan, hscan]
  simp only [Reader.inView_endOfInput, bind, Except.bind, pure, Except.pure]
  rw [if_pos hkind, hcommands]
  dsimp only
  rw [hscope]

/-- **A text is read as a script if and only if it has tokens up to its end, one or more
definitions, which these tokens spell, and nothing is wrong with the names that the commands have
and use.** -/
theorem Script.parse_eq_ok_iff (source : String) (script : Script) :
    Script.parse source = .ok script ↔
      ∃ tokens position,
        (Scan.ofText source).toList = .ok (tokens ++ [Token.endOfInput position]) ∧
        script.commands ≠ [] ∧ Grammar.Definitions tokens script.commands ∧
        Scope.builtins.definitionsProblem? script.commands = none ∧
        script.scopeProblem? = none := by
  constructor
  · intro h
    obtain ⟨⟨position, hending⟩, hspells, hne, hdefinitions, hscope⟩ := parse_sound h
    refine ⟨_, position, Scan.toList_eq_ok_iff.2 ?_, hne, hspells, hdefinitions, hscope⟩
    rw [← hending]
  · rintro ⟨tokens, position, hscan, hne, hspells, hdefinitions, hscope⟩
    exact parse_complete (Scan.toList_eq_ok_iff.1 hscan) hne hspells hdefinitions hscope

end KarelRobot
