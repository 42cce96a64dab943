import KarelRobot.Proofs.Induction
import KarelRobot.Script.Reader

/-!
# The grammar of scripts

The rules of the language as relations between pieces of the token list and the trees they spell.

* `Grammar.Formula` — conditions, with three levels of binding.
* `Grammar.Spells` — statements, lists of statements and blocks.
* `Grammar.Definition`, `Grammar.Definitions` — command definitions.
-/

set_option autoImplicit false
namespace KarelRobot

open Token (Kind)

/-- The name that a token spells. -/
def Token.ident (t : Token) : Ident :=
  ⟨t.lexeme, t.position⟩

namespace Grammar

/-! ## Names -/

/-- One or more names with commas between them. -/
inductive Names : List Token → List Ident → Prop
  | one {t : Token} (ht : t.kind = .identifier) : Names [t] [t.ident]
  | more {t comma : Token} {ts : List Token} {idents : List Ident} (ht : t.kind = .identifier)
      (hcomma : comma.kind = .comma) (hfollowing : Names ts idents) :
      Names (t :: comma :: ts) (t.ident :: idents)

/-- Names in parentheses, or nothing in parentheses. -/
inductive Arguments : List Token → List Ident → Prop
  | none {opening closing : Token} (hopening : opening.kind = .openingParen)
      (hclosing : closing.kind = .closingParen) : Arguments [opening, closing] []
  | some {opening closing : Token} {ts : List Token} {idents : List Ident}
      (hopening : opening.kind = .openingParen) (hnames : Names ts idents)
      (hclosing : closing.kind = .closingParen) :
      Arguments (opening :: (ts ++ [closing])) idents

/-- A parameter: a name between `void` and a pair of parentheses. -/
inductive Parameter : List Token → Ident → Prop
  | mk {void t opening closing : Token} (hvoid : void.kind = .voidWord)
      (ht : t.kind = .identifier) (hopening : opening.kind = .openingParen)
      (hclosing : closing.kind = .closingParen) : Parameter [void, t, opening, closing] t.ident

/-- One or more parameters with commas between them. -/
inductive ParameterList : List Token → List Ident → Prop
  | one {ts : List Token} {ident : Ident} (hparameter : Parameter ts ident) :
      ParameterList ts [ident]
  | more {ts us : List Token} {comma : Token} {ident : Ident} {idents : List Ident}
      (hparameter : Parameter ts ident) (hcomma : comma.kind = .comma)
      (hfollowing : ParameterList us idents) :
      ParameterList (ts ++ comma :: us) (ident :: idents)

/-- Parameters in parentheses, or nothing in parentheses. -/
inductive Parameters : List Token → List Ident → Prop
  | none {opening closing : Token} (hopening : opening.kind = .openingParen)
      (hclosing : closing.kind = .closingParen) : Parameters [opening, closing] []
  | some {opening closing : Token} {ts : List Token} {idents : List Ident}
      (hopening : opening.kind = .openingParen) (hparameters : ParameterList ts idents)
      (hclosing : closing.kind = .closingParen) :
      Parameters (opening :: (ts ++ [closing])) idents

/-! ## Conditions -/

/-- How tightly the parts of a condition hold together. -/
inductive Binding where
  /-- Joined by `||`. -/
  | either
  /-- Joined by `&&`. -/
  | both
  /-- Not joined. -/
  | primary
deriving Repr, DecidableEq

/-- The tokens of a condition.  Negations hold tightest, and both operators group to the right. -/
inductive Formula : Binding → List Token → Condition → Prop
  | literal {t : Token} {value : Bool} (ht : t.kind = .identifier)
      (hvalue : t.lexeme = if value then "true" else "false") :
      Formula .primary [t] (.literal value t.position)
  | predicate {t opening closing : Token} {which : Predicate} (ht : t.kind = .identifier)
      (hwhich : Predicate.ofName? t.lexeme = some which)
      (hopening : opening.kind = .openingParen) (hclosing : closing.kind = .closingParen) :
      Formula .primary [t, opening, closing] (.predicate which t.position)
  | not {bang : Token} {ts : List Token} {c : Condition} (hbang : bang.kind = .bang)
      (hc : Formula .primary ts c) : Formula .primary (bang :: ts) (.not bang.position c)
  | parentheses {opening closing : Token} {ts : List Token} {c : Condition}
      (hopening : opening.kind = .openingParen) (hc : Formula .either ts c)
      (hclosing : closing.kind = .closingParen) :
      Formula .primary (opening :: (ts ++ [closing])) c
  | bothOfPrimary {ts : List Token} {c : Condition} (hc : Formula .primary ts c) :
      Formula .both ts c
  | and {ts us : List Token} {operator : Token} {left right : Condition}
      (hleft : Formula .primary ts left) (hoperator : operator.kind = .ampersandAmpersand)
      (hright : Formula .both us right) :
      Formula .both (ts ++ operator :: us) (.and operator.position left right)
  | eitherOfBoth {ts : List Token} {c : Condition} (hc : Formula .both ts c) :
      Formula .either ts c
  | or {ts us : List Token} {operator : Token} {left right : Condition}
      (hleft : Formula .both ts left) (hoperator : operator.kind = .barBar)
      (hright : Formula .either us right) :
      Formula .either (ts ++ operator :: us) (.or operator.position left right)

/-- A condition in parentheses. -/
inductive Test : List Token → Condition → Prop
  | mk {opening closing : Token} {ts : List Token} {c : Condition}
      (hopening : opening.kind = .openingParen) (hc : Formula .either ts c)
      (hclosing : closing.kind = .closingParen) : Test (opening :: (ts ++ [closing])) c

/-! ## Statements -/

/-- What a piece of a command spells. -/
inductive Tree where
  | statement (s : Statement)
  | statements (ss : List Statement)
  | block (b : Block)

/-- The tokens of a statement, of statements behind one another and of a block. -/
inductive Spells : List Token → Tree → Prop
  | call {t semicolon : Token} {ts : List Token} {idents : List Ident}
      (ht : t.kind = .identifier) (harguments : Arguments ts idents)
      (hsemicolon : semicolon.kind = .semicolon) :
      Spells (t :: (ts ++ [semicolon])) (.statement (.call ⟨t.ident, idents⟩))
  | repeatTimes {keyword opening numeral closing : Token} {ts : List Token} {times : Nat}
      {body : Block} (hkeyword : keyword.kind = .repeatWord)
      (hopening : opening.kind = .openingParen) (hnumeral : numeral.kind = .number)
      (hvalue : Text.digitsValue numeral.lexeme.toList = times) (hrange : 2 ≤ times ∧ times ≤ 4095)
      (hclosing : closing.kind = .closingParen) (hbody : Spells ts (.block body)) :
      Spells (keyword :: opening :: numeral :: closing :: ts)
        (.statement (.repeatTimes keyword.position times body))
  | whileLoop {keyword : Token} {ts us : List Token} {c : Condition} {body : Block}
      (hkeyword : keyword.kind = .whileWord) (hc : Test ts c) (hbody : Spells us (.block body)) :
      Spells (keyword :: (ts ++ us)) (.statement (.whileLoop keyword.position c body))
  | ifThen {keyword : Token} {ts us : List Token} {c : Condition} {body : Block}
      (hkeyword : keyword.kind = .ifWord) (hc : Test ts c) (hbody : Spells us (.block body)) :
      Spells (keyword :: (ts ++ us)) (.statement (.ifThen keyword.position c body))
  | ifElseBlock {keyword elseWord : Token} {ts us vs : List Token} {c : Condition}
      {body otherwise : Block} (hkeyword : keyword.kind = .ifWord) (hc : Test ts c)
      (hbody : Spells us (.block body)) (helse : elseWord.kind = .elseWord)
      (hotherwise : Spells vs (.block otherwise)) :
      Spells (keyword :: (ts ++ us ++ elseWord :: vs))
        (.statement (.ifElse keyword.position c body (.block otherwise)))
  | ifElseIf {keyword elseWord next : Token} {ts us vs : List Token} {c : Condition}
      {body : Block} {otherwise : Statement} (hkeyword : keyword.kind = .ifWord) (hc : Test ts c)
      (hbody : Spells us (.block body)) (helse : elseWord.kind = .elseWord)
      (hnext : next.kind = .ifWord) (hotherwise : Spells (next :: vs) (.statement otherwise)) :
      Spells (keyword :: (ts ++ us ++ elseWord :: next :: vs))
        (.statement (.ifElse keyword.position c body otherwise))
  | nil : Spells [] (.statements [])
  | cons {ts us : List Token} {first : Statement} {following : List Statement}
      (hfirst : Spells ts (.statement first)) (hfollowing : Spells us (.statements following)) :
      Spells (ts ++ us) (.statements (first :: following))
  | block {opening closing : Token} {ts : List Token} {statements : List Statement}
      (hopening : opening.kind = .openingBrace) (hstatements : Spells ts (.statements statements))
      (hclosing : closing.kind = .closingBrace) :
      Spells (opening :: (ts ++ [closing]))
        (.block (.mk opening.position statements closing.position))

/-! ## Definitions -/

/-- The tokens of a definition. -/
inductive Definition : List Token → Command → Prop
  | mk {void name : Token} {ts us : List Token} {parameters : List Ident} {body : Block}
      (hvoid : void.kind = .voidWord) (hname : name.kind = .identifier)
      (hparameters : Parameters ts parameters) (hbody : Spells us (.block body)) :
      Definition (void :: name :: (ts ++ us)) ⟨void.position, name.ident, parameters, body⟩

/-- The tokens of definitions behind one another. -/
inductive Definitions : List Token → List Command → Prop
  | nil : Definitions [] []
  | cons {ts us : List Token} {first : Command} {following : List Command}
      (hfirst : Definition ts first) (hfollowing : Definitions us following) :
      Definitions (ts ++ us) (first :: following)

end Grammar
end KarelRobot
