import KarelRobot.Script.Scope
import KarelRobot.Token.Cursor

/-!
# Reading scripts

A recursive-descent reader for scripts.  It stops at the first thing that is wrong.  A `Reader` is
a view of the tokens still to be read, and the reader keeps two of them in view: the current one
and the one behind it.  A fault in the text is therefore reported as soon as it comes within two
tokens, and never before what is wrong with an earlier token.

```text
script     := command+
command    := void NAME parameters block
parameters := ( [void NAME ( ) {, void NAME ( )}] )
block      := { statement* }
statement  := call | repeat ( NUMBER ) block | while condition block | choice
call       := NAME ( [NAME {, NAME}] ) ;
choice     := if condition block [else (block | choice)]
condition  := ( either )
either     := both [|| either]
both       := primary [&& both]
primary    := false | true | PREDICATE ( ) | ! primary | condition
```

Every rule takes at least one token.  Its result carries the proof of that (`Reading.shorter`),
which is why reading ends.

Whether a name is known shows only when the whole script has been read.  So the reader records the
calls as it reads them, hands them over with each definition that is complete, and has them checked
at the end.

* `Reader` — the tokens still to be read, and the calls recorded on the way.
* `Reading` — what a rule made of some tokens, and the reader behind them.
* `Manuscript.ofScan` — the definitions that tokens spell, with the calls that were recorded.
* `Script.parse` — the script that a text spells, with all its names in order.
-/

set_option autoImplicit false
namespace KarelRobot

open Token (Kind)

/-! ## Tokens in view -/

/-- The tokens still to be read.  The first of them is the current one. -/
structure Reader where
  tokens : List Token
  /-- What follows the last token. -/
  ending : Ending
  /-- The position of the token before the current one. -/
  previous : Nat
  /-- The position behind the token before the current one. -/
  previousEnd : Nat
  /-- The calls read since the last definition was complete, the last one first. -/
  recorded : List Call

/-- What a rule made of the tokens of `reader`, and the reader behind the tokens it took. -/
structure Reading (α : Type) (reader : Reader) where
  value : α
  rest : Reader
  /-- A rule takes at least one token. -/
  shorter : rest.tokens.length < reader.tokens.length

namespace Reader

/-- Fails with the fault of the text if fewer than two tokens stand before it. -/
def inView : List Token → Ending → Except Diagnostic Unit
  | _ :: _ :: _, _ => .ok ()
  | _, .endOfInput _ => .ok ()
  | _, .fault d => .error d

/-- The reader at the first token of a text. -/
def ofScan (scan : Scan) : Except Diagnostic Reader := do
  inView scan.tokens scan.ending
  return ⟨scan.tokens, scan.ending, 0, 0, []⟩

/-- The current token. -/
def current (reader : Reader) : Token :=
  match reader.tokens, reader.ending with
  | token :: _, _ => token
  | [], .endOfInput position => Token.endOfInput position
  | [], .fault d => Token.endOfInput d.position

/-- The kind of the current token. -/
def kind (reader : Reader) : Kind :=
  reader.current.kind

/-- What is wrong at the current token. -/
def fail {α : Type} (reader : Reader) (problem : Problem) : Except Diagnostic α :=
  .error ⟨reader.current.position, problem, none⟩

/-- Takes a token of the given kind, which is missing behind the previous token otherwise. -/
def expect (expected : Kind) (reader : Reader) : Except Diagnostic (Reading Token reader) :=
  match h : reader.tokens with
  | [] => .error ⟨reader.previousEnd, .missing expected, none⟩
  | token :: tokens =>
    if token.kind = expected then do
      inView tokens reader.ending
      return ⟨token, ⟨tokens, reader.ending, token.position, token.endPosition, reader.recorded⟩,
        by simp [h]⟩
    else .error ⟨reader.previousEnd, .missing expected, none⟩

/-- Takes a name. -/
def ident (reader : Reader) : Except Diagnostic (Reading Ident reader) := do
  let ⟨token, rest, h⟩ ← expect .identifier reader
  return ⟨⟨token.lexeme, token.position⟩, rest, h⟩

/-- Takes an opening and a closing parenthesis. -/
def emptyParens (reader : Reader) : Except Diagnostic (Reading Unit reader) := do
  let ⟨_, r₁, h₁⟩ ← expect .openingParen reader
  let ⟨_, r₂, h₂⟩ ← expect .closingParen r₁
  return ⟨(), r₂, by omega⟩

/-! ## Recorded calls -/

/-- Records a call. -/
def record (call : Call) (reader : Reader) : Reader :=
  { reader with recorded := call :: reader.recorded }

/-- The caller that a definition with these parameters is, now that it is complete. -/
def caller (parameters : List Ident) (reader : Reader) : Caller :=
  ⟨parameters, reader.recorded.reverse⟩

/-- The reader for the next definition, with nothing recorded. -/
def handedOver (reader : Reader) : Reader :=
  { reader with recorded := [] }

/-! ## Names in parentheses -/

/-- One or more parameters. -/
def parameterList (reader : Reader) : Except Diagnostic (Reading (List Ident) reader) := do
  let ⟨_, r₁, h₁⟩ ← expect .voidWord reader
  let ⟨parameter, r₂, h₂⟩ ← ident r₁
  let ⟨_, r₃, h₃⟩ ← emptyParens r₂
  if r₃.kind = .comma then
    let ⟨_, r₄, h₄⟩ ← expect .comma r₃
    let ⟨following, r₅, h₅⟩ ← parameterList r₄
    return ⟨parameter :: following, r₅, by omega⟩
  else return ⟨[parameter], r₃, by omega⟩
termination_by reader.tokens.length

/-- The parameters of a definition, in parentheses. -/
def parameters (reader : Reader) : Except Diagnostic (Reading (List Ident) reader) := do
  let ⟨_, r₁, h₁⟩ ← expect .openingParen reader
  if r₁.kind = .voidWord then
    let ⟨parameters, r₂, h₂⟩ ← parameterList r₁
    let ⟨_, r₃, h₃⟩ ← expect .closingParen r₂
    return ⟨parameters, r₃, by omega⟩
  else
    let ⟨_, r₂, h₂⟩ ← expect .closingParen r₁
    return ⟨[], r₂, by omega⟩

/-- One or more names. -/
def identList (reader : Reader) : Except Diagnostic (Reading (List Ident) reader) := do
  let ⟨first, r₁, h₁⟩ ← ident reader
  if r₁.kind = .comma then
    let ⟨_, r₂, h₂⟩ ← expect .comma r₁
    let ⟨following, r₃, h₃⟩ ← identList r₂
    return ⟨first :: following, r₃, by omega⟩
  else return ⟨[first], r₁, h₁⟩
termination_by reader.tokens.length

/-- The names that a call passes on, in parentheses. -/
def arguments (reader : Reader) : Except Diagnostic (Reading (List Ident) reader) := do
  let ⟨_, r₁, h₁⟩ ← expect .openingParen reader
  if r₁.kind = .identifier then
    let ⟨arguments, r₂, h₂⟩ ← identList r₁
    let ⟨_, r₃, h₃⟩ ← expect .closingParen r₂
    return ⟨arguments, r₃, by omega⟩
  else
    let ⟨_, r₂, h₂⟩ ← expect .closingParen r₁
    return ⟨[], r₂, by omega⟩

/-! ## Conditions -/

/-- The names that a primary condition may consist of. -/
def conditionNames : List String :=
  ["false", "true"] ++ Predicate.all.map Predicate.name

/-- A primary condition that is a name: a truth value, or a predicate with its parentheses. -/
def namedCondition (reader : Reader) : Except Diagnostic (Reading Condition reader) :=
  let word := reader.current.lexeme
  if word = "false" ∨ word = "true" then do
    let ⟨token, r₁, h₁⟩ ← expect .identifier reader
    return ⟨.literal (word == "true") token.position, r₁, h₁⟩
  else
    match Predicate.ofName? word with
    | some predicate => do
      let ⟨token, r₁, h₁⟩ ← expect .identifier reader
      let ⟨_, r₂, h₂⟩ ← emptyParens r₁
      return ⟨.predicate predicate token.position, r₂, by omega⟩
    | none => .error (.unknownName word reader.current.position none conditionNames)

mutual

/-- A condition in parentheses. -/
def condition (reader : Reader) : Except Diagnostic (Reading Condition reader) := do
  let ⟨_, r₁, h₁⟩ ← expect .openingParen reader
  let ⟨inner, r₂, h₂⟩ ← either r₁
  let ⟨_, r₃, h₃⟩ ← expect .closingParen r₂
  return ⟨inner, r₃, by omega⟩
termination_by 4 * reader.tokens.length

/-- A condition that is no conjunction, disjunction or more. -/
def primary (reader : Reader) : Except Diagnostic (Reading Condition reader) :=
  match reader.kind with
  | .identifier => namedCondition reader
  | .bang => do
    let ⟨bang, r₁, h₁⟩ ← expect .bang reader
    let ⟨operand, r₂, h₂⟩ ← primary r₁
    return ⟨.not bang.position operand, r₂, by omega⟩
  | .openingParen => condition reader
  | _ => reader.fail (.illegalStart .condition)
termination_by 4 * reader.tokens.length + 1

/-- Primary conditions joined by `&&`, grouped to the right. -/
def both (reader : Reader) : Except Diagnostic (Reading Condition reader) := do
  let ⟨left, r₁, h₁⟩ ← primary reader
  if r₁.kind = .ampersandAmpersand then
    let ⟨operator, r₂, h₂⟩ ← expect .ampersandAmpersand r₁
    let ⟨right, r₃, h₃⟩ ← both r₂
    return ⟨.and operator.position left right, r₃, by omega⟩
  else return ⟨left, r₁, h₁⟩
termination_by 4 * reader.tokens.length + 2

/-- Conjunctions joined by `||`, grouped to the right. -/
def either (reader : Reader) : Except Diagnostic (Reading Condition reader) := do
  let ⟨left, r₁, h₁⟩ ← both reader
  if r₁.kind = .barBar then
    let ⟨operator, r₂, h₂⟩ ← expect .barBar r₁
    let ⟨right, r₃, h₃⟩ ← either r₂
    return ⟨.or operator.position left right, r₃, by omega⟩
  else return ⟨left, r₁, h₁⟩
termination_by 4 * reader.tokens.length + 3

end

/-! ## Statements -/

/-- How often a loop may be repeated: at least twice, and no more than an instruction can hold. -/
def repeatRange : Nat × Nat := (2, 4095)

/-- A call with its semicolon. -/
def call (reader : Reader) : Except Diagnostic (Reading Call reader) := do
  let ⟨target, r₁, h₁⟩ ← ident reader
  let ⟨arguments, r₂, h₂⟩ ← arguments r₁
  let ⟨_, r₃, h₃⟩ ← expect .semicolon r₂
  return ⟨⟨target, arguments⟩, r₃, by omega⟩

/-- The number of repetitions of a loop, in parentheses. -/
def times (reader : Reader) : Except Diagnostic (Reading Nat reader) := do
  let ⟨_, r₁, h₁⟩ ← expect .openingParen reader
  let ⟨numeral, r₂, h₂⟩ ← expect .number r₁
  let times ← numeral.toNat repeatRange.1 repeatRange.2
  let ⟨_, r₃, h₃⟩ ← expect .closingParen r₂
  return ⟨times, r₃, by omega⟩

/-- What is wrong with a definition inside the command `outer`: either it was meant to stand behind
that command, or it was meant to be a call. -/
def innerDefinition {α : Type} (outer : String) (reader : Reader) : Except Diagnostic α := do
  let ⟨void, r₁, _⟩ ← expect .voidWord reader
  let ⟨inner, r₂, _⟩ ← ident r₁
  let ⟨_, r₃, _⟩ ← emptyParens r₂
  if r₃.kind = .openingBrace then
    .error ⟨void.position, .nestedDefinition inner.text outer, none⟩
  else .error ⟨void.position, .voidBeforeCall inner.text, none⟩

mutual

/-- Statements in braces, inside the command `outer`. -/
def block (outer : String) (reader : Reader) : Except Diagnostic (Reading Block reader) := do
  let ⟨opening, r₁, h₁⟩ ← expect .openingBrace reader
  let ⟨(statements, closing), r₂, h₂⟩ ← statements outer r₁
  return ⟨.mk opening.position statements closing, r₂, by omega⟩
termination_by 3 * reader.tokens.length

/-- A case distinction. -/
def choice (outer : String) (reader : Reader) :
    Except Diagnostic (Reading Statement reader) := do
  let ⟨keyword, r₁, h₁⟩ ← expect .ifWord reader
  let ⟨condition, r₂, h₂⟩ ← condition r₁
  let ⟨body, r₃, h₃⟩ ← block outer r₂
  if r₃.kind = .elseWord then
    let ⟨_, r₄, h₄⟩ ← expect .elseWord r₃
    match r₄.kind with
    | .openingBrace =>
      let ⟨otherwise, r₅, h₅⟩ ← block outer r₄
      return ⟨.ifElse keyword.position condition body (.block otherwise), r₅, by omega⟩
    | .ifWord =>
      let ⟨otherwise, r₅, h₅⟩ ← choice outer r₄
      return ⟨.ifElse keyword.position condition body otherwise, r₅, by omega⟩
    | _ => .error ⟨r₄.previous, .danglingElse, none⟩
  else return ⟨.ifThen keyword.position condition body, r₃, by omega⟩
termination_by 3 * reader.tokens.length

/-- One statement. -/
def statement (outer : String) (reader : Reader) :
    Except Diagnostic (Reading Statement reader) :=
  match reader.kind with
  | .identifier => do
    let ⟨call, r₁, h₁⟩ ← call reader
    return ⟨.call call, r₁.record call, h₁⟩
  | .repeatWord => do
    let ⟨keyword, r₁, h₁⟩ ← expect .repeatWord reader
    let ⟨times, r₂, h₂⟩ ← times r₁
    let ⟨body, r₃, h₃⟩ ← block outer r₂
    return ⟨.repeatTimes keyword.position times body, r₃, by omega⟩
  | .whileWord => do
    let ⟨keyword, r₁, h₁⟩ ← expect .whileWord reader
    let ⟨condition, r₂, h₂⟩ ← condition r₁
    let ⟨body, r₃, h₃⟩ ← block outer r₂
    return ⟨.whileLoop keyword.position condition body, r₃, by omega⟩
  | .ifWord => choice outer reader
  | .voidWord => innerDefinition outer reader
  | .endOfInput => reader.fail (.missing .closingBrace)
  | _ => reader.fail (.illegalStart .statement)
termination_by 3 * reader.tokens.length + 1

/-- Statements up to a closing brace, and the position of that brace. -/
def statements (outer : String) (reader : Reader) :
    Except Diagnostic (Reading (List Statement × Nat) reader) :=
  if reader.kind = .closingBrace then do
    let ⟨closing, r₁, h₁⟩ ← expect .closingBrace reader
    return ⟨([], closing.position), r₁, h₁⟩
  else do
    let ⟨first, r₁, h₁⟩ ← statement outer reader
    let ⟨(following, closing), r₂, h₂⟩ ← statements outer r₁
    return ⟨(first :: following, closing), r₂, by omega⟩
termination_by 3 * reader.tokens.length + 2

end

/-! ## Definitions -/

/-- A definition. -/
def definition (reader : Reader) : Except Diagnostic (Reading Command reader) := do
  let ⟨void, r₁, h₁⟩ ← expect .voidWord reader
  let ⟨name, r₂, h₂⟩ ← ident r₁
  let ⟨parameters, r₃, h₃⟩ ← parameters r₂
  let ⟨body, r₄, h₄⟩ ← block name.text r₃
  return ⟨⟨void.position, name, parameters, body⟩, r₄, by omega⟩

/-- What is wrong with a name behind the command `last` where a definition should start: either it
is a call that belongs into that command, or a definition without its first word. -/
def strayName {α : Type} (last : String) (reader : Reader) : Except Diagnostic α := do
  let ⟨name, r₁, _⟩ ← ident reader
  let ⟨_, r₂, _⟩ ← emptyParens r₁
  if r₂.kind = .semicolon then
    .error ⟨reader.previous, .strayCall last name.text, none⟩
  else .error ⟨name.position, .expectedCommand, none⟩

/-- The definition behind the command `last`, or what stands in its place. -/
def command (last : String) (reader : Reader) : Except Diagnostic (Reading Command reader) :=
  match reader.kind with
  | .voidWord => definition reader
  | .closingBrace => reader.fail .unmatchedClosingBrace
  | .repeatWord => .error ⟨reader.previous, .strayStatement last .repeatWord, none⟩
  | .whileWord => .error ⟨reader.previous, .strayStatement last .whileWord, none⟩
  | .ifWord => .error ⟨reader.previous, .strayStatement last .ifWord, none⟩
  | .identifier => strayName last reader
  | _ => reader.fail .expectedCommand

/-- The definitions up to the end of the input, behind the command `last`, and their callers.  No
definition may take a name that is in `scope` or that an earlier one has. -/
def commands (scope : Scope) (last : String) (reader : Reader) : Except Diagnostic Manuscript :=
  if reader.kind = .endOfInput then .ok ⟨[], []⟩
  else do
    let ⟨first, r₁, _h₁⟩ ← command last reader
    match scope.definitionProblem? first with
    | some problem => .error problem
    | none =>
      let following ←
        commands ((first.name, first.parameters.length) :: scope) first.name r₁.handedOver
      return ⟨first :: following.commands, r₁.caller first.parameters :: following.callers⟩
termination_by reader.tokens.length

end Reader

/-- The definitions that the tokens of a text spell, with their callers.  There is at least one, and
no two of them share a name. -/
def Manuscript.ofScan (scan : Scan) : Except Diagnostic Manuscript := do
  let reader ← Reader.ofScan scan
  if reader.kind = .voidWord then reader.commands Scope.builtins ""
  else reader.fail .expectedCommand

/-- The script that a text spells.  It has at least one command, no two commands share a name, and
all names that are called or passed on are in order. -/
def Script.parse (source : String) : Except Diagnostic Script := do
  let manuscript ← Manuscript.ofScan (Scan.ofText source)
  match manuscript.callsProblem? with
  | some problem => .error problem
  | none => return ⟨manuscript.commands⟩

end KarelRobot
