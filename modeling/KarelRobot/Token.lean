import KarelRobot.Text.Numeral

/-!
# Tokens

The words of the robot language.  A token knows its kind, the position of its first character and
its spelling in the source.

* `Token.Kind` — the kinds of tokens, with their `spelling` in messages.
* `Token.Kind.ofKeyword?` — the keywords.
* `Token.endPosition` — the position behind a token.
-/

set_option autoImplicit false
namespace KarelRobot

/-- The kinds of tokens. -/
inductive Token.Kind where
  | voidWord
  | repeatWord
  | ifWord
  | elseWord
  | whileWord
  | openingParen
  | closingParen
  | comma
  | semicolon
  | openingBrace
  | closingBrace
  | bang
  | ampersandAmpersand
  | barBar
  | number
  | identifier
  | endOfInput
deriving Repr, DecidableEq

/-- A word of the source. -/
structure Token where
  kind : Token.Kind
  /-- Where the first character stands, counted from zero. -/
  position : Nat
  /-- The characters themselves; none at the end of the input. -/
  lexeme : String
deriving Repr, DecidableEq

namespace Token

namespace Kind

/-- How messages name a kind: its one spelling if it has only one. -/
def spelling : Kind → String
  | voidWord => "void"
  | repeatWord => "repeat"
  | ifWord => "if"
  | elseWord => "else"
  | whileWord => "while"
  | openingParen => "("
  | closingParen => ")"
  | comma => ","
  | semicolon => ";"
  | openingBrace => "\x7b"
  | closingBrace => "\x7d"
  | bang => "!"
  | ampersandAmpersand => "&&"
  | barBar => "||"
  | number => "NUMBER"
  | identifier => "IDENTIFIER"
  | endOfInput => "END OF INPUT"

/-- The kinds that are spelt like names. -/
def keywords : List Kind :=
  [voidWord, repeatWord, ifWord, elseWord, whileWord]

/-- The keyword that a word is, if it is one. -/
def ofKeyword? (word : String) : Option Kind :=
  keywords.find? fun kind => kind.spelling == word

/-- The kind of a word made of letters, digits and underscores. -/
def ofWord (word : String) : Kind :=
  (ofKeyword? word).getD identifier

end Kind

/-- The position behind the last character of a token. -/
def endPosition (t : Token) : Nat :=
  t.position + t.lexeme.length

/-- How a token is shown: numbers and names as they are written, the others by kind. -/
def display (t : Token) : String :=
  match t.kind with
  | .number | .identifier => t.lexeme
  | kind => kind.spelling

/-- The end of an input of `position` characters. -/
def endOfInput (position : Nat) : Token :=
  ⟨.endOfInput, position, ""⟩

end Token
end KarelRobot
