import KarelRobot.Text.Nearest
import KarelRobot.Token

/-!
# Diagnostics

What can be wrong with a program, and where.  A `Problem` is the cause, `Problem.message` is the
one place where causes are put into words, and a `Diagnostic` is a problem at a position.

* `Problem` — the causes, from single characters to whole programs.
* `Diagnostic` — a problem, its position and how many characters to mark.
* `Diagnostic.unknownName` — a name that nothing is called, with the names that were perhaps meant.
-/

set_option autoImplicit false
namespace KarelRobot

open Text (decimal hexPadded)

/-- The phrases of the grammar whose beginning can be recognised. -/
inductive Phrase where
  | statement
  | condition
deriving Repr, DecidableEq

/-- The name of a phrase in messages. -/
def Phrase.name : Phrase → String
  | .statement => "statement"
  | .condition => "condition"

/-- What can be wrong with a program. -/
inductive Problem where
  /-- A comment that runs to the end of the input. -/
  | unclosedComment
  /-- A slash that starts no comment. -/
  | loneSlash
  | loneAmpersand
  | loneBar
  | illegalCharacter (c : Char)
  /-- Something else stands where a command definition has to start. -/
  | expectedCommand
  | missing (kind : Token.Kind)
  | unmatchedClosingBrace
  /-- A statement behind the end of the command it seems to belong to. -/
  | strayStatement (command : String) (keyword : Token.Kind)
  /-- A call behind the end of the command it seems to belong to. -/
  | strayCall (command callee : String)
  | nestedDefinition (inner outer : String)
  | voidBeforeCall (callee : String)
  | danglingElse
  | illegalStart (phrase : Phrase)
  | outOfRange (numeral : String) (low high : Nat)
  /-- A name that is not known, under an optional headline, with the nearest known names. -/
  | unknownName (headline : Option String) (suggestions : List String)
  | duplicateCommand (name : String)
  | duplicateParameter (name : String)
  | wrongArgumentCount (name : String) (expected given : Nat)
  | higherOrderArgument
  | redefinedCommand (name : String) (first : Nat)
  | redefinedBuiltin (name : String)
  | undefinedEntry (name : String)
  | entryTakesParameters (name : String)
  | whileNotAllowed
  | recursionNotAllowed
  | programTooLong
  /-- A reference to a command that has no place in the program, as it was encoded. -/
  | unknownBytecode (bytecode : UInt16)
deriving Repr, DecidableEq

namespace Problem

/-- The headline of a name that is used as a command and is none. -/
def undefinedCommandHeadline (name : String) : String :=
  "undefined command " ++ name

/-- The question that offers suggestions, if there are any. -/
def suggestion (headline : Option String) (suggestions : List String) : String :=
  if suggestions.isEmpty then headline.getD "unknown name"
  else
    let lead := match headline with
      | some text => text ++ "\n\n"
      | none => ""
    lead ++ "Did you mean " ++ ", ".intercalate suggestions ++ "?"

/-- A problem in words. -/
def message : Problem → String
  | unclosedComment => "unclosed comment: missing */"
  | loneSlash => "comments start with // or /*"
  | loneAmpersand => "logical and is &&"
  | loneBar => "logical or is ||"
  | illegalCharacter c => "illegal character " ++ c.toString
  | expectedCommand =>
    "Command definitions look like this:\n\nvoid commandNameHere()\n\x7b\n" ++
      "    // your code here\n\n\x7d"
  | missing kind => "missing " ++ kind.spelling
  | unmatchedClosingBrace => "remove \x7d\n\nThis closing brace has no opening partner"
  | strayStatement command keyword =>
    "|\n|\n|\nremove \x7d\n\nThe command " ++ command ++ "() ends here,\nbut the following " ++
      keyword.spelling ++ "-statement\nstill belongs inside a command"
  | strayCall command callee =>
    "|\n|\n|\nremove \x7d\n\nThe command " ++ command ++
      "() ends here,\nbut the following call " ++ callee ++ "();\nstill belongs inside a command"
  | nestedDefinition inner outer =>
    "missing \x7d\n\nCannot define command " ++ inner ++ "()\nINSIDE command " ++ outer ++
      "()\n\nCommand definitions do not nest"
  | voidBeforeCall callee =>
    "remove void\n\nYou want to CALL " ++ callee ++ "(), not DEFINE it, right?"
  | danglingElse => "else must be followed by \x7b or if"
  | illegalStart phrase => "illegal start of " ++ phrase.name
  | outOfRange numeral low high =>
    numeral ++ " out of range " ++ decimal low ++ ".." ++ decimal high
  | unknownName headline suggestions => suggestion headline suggestions
  | duplicateCommand name => "duplicate command " ++ name
  | duplicateParameter name => "duplicate parameter " ++ name
  | wrongArgumentCount name expected given =>
    name ++ " takes " ++ decimal expected ++ " arguments, not " ++ decimal given
  | higherOrderArgument => "cannot pass higher-order commands"
  | redefinedCommand name first =>
    "duplicate command " ++ name ++ " was already defined at " ++ decimal first
  | redefinedBuiltin name => "duplicate command " ++ name ++ " is a builtin command"
  | undefinedEntry name => "entry command " ++ name ++ "() is not defined"
  | entryTakesParameters name => "entry command " ++ name ++ "() cannot take parameters"
  | whileNotAllowed => "while loops are not allowed until the loops level"
  | recursionNotAllowed => "recursion is not allowed until the recursion level"
  | programTooLong => "program too long"
  | unknownBytecode bytecode => "unknown bytecode " ++ hexPadded 4 bytecode.toNat

end Problem

/-- A problem at a position of the source. -/
structure Diagnostic where
  position : Nat
  problem : Problem
  /-- How many characters to mark, where that is known. -/
  highlight : Option Nat := none
deriving Repr, DecidableEq

namespace Diagnostic

/-- The problem in words. -/
def message (d : Diagnostic) : String :=
  d.problem.message

/-- The problem in words, with its position. -/
def display (d : Diagnostic) : String :=
  d.message ++ " at " ++ decimal d.position

/-- The diagnostic for a name at `position` that is none of the `candidates`.  If one candidate is
nearest, only the part of the name that differs from it is marked. -/
def unknownName (name : String) (position : Nat) (headline : Option String)
    (candidates : List String) : Diagnostic :=
  let suggestions := Text.nearest name candidates
  let problem := Problem.unknownName headline suggestions
  match suggestions with
  | [only] =>
    let common := Text.commonLength name only
    ⟨position + common, problem, some (name.length - common)⟩
  | _ => ⟨position, problem, none⟩

end Diagnostic

namespace Token

/-- The number that a token spells, if it lies between `low` and `high`.  Numbers above 65535 are
out of every range. -/
def toNat (t : Token) (low high : Nat) : Except Diagnostic Nat :=
  let problem := Problem.outOfRange t.lexeme low high
  match Text.readNat? 0xffff t.lexeme with
  | some value =>
    if low ≤ value ∧ value ≤ high then .ok value else .error ⟨t.position, problem, none⟩
  | none => .error ⟨t.position, problem, none⟩

end Token
end KarelRobot
