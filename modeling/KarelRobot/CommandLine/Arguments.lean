import KarelRobot.CommandLine

/-!
# Arguments

Reads the words of a command line.  An option is written `--name=value` or `--name value`, at most
once, and words behind `--` are no options.

* `Arguments.parse` — the request that the words spell, and the path of the program.
-/

set_option autoImplicit false
namespace KarelRobot
namespace CommandLine

/-- The words read so far. -/
structure Arguments where
  /-- The words that are no options, the latest first. -/
  words : List String
  /-- The options with a value, by name. -/
  options : List (String × String)
  step : Bool
  verbose : Bool

namespace Arguments

/-- Before the first word. -/
def start : Arguments := ⟨[], [], false, false⟩

/-- The names of the options with a value. -/
def optionNames : List String :=
  ["entry", "level", "format", "timeout-ms"]

/-- Takes an option with its value, which may be given only once. -/
def setOption (arguments : Arguments) (name value : String) : Option Arguments :=
  if name ∈ optionNames ∧ (arguments.options.lookup name).isNone then
    some { arguments with options := (name, value) :: arguments.options }
  else none

/-- A word such as `--name` or `--name=value` without its dashes, cut at the first `=`. -/
def splitOption? (word : String) : Option (String × Option String) :=
  match word.toList with
  | '-' :: '-' :: c :: cs =>
    let name := (c :: cs).takeWhile (· != '=')
    match (c :: cs).dropWhile (· != '=') with
    | [] => some (String.ofList name, none)
    | _ :: value => some (String.ofList name, some (String.ofList value))
  | _ => none

/-- Takes one word after the other. -/
def read (arguments : Arguments) : List String → Option Arguments
  | [] => some arguments
  | "--" :: words => some { arguments with words := words.reverse ++ arguments.words }
  | "-v" :: words | "--verbose" :: words => read { arguments with verbose := true } words
  | "--step" :: words =>
    if arguments.step then none else read { arguments with step := true } words
  | word :: words =>
    match splitOption? word with
    | some (name, some value) => do read (← arguments.setOption name value) words
    | some (name, none) =>
      match words with
      | [] => none
      | value :: words => do read (← arguments.setOption name value) words
    | none =>
      if word.startsWith "-" then none
      else read { arguments with words := word :: arguments.words } words

/-- The request that words spell: a command, the path of a program and options. -/
def parse (words : List String) : Option (Request × String) :=
  match start.read words with
  | some ⟨[path, command], options, step, _⟩ =>
    some (⟨command, options.lookup "entry", options.lookup "level", options.lookup "format",
      options.lookup "timeout-ms", step⟩, path)
  | _ => none

end Arguments
end CommandLine
end KarelRobot
