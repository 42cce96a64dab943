import KarelRobot.Diagnostic
import KarelRobot.Text.Line

/-!
# Diagnostics for other programs

Diagnostics as a JSON array, indented by two blanks, with the keys of each object in alphabetical
order.

* `Console.jsonString` — a text in quotes.
* `Console.jsonDiagnostics` — a list of diagnostics.
-/

set_option autoImplicit false
namespace KarelRobot
namespace Console

open Text (decimal hexPadded)

/-- A character inside quotes.  Only quotes, backslashes and control characters are escaped. -/
def jsonChar (c : Char) : String :=
  if c = '"' then "\\\""
  else if c = '\\' then "\\\\"
  else if c = '\x08' then "\\b"
  else if c = '\x0c' then "\\f"
  else if c = '\n' then "\\n"
  else if c = '\r' then "\\r"
  else if c = '\t' then "\\t"
  else if c.toNat < 0x20 then "\\u" ++ hexPadded 4 c.toNat
  else c.toString

/-- A text in quotes. -/
def jsonString (text : String) : String :=
  "\"" ++ String.join (text.toList.map jsonChar) ++ "\""

/-- The fields of an object for a diagnostic, in order. -/
def jsonFields (source : String) (d : Diagnostic) : List (String × String) :=
  let place := Text.place source d.position
  [("column", decimal place.column),
   ("highlight_len", decimal (d.highlight.getD 1)),
   ("line", decimal place.line),
   ("message", jsonString d.message),
   ("position", decimal d.position)]

/-- An object for a diagnostic, as an element of an array. -/
def jsonObject (source : String) (d : Diagnostic) : String :=
  let fields := (jsonFields source d).map fun field =>
    "    " ++ jsonString field.1 ++ ": " ++ field.2
  "  \x7b\n" ++ ",\n".intercalate fields ++ "\n  \x7d"

/-- An array of diagnostics. -/
def jsonDiagnostics (source : String) (diagnostics : List Diagnostic) : String :=
  if diagnostics.isEmpty then "[]"
  else "[\n" ++ ",\n".intercalate (diagnostics.map (jsonObject source)) ++ "\n]"

end Console
end KarelRobot
