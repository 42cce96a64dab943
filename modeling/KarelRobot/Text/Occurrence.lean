/-!
# Texts inside texts

* `Text.occursIn` — does a text contain another one?
-/

set_option autoImplicit false
namespace KarelRobot
namespace Text

/-- Do the characters of `needle` occur one after the other in a list? -/
def occursInList (needle : List Char) : List Char → Bool
  | [] => needle.isEmpty
  | c :: cs => needle.isPrefixOf (c :: cs) || occursInList needle cs

/-- Does `needle` occur in `text`? -/
def occursIn (needle text : String) : Bool :=
  occursInList needle.toList text.toList

end Text
end KarelRobot
