/-!
# Words that look alike

Which of the known words a misspelt word may stand for.

* `Text.editDistance` — the least number of characters to insert, delete or replace.
* `Text.nearest` — the candidates at the least distance, at most five of them.
* `Text.commonLength` — how far two words agree.
-/

set_option autoImplicit false
namespace KarelRobot
namespace Text

/-! ## Distance

The distances are computed row by row.  The row of a word `a` against a word `b` holds the
distances of `a` to every beginning of `b`, from the empty one to `b` itself. -/

/-- The entries of the next row behind its first one.  The row so far belongs to a word, the next
row to the word with `c` appended; `left` is the entry of the next row just written. -/
def extendRow (c : Char) (left : Nat) : List Char → List Nat → List Nat
  | b :: bs, diagonal :: above :: row =>
    let entry := min (min (diagonal + if c = b then 0 else 1) (left + 1)) (above + 1)
    entry :: extendRow c entry bs (above :: row)
  | _, _ => []

/-- The row of a word with `c` appended, from the row of the word itself. -/
def nextRow (b : List Char) (row : List Nat) (c : Char) : List Nat :=
  match row with
  | [] => []
  | first :: _ => (first + 1) :: extendRow c (first + 1) b row

/-- The least number of characters to insert, delete or replace that turns `a` into `b`. -/
def editDistance (a b : String) : Nat :=
  (a.toList.foldl (nextRow b.toList) (List.range (b.toList.length + 1))).getLastD 0

/-! ## Nearest words -/

/-- The words found nearest so far, and how near they are. -/
structure Nearest where
  distance : Nat
  words : List String
deriving Repr, DecidableEq

/-- Takes one more candidate into account.  A nearer one replaces all words found so far, and one
that is equally near joins them unless it is among them. -/
def Nearest.consider (word : String) (best : Option Nearest) (candidate : String) :
    Option Nearest :=
  let distance := editDistance word candidate
  match best with
  | none => some ⟨distance, [candidate]⟩
  | some found =>
    if distance < found.distance then some ⟨distance, [candidate]⟩
    else if distance = found.distance ∧ candidate ∉ found.words then
      some ⟨found.distance, found.words ++ [candidate]⟩
    else some found

/-- How many words are suggested at most. -/
def maxSuggestions : Nat := 5

/-- The candidates at the least distance from `word`, in alphabetical order, each of them once and
no more than `maxSuggestions` of them. -/
def nearest (word : String) (candidates : List String) : List String :=
  match candidates.foldl (Nearest.consider word) none with
  | none => []
  | some found => (found.words.mergeSort fun a b => decide (a ≤ b)).take maxSuggestions

/-- The length of the longest common beginning of two lists of characters. -/
def commonLengthList : List Char → List Char → Nat
  | a :: as, b :: bs => if a = b then commonLengthList as bs + 1 else 0
  | _, _ => 0

/-- The length of the longest common beginning of two words. -/
def commonLength (a b : String) : Nat :=
  commonLengthList a.toList b.toList

end Text
end KarelRobot
