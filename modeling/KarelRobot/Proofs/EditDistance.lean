import KarelRobot.Text.Nearest
import Mathlib.Order.Bounds.Basic
import Mathlib.Order.MinMax

/-!
# The distance of two words

The distance is computed in one row that is written over again and again, one character of the first
word at a time.  A row holds the entries of one line of the table of distances, whose entry for `i`
and `j` says how far the first `i` characters of one word are from the first `j` of the other.

No way to edit a word is shorter: a single edit, wherever it is made, changes the distance to any
other word by one at most.  Edits can be put behind one another and can be undone, so the distance
is a metric.

* `Text.Edit`, `Text.Edits` — one edit of a word, and a number of them.
* `Text.levenshtein` — the recursion from the front of two words, and `Text.isLeast_levenshtein`.
* `Text.tableEntry` — the table of distances, and `Text.foldl_nextRow`, the rows as its lines.
* `editDistance_least` — the distance is the least number of edits.
-/

set_option autoImplicit false
namespace KarelRobot
namespace Text

/-! ## Edits -/

/-- One character is inserted, deleted or replaced. -/
inductive Edit : List Char → List Char → Prop
  | insert (front back : List Char) (c : Char) : Edit (front ++ back) (front ++ c :: back)
  | delete (front back : List Char) (c : Char) : Edit (front ++ c :: back) (front ++ back)
  | replace (front back : List Char) (c d : Char) : Edit (front ++ c :: back) (front ++ d :: back)

/-- So many edits, one after the other, turn a word into another one. -/
inductive Edits : Nat → List Char → List Char → Prop
  | refl (a : List Char) : Edits 0 a a
  | step {n : Nat} {a b c : List Char} (h : Edit a b) (hs : Edits n b c) : Edits (n + 1) a c

theorem Edit.symm {a b : List Char} (h : Edit a b) : Edit b a := by
  cases h with
  | insert front back c => exact .delete front back c
  | delete front back c => exact .insert front back c
  | replace front back c d => exact .replace front back d c

theorem Edit.cons {a b : List Char} (h : Edit a b) (first : Char) :
    Edit (first :: a) (first :: b) := by
  cases h with
  | insert front back c => exact .insert (first :: front) back c
  | delete front back c => exact .delete (first :: front) back c
  | replace front back c d => exact .replace (first :: front) back c d

theorem Edit.reverse {a b : List Char} (h : Edit a b) : Edit a.reverse b.reverse := by
  cases h with
  | insert front back c =>
    simpa using Edit.insert back.reverse front.reverse c
  | delete front back c =>
    simpa using Edit.delete back.reverse front.reverse c
  | replace front back c d =>
    simpa using Edit.replace back.reverse front.reverse c d

namespace Edits

variable {m n : Nat} {a b c : List Char}

theorem trans (h : Edits m a b) (h' : Edits n b c) : Edits (m + n) a c := by
  induction h with
  | refl => rwa [Nat.zero_add]
  | step hfirst _ ih =>
    rw [Nat.add_right_comm]
    exact .step hfirst (ih h')

theorem symm (h : Edits n a b) : Edits n b a := by
  induction h with
  | refl => exact .refl _
  | step hfirst _ ih => exact ih.trans (.step hfirst.symm (.refl _))

theorem cons (h : Edits n a b) (first : Char) : Edits n (first :: a) (first :: b) := by
  induction h with
  | refl => exact .refl _
  | step hfirst _ ih => exact .step (hfirst.cons first) ih

theorem reverse (h : Edits n a b) : Edits n a.reverse b.reverse := by
  induction h with
  | refl => exact .refl _
  | step hfirst _ ih => exact .step hfirst.reverse ih

theorem reverse_iff : Edits n a.reverse b.reverse ↔ Edits n a b :=
  ⟨fun h => by simpa using h.reverse, reverse⟩

theorem zero_iff : Edits 0 a b ↔ a = b := by
  constructor
  · intro h
    cases h
    rfl
  · rintro rfl
    exact .refl a

end Edits

/-! ## The recursion -/

/-- The distance of two words by their first characters: these are matched or replaced, or the first
character of one word is dropped. -/
def levenshtein : List Char → List Char → Nat
  | a, [] => a.length
  | [], b => b.length
  | c :: a, d :: b =>
    min (min (levenshtein a b + if c = d then 0 else 1) (levenshtein (c :: a) b + 1))
      (levenshtein a (d :: b) + 1)

@[simp] theorem levenshtein_nil (a : List Char) : levenshtein a [] = a.length := by
  rw [levenshtein]

@[simp] theorem nil_levenshtein (b : List Char) : levenshtein [] b = b.length := by
  cases b <;> simp [levenshtein]

theorem levenshtein_cons (c d : Char) (a b : List Char) :
    levenshtein (c :: a) (d :: b) =
      min (min (levenshtein a b + if c = d then 0 else 1) (levenshtein (c :: a) b + 1))
        (levenshtein a (d :: b) + 1) := by
  rw [levenshtein]

/-- All characters of a word can be inserted, one after the other. -/
theorem edits_insert (b : List Char) : Edits b.length [] b := by
  induction b with
  | nil => exact .refl []
  | cons d b ih => exact ih.trans (.step (.insert [] b d) (.refl _))

/-- As many edits as the recursion says are enough. -/
theorem edits_levenshtein (a b : List Char) : Edits (levenshtein a b) a b := by
  fun_induction levenshtein a b with
  | case1 a => exact (edits_insert a).symm
  | case2 b => exact edits_insert b
  | case3 c a d b ihboth ihleft ihright =>
    have hboth : Edits (levenshtein a b + if c = d then 0 else 1) (c :: a) (d :: b) := by
      by_cases hcd : c = d
      · rw [if_pos hcd, hcd]
        exact ihboth.cons d
      · rw [if_neg hcd]
        exact (ihboth.cons c).trans (.step (.replace [] b c d) (.refl _))
    have hinsert : Edits (levenshtein (c :: a) b + 1) (c :: a) (d :: b) :=
      ihleft.trans (.step (.insert [] b d) (.refl _))
    have hdelete : Edits (levenshtein a (d :: b) + 1) (c :: a) (d :: b) :=
      .step (.delete [] a c) ihright
    rcases min_choice (min (levenshtein a b + if c = d then 0 else 1) (levenshtein (c :: a) b + 1))
      (levenshtein a (d :: b) + 1) with hmin | hmin
    · rw [hmin]
      rcases min_choice (levenshtein a b + if c = d then 0 else 1) (levenshtein (c :: a) b + 1)
        with hmin | hmin
      · rwa [hmin]
      · rwa [hmin]
    · rwa [hmin]

/-! ### An edit changes a distance by one at most -/

@[simp] theorem levenshtein_self (a : List Char) : levenshtein a a = 0 := by
  induction a with
  | nil => exact levenshtein_nil []
  | cons c a ih => simp [levenshtein_cons, ih]

theorem levenshtein_cons_le (c : Char) (a b : List Char) :
    levenshtein (c :: a) b ≤ levenshtein a b + 1 := by
  cases b with
  | nil => simp
  | cons d b =>
    rw [levenshtein_cons]
    exact min_le_right _ _

theorem levenshtein_le_insert (a : List Char) (d : Char) (b : List Char) :
    levenshtein a (d :: b) ≤ levenshtein a b + 1 := by
  cases a with
  | nil => simp
  | cons c a =>
    rw [levenshtein_cons]
    exact (min_le_left _ _).trans (min_le_right _ _)

theorem levenshtein_le_cons (c : Char) (a b : List Char) :
    levenshtein a b ≤ levenshtein (c :: a) b + 1 := by
  induction b with
  | nil =>
    rw [levenshtein_nil, levenshtein_nil, List.length_cons]
    omega
  | cons d b ih =>
    have hinsert := levenshtein_le_insert a d b
    rw [levenshtein_cons]
    omega

theorem levenshtein_replace_le (c d : Char) (a b : List Char) :
    levenshtein (c :: a) b ≤ levenshtein (d :: a) b + 1 := by
  induction b with
  | nil => simp
  | cons e b ih =>
    rw [levenshtein_cons, levenshtein_cons]
    split <;> split <;> omega

/-- A common beginning does not bring two words further apart from a third one. -/
theorem levenshtein_append_le {x y : List Char}
    (h : ∀ b, levenshtein x b ≤ levenshtein y b + 1) (front b : List Char) :
    levenshtein (front ++ x) b ≤ levenshtein (front ++ y) b + 1 := by
  induction front generalizing b with
  | nil => exact h b
  | cons c front ih =>
    rw [List.cons_append, List.cons_append]
    induction b with
    | nil =>
      have hlength := ih []
      simp only [levenshtein_nil, List.length_cons] at hlength ⊢
      omega
    | cons d b ihb =>
      have hboth := ih b
      have hright := ih (d :: b)
      rw [levenshtein_cons, levenshtein_cons]
      omega

/-- **One edit changes the distance to any word by one at most.** -/
theorem Edit.levenshtein_le {a a' : List Char} (h : Edit a a') (b : List Char) :
    levenshtein a b ≤ levenshtein a' b + 1 := by
  cases h with
  | insert front back c => exact levenshtein_append_le (levenshtein_le_cons c back) front b
  | delete front back c => exact levenshtein_append_le (levenshtein_cons_le c back) front b
  | replace front back c d => exact levenshtein_append_le (levenshtein_replace_le c d back) front b

/-- Fewer edits than the recursion says are not enough. -/
theorem Edits.levenshtein_le {n : Nat} {a b : List Char} (h : Edits n a b) :
    levenshtein a b ≤ n := by
  induction h with
  | refl a => exact Nat.le_of_eq (levenshtein_self a)
  | @step n a a' b hfirst _ ih =>
    have hedit := hfirst.levenshtein_le b
    omega

/-- **The recursion gives the least number of edits.** -/
theorem isLeast_levenshtein (a b : List Char) :
    IsLeast {n | Edits n a b} (levenshtein a b) :=
  ⟨edits_levenshtein a b, fun _ h => Edits.levenshtein_le h⟩

/-- Two words can be compared from the front or from the back. -/
theorem levenshtein_reverse (a b : List Char) :
    levenshtein a.reverse b.reverse = levenshtein a b := by
  have hleast := isLeast_levenshtein a.reverse b.reverse
  simp only [Edits.reverse_iff] at hleast
  exact hleast.unique (isLeast_levenshtein a b)

/-! ## The table and its lines -/

/-- The entry of the table of distances for the first `i` characters of `a` and the first `j` of
`b`. -/
def tableEntry (a b : List Char) : Nat → Nat → Nat
  | i, 0 => i
  | 0, j => j
  | i + 1, j + 1 =>
    min (min (tableEntry a b i j + if a[i]? = b[j]? then 0 else 1) (tableEntry a b (i + 1) j + 1))
      (tableEntry a b i (j + 1) + 1)

@[simp] theorem tableEntry_zero (a b : List Char) (i : Nat) : tableEntry a b i 0 = i := by
  rw [tableEntry]

@[simp] theorem zero_tableEntry (a b : List Char) (j : Nat) : tableEntry a b 0 j = j := by
  cases j <;> simp [tableEntry]

/-- An entry of the table is the distance of two beginnings. -/
theorem tableEntry_eq (a b : List Char) {i j : Nat} (hi : i ≤ a.length) (hj : j ≤ b.length) :
    tableEntry a b i j = levenshtein (a.take i).reverse (b.take j).reverse := by
  fun_induction tableEntry a b i j with
  | case1 i => simp [hi]
  | case2 j => simp [hj]
  | case3 i j ihboth ihleft ihright =>
    have hlast {l : List Char} {k : Nat} (hk : k + 1 ≤ l.length) :
        (l.take (k + 1)).reverse = l[k] :: (l.take k).reverse := by
      rw [List.take_succ_eq_append_getElem hk, List.reverse_append]
      rfl
    rw [hlast hi, hlast hj, levenshtein_cons, ihboth (by omega) (by omega), ← hlast hi,
      ihleft hi (by omega), ← hlast hj, ihright (by omega) hj]
    simp [List.getElem?_eq_getElem hi, List.getElem?_eq_getElem hj]

/-- A line of the table. -/
def tableLine (a b : List Char) (i : Nat) : List Nat :=
  (List.range' 0 (b.length + 1)).map (tableEntry a b i)

/-- From a column `j` on, the old row is written over by the new one.  The old row holds `f` and the
new one `g`, of which the entry in column `j` has just been written. -/
theorem extendRow_eq {c : Char} {f g : Nat → Nat} (bs : List Char) (j : Nat)
    (hg : ∀ k (hk : k < bs.length), g (j + k + 1) =
      min (min (f (j + k) + if c = bs[k] then 0 else 1) (g (j + k) + 1)) (f (j + k + 1) + 1)) :
    extendRow c (g j) bs ((List.range' j (bs.length + 1)).map f) =
      (List.range' (j + 1) bs.length).map g := by
  induction bs generalizing j with
  | nil => rfl
  | cons b bs ih =>
    have hentry := hg 0 (Nat.zero_lt_succ _)
    have hfollowing := ih (j + 1) fun k hk => by
      have hcolumn : j + 1 + k = j + (k + 1) := by omega
      rw [hcolumn]
      exact hg (k + 1) (Nat.succ_lt_succ hk)
    simp only [List.length_cons, List.range'_succ, List.map_cons, extendRow, Nat.add_zero,
      List.getElem_cons_zero] at hentry hfollowing ⊢
    rw [← hentry, hfollowing]

theorem tableLine_eq_cons (a b : List Char) (i : Nat) :
    tableLine a b i = i :: (List.range' 1 b.length).map (tableEntry a b i) := by
  rw [tableLine, List.range'_succ, List.map_cons, tableEntry_zero]

/-- One more character leads from a line of the table to the next one. -/
theorem nextRow_tableLine (a b : List Char) {i : Nat} (hi : i < a.length) :
    nextRow b (tableLine a b i) a[i] = tableLine a b (i + 1) := by
  have hentry (j : Nat) (hj : j < b.length) : tableEntry a b (i + 1) (0 + j + 1) =
      min (min (tableEntry a b i (0 + j) + if a[i] = b[j] then 0 else 1)
        (tableEntry a b (i + 1) (0 + j) + 1)) (tableEntry a b i (0 + j + 1) + 1) := by
    rw [Nat.zero_add, tableEntry, List.getElem?_eq_getElem hi, List.getElem?_eq_getElem hj]
    simp only [Option.some.injEq]
  have hrow : nextRow b (tableLine a b i) a[i] =
      (i + 1) :: extendRow a[i] (i + 1) b (tableLine a b i) := by
    rw [tableLine_eq_cons]
    rfl
  have hextend := extendRow_eq b 0 hentry
  rw [tableEntry_zero] at hextend
  rw [hrow, tableLine_eq_cons a b (i + 1), tableLine, hextend]

/-- **The row holds a line of the table** when some characters have been looked at. -/
theorem foldl_nextRow (front rest b : List Char) :
    rest.foldl (nextRow b) (tableLine (front ++ rest) b front.length) =
      tableLine (front ++ rest) b (front ++ rest).length := by
  induction rest generalizing front with
  | nil => rw [List.foldl_nil, List.append_nil]
  | cons c rest ih =>
    have hnext := nextRow_tableLine (front ++ c :: rest) b (i := front.length) (by simp)
    rw [List.getElem_append_right (Nat.le_refl _)] at hnext
    simp only [Nat.sub_self, List.getElem_cons_zero] at hnext
    rw [List.foldl_cons, hnext]
    simpa using ih (front ++ [c])

theorem tableLine_zero (a b : List Char) : tableLine a b 0 = List.range (b.length + 1) := by
  rw [tableLine, List.range_eq_range']
  exact List.map_id'' (zero_tableEntry a b) _

theorem getLastD_tableLine (a b : List Char) (i : Nat) :
    (tableLine a b i).getLastD 0 = tableEntry a b i b.length := by
  rw [tableLine, List.range'_concat, List.map_append]
  simp

/-- The distance of two words is the last entry of their table. -/
theorem editDistance_eq_tableEntry (a b : String) :
    editDistance a b = tableEntry a.toList b.toList a.length b.length := by
  have hrow := foldl_nextRow [] a.toList b.toList
  rw [List.nil_append, List.length_nil, tableLine_zero] at hrow
  rw [editDistance, hrow, getLastD_tableLine, String.length_toList, String.length_toList]

theorem editDistance_eq_levenshtein (a b : String) :
    editDistance a b = levenshtein a.toList b.toList := by
  rw [editDistance_eq_tableEntry, ← String.length_toList, ← String.length_toList,
    tableEntry_eq _ _ (Nat.le_refl _) (Nat.le_refl _), List.take_length, List.take_length,
    levenshtein_reverse]

/-! ## The distance of two words -/

theorem isLeast_editDistance (a b : String) :
    IsLeast {n | Edits n a.toList b.toList} (editDistance a b) := by
  rw [editDistance_eq_levenshtein]
  exact isLeast_levenshtein _ _

theorem edits_editDistance (a b : String) : Edits (editDistance a b) a.toList b.toList :=
  (isLeast_editDistance a b).1

theorem Edits.editDistance_le {n : Nat} {a b : String} (h : Edits n a.toList b.toList) :
    editDistance a b ≤ n :=
  (isLeast_editDistance a b).2 h

theorem editDistance_eq_zero_iff {a b : String} : editDistance a b = 0 ↔ a = b := by
  constructor
  · intro hzero
    have hedits := edits_editDistance a b
    rw [hzero, Edits.zero_iff] at hedits
    exact String.toList_inj.1 hedits
  · rintro rfl
    exact Nat.le_zero.1 (Edits.refl _).editDistance_le

theorem editDistance_comm (a b : String) : editDistance a b = editDistance b a :=
  Nat.le_antisymm (edits_editDistance b a).symm.editDistance_le
    (edits_editDistance a b).symm.editDistance_le

theorem editDistance_triangle (a b c : String) :
    editDistance a c ≤ editDistance a b + editDistance b c :=
  ((edits_editDistance a b).trans (edits_editDistance b c)).editDistance_le

end Text

/-- **The distance of two words is the least number of edits** that turn one into the other, and the
last entry of the table of distances.  So it is zero for equal words only, it is the same in both
directions, and no detour over a third word is shorter. -/
theorem editDistance_least (a b : String) :
    IsLeast {n | Text.Edits n a.toList b.toList} (Text.editDistance a b) ∧
      Text.editDistance a b = Text.tableEntry a.toList b.toList a.length b.length ∧
      (Text.editDistance a b = 0 ↔ a = b) ∧
      Text.editDistance a b = Text.editDistance b a ∧
      ∀ c, Text.editDistance a c ≤ Text.editDistance a b + Text.editDistance b c :=
  ⟨Text.isLeast_editDistance a b, Text.editDistance_eq_tableEntry a b,
    Text.editDistance_eq_zero_iff, Text.editDistance_comm a b, Text.editDistance_triangle a b⟩

example : Text.editDistance "kitten" "sitting" = 3 := by
  decide

end KarelRobot
