import KarelRobot.Text.Line
import Mathlib.Data.List.Basic

/-!
# Lines and places

Two notions of a line agree.  One counts line feeds on the way to a position; the other cuts a text
behind its line feeds and drops the ends of the lines.  Both follow the text line by line, and so do
the proofs here: a text is a last line without a line feed, or a line, its line feed and another
text.

* `Text.lineInduction` — induction line by line.
* `Text.linesFrom_line`, `Text.placeIn_line` — what the first line of a text does to its lines and
  to the places behind it.
* `Text.lineOf?` — the line of a position.
* `Text.exists_line_of_getElem?` — the line of a position is the piece of the text around it, and
  has its character in the column of its place.
* `Text.lineOf?_eq_none_iff` — only behind the last line feed there may be no line.
* `Text.placeIn_precedes` — places follow one another as positions do.
-/

set_option autoImplicit false
namespace KarelRobot
namespace Text

/-! ## The first line -/

/-- **Induction line by line.** -/
theorem lineInduction {motive : List Char → Prop} (last : ∀ xs, '\n' ∉ xs → motive xs)
    (line : ∀ xs ys, '\n' ∉ xs → motive ys → motive (xs ++ '\n' :: ys)) (cs : List Char) :
    motive cs := by
  -- `xs` is the part of the first line that has been passed already
  have hrest : ∀ xs, '\n' ∉ xs → motive (xs ++ cs) := by
    induction cs with
    | nil =>
      intro xs hxs
      rw [List.append_nil]
      exact last xs hxs
    | cons c cs ih =>
      intro xs hxs
      by_cases hc : c = '\n'
      · rw [hc]
        exact line xs cs hxs (ih [] (by simp))
      · rw [List.append_cons]
        exact ih (xs ++ [c]) (by simp [hxs, Ne.symm hc])
  exact hrest [] (by simp)

/-- A line without the carriage return at its end. -/
def chop (line : List Char) : List Char :=
  if line.getLast? = some '\r' then line.dropLast else line

theorem chop_of_notMem {line : List Char} (h : '\r' ∉ line) : chop line = line :=
  if_neg fun hlast => h (List.mem_of_getLast? hlast)

theorem linesFrom_cons_of_ne {c : Char} (h : c ≠ '\n') (line cs : List Char) :
    linesFrom line (c :: cs) = linesFrom (c :: line) cs :=
  if_neg h

theorem linesFrom_lineFeed (line cs : List Char) :
    linesFrom line ('\n' :: cs) = chop line.reverse :: linesFrom [] cs := by
  refine (if_pos rfl).trans ?_
  rw [chop, List.getLast?_reverse]
  split
  · simp
  next line hline =>
    rw [if_neg]
    intro hhead
    obtain ⟨rest, rfl⟩ := List.head?_eq_some_iff.1 hhead
    exact hline rest rfl

theorem linesFrom_append {xs : List Char} (h : '\n' ∉ xs) (line cs : List Char) :
    linesFrom line (xs ++ cs) = linesFrom (xs.reverse ++ line) cs := by
  induction xs generalizing line with
  | nil => rfl
  | cons x xs ih =>
    rw [List.mem_cons, not_or] at h
    rw [List.cons_append, linesFrom_cons_of_ne (Ne.symm h.1), ih h.2]
    simp

/-- The last line stands only if it has characters. -/
theorem linesFrom_last {xs : List Char} (h : '\n' ∉ xs) :
    linesFrom [] xs = if xs = [] then [] else [xs] := by
  have hlast := linesFrom_append h [] []
  simp only [List.append_nil] at hlast
  rw [hlast, linesFrom]
  simp

/-- A line feed ends a line. -/
theorem linesFrom_line {xs : List Char} (h : '\n' ∉ xs) (ys : List Char) :
    linesFrom [] (xs ++ '\n' :: ys) = chop xs :: linesFrom [] ys := by
  rw [linesFrom_append h, linesFrom_lineFeed, List.append_nil, List.reverse_reverse]

theorem chop_prefix (xs : List Char) : chop xs <+: xs := by
  rw [chop]
  split
  · exact xs.dropLast_prefix
  · exact xs.prefix_rfl

/-- Dropping the carriage return at the end leaves the characters in front of it where they are. -/
theorem getElem?_chop {xs : List Char} {p : Nat} {c : Char} (h : xs[p]? = some c)
    (hend : ¬ (c = '\r' ∧ xs.length = p + 1)) : (chop xs)[p]? = some c := by
  have hlt := (List.getElem?_eq_some_iff.1 h).1
  rw [chop]
  split
  next hlast =>
    rw [List.getElem?_dropLast, if_pos, h]
    by_contra hp
    have hlength : xs.length = p + 1 := by omega
    rw [List.getLast?_eq_getElem?, hlength, Nat.add_sub_cancel, h] at hlast
    exact hend ⟨Option.some.inj hlast, hlength⟩
  · exact h

/-! ## Places -/

/-- The place of a position among some characters. -/
def placeIn (cs : List Char) (position : Nat) : Place :=
  (cs.take position).foldl Place.after Place.start

theorem place_eq (text : String) (position : Nat) :
    place text position = placeIn text.toList position := rfl

theorem foldl_after_of_notMem {xs : List Char} (h : '\n' ∉ xs) (start : Place) :
    xs.foldl Place.after start = ⟨start.line, start.column + xs.length⟩ := by
  induction xs generalizing start with
  | nil => rfl
  | cons x xs ih =>
    rw [List.mem_cons, not_or] at h
    rw [List.foldl_cons, ih h.2, Place.after, if_neg (Ne.symm h.1), List.length_cons,
      Nat.add_assoc, Nat.add_comm 1]

/-- Lines are counted from the line of the start. -/
theorem foldl_after_add (lines : Nat) (xs : List Char) (start : Place) :
    xs.foldl Place.after ⟨start.line + lines, start.column⟩ =
      ⟨(xs.foldl Place.after start).line + lines, (xs.foldl Place.after start).column⟩ := by
  induction xs generalizing start with
  | nil => rfl
  | cons x xs ih =>
    rw [List.foldl_cons, List.foldl_cons, ← ih]
    congr 1
    rw [Place.after, Place.after]
    split
    · simp only [Place.mk.injEq, and_true]
      omega
    · rfl

/-- The columns of the first line. -/
theorem placeIn_of_le {xs : List Char} (h : '\n' ∉ xs) {p : Nat} (hp : p ≤ xs.length)
    (ys : List Char) : placeIn (xs ++ ys) p = ⟨1, p + 1⟩ := by
  rw [placeIn, List.take_append_of_le_length hp,
    foldl_after_of_notMem fun hmem => h (List.mem_of_mem_take hmem), List.length_take_of_le hp]
  simp [Place.start, Nat.add_comm]

/-- Behind a line the other lines are counted on. -/
theorem placeIn_line {xs : List Char} (h : '\n' ∉ xs) (ys : List Char) (p : Nat) :
    placeIn (xs ++ '\n' :: ys) (xs.length + 1 + p) =
      ⟨(placeIn ys p).line + 1, (placeIn ys p).column⟩ := by
  have htake : (xs ++ '\n' :: ys).take (xs.length + 1 + p) = xs ++ '\n' :: ys.take p := by
    rw [Nat.add_assoc, List.take_length_add_append, Nat.add_comm, List.take_succ_cons]
  rw [placeIn, htake, List.foldl_append, foldl_after_of_notMem h, List.foldl_cons, Place.after,
    if_pos rfl]
  exact foldl_after_add 1 (ys.take p) Place.start

theorem line_placeIn_pos (cs : List Char) (p : Nat) : 0 < (placeIn cs p).line := by
  have hfold := foldl_after_add 1 (cs.take p) ⟨0, 1⟩
  rw [placeIn, Place.start, hfold]
  exact Nat.succ_pos _

/-! ## The line of a place -/

/-- The line in which a position lies. -/
def lineOf? (cs : List Char) (position : Nat) : Option (List Char) :=
  (linesFrom [] cs)[(placeIn cs position).line - 1]?

theorem lineOf?_of_le {xs : List Char} (h : '\n' ∉ xs) {p : Nat} (hp : p ≤ xs.length)
    (ys : List Char) : lineOf? (xs ++ '\n' :: ys) p = some (chop xs) := by
  rw [lineOf?, placeIn_of_le h hp, linesFrom_line h]
  rfl

/-- Behind the first line, the lines are those of the rest. -/
theorem lineOf?_line {xs : List Char} (h : '\n' ∉ xs) (ys : List Char) (p : Nat) :
    lineOf? (xs ++ '\n' :: ys) (xs.length + 1 + p) = lineOf? ys p := by
  have hpos := line_placeIn_pos ys p
  rw [lineOf?, lineOf?, placeIn_line h, linesFrom_line h, Nat.add_sub_cancel,
    List.getElem?_cons, if_neg (Nat.ne_of_gt hpos)]

/-- The place of any position in the last line is in that line. -/
theorem lineOf?_last {xs : List Char} (h : '\n' ∉ xs) (p : Nat) :
    lineOf? xs p = if xs = [] then none else some xs := by
  rw [lineOf?, placeIn, foldl_after_of_notMem fun hmem => h (List.mem_of_mem_take hmem),
    linesFrom_last h]
  split <;> rfl

/-- **The line of a place is the piece of the text around the position**, unless the character there
belongs to the end of the line.  The line begins as many characters in front of the position as
there are columns in front of the place, so the character is in the column of the place. -/
theorem exists_line_of_getElem? {cs : List Char} {p : Nat} {c : Char} (h : cs[p]? = some c)
    (hlineFeed : c ≠ '\n') (hreturn : ¬ (c = '\r' ∧ cs[p + 1]? = some '\n')) :
    ∃ before found behind, cs = before ++ found ++ behind ∧ lineOf? cs p = some found ∧
      before.length + ((placeIn cs p).column - 1) = p ∧
      found[(placeIn cs p).column - 1]? = some c := by
  induction cs using lineInduction generalizing p with
  | last xs hxs =>
    have hlt := (List.getElem?_eq_some_iff.1 h).1
    have hplace := placeIn_of_le hxs (Nat.le_of_lt hlt) []
    rw [List.append_nil] at hplace
    rw [hplace, lineOf?_last hxs, if_neg (List.ne_nil_of_length_pos (Nat.zero_lt_of_lt hlt))]
    exact ⟨[], xs, [], (List.append_nil xs).symm, rfl, Nat.zero_add p, h⟩
  | line xs ys hxs ih =>
    rcases Nat.lt_trichotomy p xs.length with hlt | rfl | hgt
    · rw [placeIn_of_le hxs (Nat.le_of_lt hlt), lineOf?_of_le hxs (Nat.le_of_lt hlt)]
      rw [List.getElem?_append_left hlt] at h
      have hend : ¬ (c = '\r' ∧ xs.length = p + 1) := fun ⟨hc, hlength⟩ => hreturn ⟨hc, by
        rw [← hlength, List.getElem?_append_right (Nat.le_refl _), Nat.sub_self]
        rfl⟩
      obtain ⟨ending, hending⟩ := chop_prefix xs
      refine ⟨[], chop xs, ending ++ '\n' :: ys, ?_, rfl, Nat.zero_add p, getElem?_chop h hend⟩
      rw [List.nil_append, ← List.append_assoc, hending]
    · rw [List.getElem?_append_right (Nat.le_refl _), Nat.sub_self] at h
      exact absurd (Option.some.inj h).symm hlineFeed
    · obtain ⟨q, rfl⟩ : ∃ q, p = xs.length + 1 + q := ⟨p - (xs.length + 1), by omega⟩
      have hrest (i : Nat) : (xs ++ '\n' :: ys)[xs.length + 1 + i]? = ys[i]? := by
        rw [List.append_cons, List.getElem?_append_right (by simp)]
        simp
      rw [lineOf?_line hxs, placeIn_line hxs]
      rw [hrest] at h
      rw [Nat.add_assoc, hrest] at hreturn
      obtain ⟨before, found, behind, hys, hline, hlength, hcolumn⟩ := ih h hreturn
      refine ⟨xs ++ '\n' :: before, found, behind, ?_, hline, ?_, hcolumn⟩
      · simp [hys]
      · simp only [List.length_append, List.length_cons]
        omega

/-- **There is no line at the end of a text that is empty or ends in a line feed**, and everywhere
else there is one. -/
theorem lineOf?_eq_none_iff {cs : List Char} {p : Nat} :
    lineOf? cs p = none ↔ cs.length ≤ p ∧ (cs = [] ∨ cs.getLast? = some '\n') := by
  induction cs using lineInduction generalizing p with
  | last xs hxs =>
    have hlast : xs.getLast? ≠ some '\n' := fun hlast => hxs (List.mem_of_getLast? hlast)
    rw [lineOf?_last hxs]
    by_cases hempty : xs = [] <;> simp [hempty, hlast]
  | line xs ys hxs ih =>
    have hlength : (xs ++ '\n' :: ys).length = xs.length + 1 + ys.length := by
      simp only [List.length_append, List.length_cons]
      omega
    rcases Nat.lt_or_ge xs.length p with hgt | hle
    · obtain ⟨q, rfl⟩ : ∃ q, p = xs.length + 1 + q := ⟨p - (xs.length + 1), by omega⟩
      rw [lineOf?_line hxs, ih, hlength, Nat.add_le_add_iff_left]
      cases ys <;> simp
    · rw [lineOf?_of_le hxs hle, hlength]
      have hlt : ¬ xs.length + 1 + ys.length ≤ p := by omega
      simp [hlt]

/-! ## The order of places -/

/-- One place comes before another one: in an earlier line, or further to the left. -/
def Place.Precedes (p q : Place) : Prop :=
  p.line < q.line ∨ p.line = q.line ∧ p.column < q.column

theorem Place.Precedes.trans {p q r : Place} (h : p.Precedes q) (h' : q.Precedes r) :
    p.Precedes r := by
  simp only [Precedes] at h h' ⊢
  omega

theorem Place.precedes_after (p : Place) (c : Char) : p.Precedes (p.after c) := by
  rw [after]
  split
  · exact .inl (Nat.lt_succ_self _)
  · exact .inr ⟨rfl, Nat.lt_succ_self _⟩

/-- **Places follow one another as positions do**, up to the end of the text. -/
theorem placeIn_precedes {cs : List Char} {p q : Nat} (h : p < q) (hq : q ≤ cs.length) :
    (placeIn cs p).Precedes (placeIn cs q) := by
  have hstep (i : Nat) (hi : i < cs.length) : (placeIn cs i).Precedes (placeIn cs (i + 1)) := by
    rw [placeIn, placeIn, List.take_succ_eq_append_getElem hi, List.foldl_append]
    exact Place.precedes_after _ _
  induction h with
  | refl => exact hstep p hq
  | step _ ih => exact (ih (Nat.le_of_succ_le hq)).trans (hstep _ hq)

end Text
end KarelRobot
