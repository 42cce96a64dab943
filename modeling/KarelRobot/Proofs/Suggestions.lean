import KarelRobot.Diagnostic
import Mathlib.Data.List.Nodup

/-!
# Suggestions do not depend on the order of the candidates

The words nearest to a misspelt one are found in one pass over the candidates, in which a nearer
candidate replaces all words found so far and an equally near one joins them.  So what has been
found at any time are the nearest ones of the candidates seen, each of them once, and when they
have been sorted nothing is left of the order in which they were seen.

* `Text.Nearest.Collects` — what has been found among the candidates seen.
* `Text.nearest_congr` — candidates that are the same up to order and repetition give the same
  suggestions.
* `suggestions_canonical` — the suggestions are the first of the nearest candidates in alphabetical
  order.
-/

set_option autoImplicit false
namespace KarelRobot
namespace Text

variable {word : String}

/-- The words found are those of the candidates `seen` that are nearest to `word`, each of them
once. -/
structure Nearest.Collects (word : String) (seen : List String) (found : Nearest) : Prop where
  nodup : found.words.Nodup
  mem_iff : ∀ candidate, candidate ∈ found.words ↔
    candidate ∈ seen ∧ editDistance word candidate = found.distance
  least : ∀ candidate ∈ seen, found.distance ≤ editDistance word candidate
  ne_nil : found.words ≠ []

namespace Nearest

theorem collects_singleton (word candidate : String) :
    Collects word [candidate] ⟨editDistance word candidate, [candidate]⟩ where
  nodup := List.nodup_singleton _
  mem_iff other := by
    simp only [List.mem_singleton]
    exact ⟨fun h => ⟨h, by rw [h]⟩, And.left⟩
  least other hother := Nat.le_of_eq (by rw [List.mem_singleton.1 hother])
  ne_nil := List.cons_ne_nil _ _

/-- One more candidate is taken into account rightly. -/
theorem Collects.consider {seen : List String} {found : Nearest} (h : Collects word seen found)
    (candidate : String) :
    ∃ found', Nearest.consider word (some found) candidate = some found' ∧
      Collects word (seen ++ [candidate]) found' := by
  rw [Nearest.consider]
  by_cases hnearer : editDistance word candidate < found.distance
  · -- what was seen before is farther away
    refine ⟨_, if_pos hnearer, List.nodup_singleton _, fun other => ?_, fun other hother => ?_,
      List.cons_ne_nil _ _⟩
    · simp only [List.mem_singleton, List.mem_append]
      refine ⟨fun heq => ⟨.inr heq, by rw [heq]⟩, fun ⟨hseen, hdistance⟩ => ?_⟩
      rcases hseen with hseen | heq
      · have hle := h.least other hseen
        omega
      · exact heq
    · rcases List.mem_append.1 hother with hseen | heq
      · exact Nat.le_trans (Nat.le_of_lt hnearer) (h.least other hseen)
      · exact Nat.le_of_eq (by rw [List.mem_singleton.1 heq])
  · have hleast : ∀ other ∈ seen ++ [candidate], found.distance ≤ editDistance word other := by
      intro other hother
      rcases List.mem_append.1 hother with hseen | heq
      · exact h.least other hseen
      · rw [List.mem_singleton.1 heq]
        exact Nat.le_of_not_lt hnearer
    simp only [if_neg hnearer]
    by_cases hjoins : editDistance word candidate = found.distance ∧ candidate ∉ found.words
    · refine ⟨_, if_pos hjoins, ?_, fun other => ?_, hleast, by simp⟩
      · rw [List.nodup_append_comm]
        exact List.nodup_cons.2 ⟨hjoins.2, h.nodup⟩
      · simp only [List.mem_append, List.mem_singleton, h.mem_iff]
        refine ⟨?_, ?_⟩
        · rintro (⟨hseen, hdistance⟩ | rfl)
          · exact ⟨.inl hseen, hdistance⟩
          · exact ⟨.inr rfl, hjoins.1⟩
        · rintro ⟨hseen | heq, hdistance⟩
          · exact .inl ⟨hseen, hdistance⟩
          · exact .inr heq
    · refine ⟨_, if_neg hjoins, h.nodup, fun other => ?_, hleast, h.ne_nil⟩
      rw [List.mem_append, List.mem_singleton, h.mem_iff]
      refine ⟨fun ⟨hseen, hdistance⟩ => ⟨.inl hseen, hdistance⟩, ?_⟩
      rintro ⟨hseen | rfl, hdistance⟩
      · exact ⟨hseen, hdistance⟩
      · exact (h.mem_iff other).1 (by_contra fun hmem => hjoins ⟨hdistance, hmem⟩)

theorem Collects.foldl {seen : List String} {found : Nearest} (h : Collects word seen found)
    (candidates : List String) :
    ∃ found', candidates.foldl (Nearest.consider word) (some found) = some found' ∧
      Collects word (seen ++ candidates) found' := by
  induction candidates generalizing seen found with
  | nil => exact ⟨found, rfl, by rwa [List.append_nil]⟩
  | cons candidate candidates ih =>
    obtain ⟨next, hnext, hcollects⟩ := h.consider candidate
    obtain ⟨found', hfound, hcollects'⟩ := ih hcollects
    rw [List.append_assoc, List.singleton_append] at hcollects'
    exact ⟨found', by rw [List.foldl_cons, hnext, hfound], hcollects'⟩

theorem exists_collects (word : String) {candidates : List String} (h : candidates ≠ []) :
    ∃ found, candidates.foldl (Nearest.consider word) none = some found ∧
      Collects word candidates found := by
  obtain ⟨candidate, candidates, rfl⟩ := List.exists_cons_of_ne_nil h
  exact (collects_singleton word candidate).foldl candidates

/-- What has been found are the candidates that no other one is nearer than. -/
theorem Collects.mem_iff_least {seen : List String} {found : Nearest}
    (h : Collects word seen found) {candidate : String} :
    candidate ∈ found.words ↔ candidate ∈ seen ∧
      ∀ other ∈ seen, editDistance word candidate ≤ editDistance word other := by
  rw [h.mem_iff]
  refine and_congr_right fun hseen => ⟨fun hdistance other hother => ?_, fun hleast => ?_⟩
  · rw [hdistance]
    exact h.least other hother
  · obtain ⟨near, hnear⟩ := List.exists_mem_of_ne_nil _ h.ne_nil
    obtain ⟨hnear, hdistance⟩ := (h.mem_iff near).1 hnear
    exact Nat.le_antisymm (hdistance ▸ hleast near hnear) (h.least candidate hseen)

/-- What has been found is determined by which candidates there are. -/
theorem Collects.perm {xs ys : List String} {found found' : Nearest}
    (h : Collects word xs found) (h' : Collects word ys found')
    (hsame : ∀ candidate, candidate ∈ xs ↔ candidate ∈ ys) : found.words.Perm found'.words := by
  have hdistance : found.distance = found'.distance := by
    obtain ⟨near, hnear⟩ := List.exists_mem_of_ne_nil _ h.ne_nil
    obtain ⟨near', hnear'⟩ := List.exists_mem_of_ne_nil _ h'.ne_nil
    rw [h.mem_iff] at hnear
    rw [h'.mem_iff] at hnear'
    have hle := h.least near' ((hsame near').2 hnear'.1)
    have hge := h'.least near ((hsame near).1 hnear.1)
    omega
  refine (List.perm_ext_iff_of_nodup h.nodup h'.nodup).2 fun candidate => ?_
  rw [h.mem_iff, h'.mem_iff, hsame, hdistance]

end Nearest

theorem pairwise_mergeSort (words : List String) :
    (words.mergeSort fun a b => decide (a ≤ b)).Pairwise fun a b => a ≤ b := by
  have hsorted : (words.mergeSort fun a b => decide (a ≤ b)).Pairwise fun a b =>
      decide (a ≤ b) = true :=
    List.pairwise_mergeSort
      (fun a b c hab hbc => by
        simpa using String.le_trans (by simpa using hab) (by simpa using hbc))
      (fun a b => by simpa using String.le_total a b) words
  exact hsorted.imp of_decide_eq_true

/-- Sorting forgets the order of words. -/
theorem mergeSort_congr {xs ys : List String} (h : xs.Perm ys) :
    (xs.mergeSort fun a b => decide (a ≤ b)) = ys.mergeSort fun a b => decide (a ≤ b) :=
  List.Perm.eq_of_pairwise (fun _ _ _ _ => String.le_antisymm) (pairwise_mergeSort xs)
    (pairwise_mergeSort ys)
    ((List.mergeSort_perm xs _).trans (h.trans (List.mergeSort_perm ys _).symm))

/-- The numbers of the characters of a word. -/
def codePoints (word : String) : List Nat :=
  word.toList.map Char.toNat

theorem codePoints_lt {a b : String} (h : a < b) : codePoints a < codePoints b := by
  have hlex : List.Lex (· < ·) a.toList b.toList := h
  unfold codePoints
  generalize a.toList = as, b.toList = bs at hlex
  induction hlex with
  | nil => exact .nil
  | cons _ ih => exact .cons ih
  | rel hlt => exact .rel hlt

/-- Words that are sorted and all different stand in the order of their characters. -/
theorem pairwise_codePoints {words : List String} (h : words.Nodup) :
    (words.mergeSort fun a b => decide (a ≤ b)).Pairwise fun a b =>
      codePoints a < codePoints b := by
  have hnodup : (words.mergeSort fun a b => decide (a ≤ b)).Nodup :=
    (List.mergeSort_perm words _).nodup_iff.2 h
  refine ((pairwise_mergeSort words).and hnodup).imp fun ⟨hle, hne⟩ => codePoints_lt ?_
  exact String.not_le.1 fun hge => hne (String.le_antisymm hle hge)

/-- The suggestions are the beginning of the list of all nearest candidates. -/
theorem exists_nearest_eq_take (word : String) (candidates : List String) :
    ∃ all : List String, all.Pairwise (fun a b => codePoints a < codePoints b) ∧
      (∀ candidate, candidate ∈ all ↔ candidate ∈ candidates ∧
        ∀ other ∈ candidates, editDistance word candidate ≤ editDistance word other) ∧
      nearest word candidates = all.take maxSuggestions := by
  by_cases hnil : candidates = []
  · subst hnil
    exact ⟨[], .nil, by simp, rfl⟩
  · obtain ⟨found, hfound, hcollects⟩ := Nearest.exists_collects word hnil
    refine ⟨_, pairwise_codePoints hcollects.nodup, fun candidate => ?_, by rw [nearest, hfound]⟩
    rw [List.mem_mergeSort, hcollects.mem_iff_least]

/-- **The order and the repetitions of the candidates do not matter.** -/
theorem nearest_congr (word : String) {xs ys : List String}
    (h : ∀ candidate, candidate ∈ xs ↔ candidate ∈ ys) : nearest word xs = nearest word ys := by
  by_cases hxs : xs = []
  · have hys : ys = [] := List.eq_nil_iff_forall_not_mem.2 fun candidate hmem => by
      simpa [hxs] using (h candidate).2 hmem
    rw [hxs, hys]
  · have hys : ys ≠ [] := by
      obtain ⟨candidate, hmem⟩ := List.exists_mem_of_ne_nil _ hxs
      exact List.ne_nil_of_mem ((h candidate).1 hmem)
    obtain ⟨found, hfound, hcollects⟩ := Nearest.exists_collects word hxs
    obtain ⟨found', hfound', hcollects'⟩ := Nearest.exists_collects word hys
    rw [nearest, nearest, hfound, hfound']
    exact congrArg (List.take maxSuggestions) (mergeSort_congr (hcollects.perm hcollects' h))

end Text

/-- The diagnostic for an unknown name does not depend on the order of the known names. -/
theorem Diagnostic.unknownName_congr (name : String) (position : Nat) (headline : Option String)
    {xs ys : List String} (h : ∀ candidate, candidate ∈ xs ↔ candidate ∈ ys) :
    unknownName name position headline xs = unknownName name position headline ys := by
  rw [unknownName, unknownName, Text.nearest_congr name h]

/-- **The suggestions are the first of the nearest candidates.**  They are the beginning, of five at
most, of the list of all candidates at the least distance, each of them once and in the order of
their characters; so the order and the repetitions of the candidates do not show in them, nor in the
diagnostic that makes them. -/
theorem suggestions_canonical (word : String) (candidates : List String) :
    (∃ all : List String,
      all.Pairwise (fun a b => Text.codePoints a < Text.codePoints b) ∧
      (∀ candidate, candidate ∈ all ↔ candidate ∈ candidates ∧
        ∀ other ∈ candidates, Text.editDistance word candidate ≤ Text.editDistance word other) ∧
      Text.nearest word candidates = all.take 5) ∧
    ∀ others : List String, (∀ candidate, candidate ∈ candidates ↔ candidate ∈ others) →
      Text.nearest word candidates = Text.nearest word others ∧
      ∀ position headline, Diagnostic.unknownName word position headline candidates =
        Diagnostic.unknownName word position headline others :=
  ⟨Text.exists_nearest_eq_take word candidates, fun _ hsame =>
    ⟨Text.nearest_congr word hsame, fun position headline =>
      Diagnostic.unknownName_congr word position headline hsame⟩⟩

/-- Five of the six names at distance one are suggested, in whichever order they are seen. -/
theorem suggestions_canonical_six :
    Text.nearest "a" ["f", "b", "abc", "d", "b", "c", "g", "e"] = ["b", "c", "d", "e", "f"] ∧
      Text.nearest "a" ["f", "b", "abc", "d", "b", "c", "g", "e"] =
        Text.nearest "a" ["abc", "b", "c", "d", "e", "f", "g"] := by
  have hsame := (suggestions_canonical "a" ["f", "b", "abc", "d", "b", "c", "g", "e"]).2
    ["abc", "b", "c", "d", "e", "f", "g"] fun candidate => by
      simp only [List.mem_cons, List.not_mem_nil, or_false]
      tauto
  have hfound : ["abc", "b", "c", "d", "e", "f", "g"].foldl (Text.Nearest.consider "a") none =
      some ⟨1, ["b", "c", "d", "e", "f", "g"]⟩ := by
    decide +kernel
  have hsorted : Text.nearest "a" ["abc", "b", "c", "d", "e", "f", "g"] =
      ["b", "c", "d", "e", "f"] := by
    rw [Text.nearest, hfound]
    dsimp only
    rw [List.mergeSort_of_pairwise (by decide)]
    rfl
  exact ⟨hsame.1.trans hsorted, hsame.1⟩

end KarelRobot
