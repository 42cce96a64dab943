import KarelRobot.Token.Cursor

/-!
# What the scanner hands out

The tokens of a text are none of its end, and a number among them is a run of digits, so that the
limits of a range are all that can be wrong with it.

* `Token.Proper` — what can be said of every token of a text.
* `Scan.proper` — the tokens of a text are proper.
* `Token.toNat_eq_ok_iff` — the number that a token spells.
-/

set_option autoImplicit false
namespace KarelRobot

open Token (Kind)

/-- A token as a text holds it: not the end of the input, and digits only if it is a number. -/
structure Token.Proper (t : Token) : Prop where
  kind : t.kind ≠ .endOfInput
  digits : t.kind = .number → t.lexeme.toList ≠ [] ∧ ∀ c ∈ t.lexeme.toList, c.isDigit = true

/-! ## Numbers -/

/-- A run of digits spells its value, unless that is above the limit. -/
theorem Text.readNat?_eq_some_iff {limit n : Nat} {text : String} (hne : text.toList ≠ [])
    (hdigits : ∀ c ∈ text.toList, c.isDigit = true) :
    Text.readNat? limit text = some n ↔ Text.digitsValue text.toList = n ∧ n ≤ limit := by
  obtain ⟨first, following, hcons⟩ := List.exists_cons_of_ne_nil hne
  have hplus : first ≠ '+' := by
    rintro rfl
    exact absurd (hdigits '+' (by rw [hcons]; exact List.mem_cons_self)) (by decide)
  have hall : text.toList.all Char.isDigit = true := List.all_eq_true.2 hdigits
  have hread : readNat? limit text =
      if digitsValue text.toList ≤ limit then some (digitsValue text.toList) else none := by
    rw [readNat?, hcons]
    split
    next heq => exact absurd (List.cons.inj heq).1 hplus
    · rw [← hcons, hall]
      simp [hcons]
  rw [hread]
  split
  next hle =>
    rw [Option.some.injEq]
    exact ⟨fun h => ⟨h, h ▸ hle⟩, And.left⟩
  next hlt =>
    refine ⟨nofun, fun h => ?_⟩
    rw [h.1] at hlt
    exact absurd h.2 hlt

/-- A number of a text has the value of its digits, if that lies in the range. -/
theorem Token.toNat_eq_ok_iff {t : Token} (h : t.Proper) (hkind : t.kind = .number)
    {low high n : Nat} (hhigh : high ≤ 0xffff) :
    t.toNat low high = .ok n ↔
      Text.digitsValue t.lexeme.toList = n ∧ low ≤ n ∧ n ≤ high := by
  obtain ⟨hne, hdigits⟩ := h.digits hkind
  have hread (value : Nat) : Text.readNat? 0xffff t.lexeme = some value ↔
      Text.digitsValue t.lexeme.toList = value ∧ value ≤ 0xffff :=
    Text.readNat?_eq_some_iff hne hdigits
  unfold Token.toNat
  dsimp only
  split
  next value hvalue =>
    obtain ⟨hdigits, -⟩ := (hread value).1 hvalue
    rw [hdigits]
    split
    next hrange =>
      rw [Except.ok.injEq]
      exact ⟨fun heq => ⟨heq, heq ▸ hrange⟩, And.left⟩
    next hrange =>
      refine ⟨nofun, fun hn => ?_⟩
      rw [hn.1] at hrange
      exact absurd hn.2 hrange
  next hnone =>
    refine ⟨nofun, fun hn => ?_⟩
    have hsome := (hread n).2 ⟨hn.1, Nat.le_trans hn.2.2 hhigh⟩
    rw [hnone] at hsome
    cases hsome

/-! ## Tokens -/

theorem Token.Kind.ofWord_ne_number (word : String) : Kind.ofWord word ≠ .number := by
  unfold ofWord ofKeyword?
  cases hfind : keywords.find? fun kind => kind.spelling == word with
  | none => exact nofun
  | some kind =>
    have hmem := List.mem_of_find?_eq_some hfind
    rintro rfl
    exact absurd hmem (by decide)

namespace Cursor

/-- A number starts with a digit and goes on as long as there are digits. -/
theorem classify_number {cs : List Char} {length : Nat}
    (h : classify cs = .ok (.number, length)) :
    ∃ c following, cs = c :: following ∧ c.isDigit = true ∧
      length = (following.takeWhile Char.isDigit).length + 1 := by
  unfold classify at h
  split at h
  · cases h
  · cases h
  · cases h
  next c following _ _ =>
    split at h
    next kind hsymbol =>
      cases h
      unfold symbol? at hsymbol
      split at hsymbol <;> cases hsymbol
    · split at h
      · cases h
      · split at h
        · cases h
        · split at h
          next hdigit =>
            cases h
            exact ⟨c, following, rfl, hdigit, rfl⟩
          · split at h
            · simp only [Except.ok.injEq, Prod.mk.injEq] at h
              exact absurd h.1 (Kind.ofWord_ne_number _)
            · cases h

theorem next_proper {cursor after : Cursor} {t : Token} (h : cursor.next = (.ok t, after))
    (ht : t.kind ≠ .endOfInput) : t.Proper := by
  refine ⟨ht, fun hnumber => ?_⟩
  unfold next at h
  split at h
  · cases h
  next here _ =>
    split at h
    · cases h
    next kind length hclassify =>
      cases h
      cases hnumber
      obtain ⟨c, following, hrest, hc, rfl⟩ := classify_number hclassify
      have htake : here.rest.take ((following.takeWhile Char.isDigit).length + 1) =
          c :: following.takeWhile Char.isDigit := by
        have hdigits := List.takeWhile_prefix (l := following) Char.isDigit
        rw [hrest, List.take_succ_cons, ← List.prefix_iff_eq_take.1 hdigits]
      simp only [String.toList_ofList, htake]
      refine ⟨List.cons_ne_nil _ _, List.forall_mem_cons.2 ⟨hc, fun d hd => ?_⟩⟩
      exact List.all_eq_true.1 List.all_takeWhile d hd

end Cursor

/-- **The tokens of a text are proper.** -/
theorem Scan.proper (cursor : Cursor) : ∀ t ∈ (ofCursor cursor).tokens, t.Proper := by
  fun_induction ofCursor cursor with
  | case1 cursor => exact List.forall_mem_nil _
  | case2 cursor => exact List.forall_mem_nil _
  | case3 cursor t after h hkind following ih =>
    exact List.forall_mem_cons.2 ⟨Cursor.next_proper h hkind, ih⟩

end KarelRobot
