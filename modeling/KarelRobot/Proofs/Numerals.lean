import KarelRobot.Text.Numeral
import Mathlib.Data.Nat.Digits.Defs
import Mathlib.Tactic.IntervalCases

/-!
# What a numeral says

Numerals can be read back, also where they stand at the right end of a column: hexadecimal ones and
decimal ones each denote one number.  A text that is both denotes two, one for each way to read it.

* `Text.hexValue` — reading hexadecimal digits, `Text.hexPadded_injective` what follows from it.
* `Text.hex_eq_decimal_iff` — when a hexadecimal numeral and a decimal one are the same text.
* `Text.padLeft_inj` — a column of blanks hides nothing.
-/

set_option autoImplicit false
namespace KarelRobot
namespace Text

/-! ## Reading hexadecimal digits -/

/-- The value of a hexadecimal digit. -/
def hexDigitValue (c : Char) : Nat :=
  if c.isDigit then c.toNat - '0'.toNat else c.toNat - 'a'.toNat + 10

/-- The value of a list of hexadecimal digits. -/
def hexValue (digits : List Char) : Nat :=
  digits.foldl (fun value c => 16 * value + hexDigitValue c) 0

theorem hexDigitValue_digitChar {d : Nat} (h : d < 16) : hexDigitValue d.digitChar = d := by
  interval_cases d <;> rfl

theorem hexValue_toDigits (n : Nat) : hexValue (Nat.toDigits 16 n) = n := by
  induction n using Nat.base_induction 16 (by decide) with
  | single d hd => simp [Nat.toDigits_of_lt_base hd, hexValue, hexDigitValue_digitChar hd]
  | digit n d hd hn ih =>
    rw [hexValue] at ih
    rw [← Nat.toDigits_append_toDigits (by decide) hn hd, Nat.toDigits_of_lt_base hd, hexValue,
      List.foldl_append, ih, List.foldl_cons, List.foldl_nil, hexDigitValue_digitChar hd]

theorem hexValue_replicate_append (zeros : Nat) (digits : List Char) :
    hexValue (List.replicate zeros '0' ++ digits) = hexValue digits := by
  induction zeros with
  | zero => rfl
  | succ zeros ih => exact ih

@[simp]
theorem toList_padLeft (fill : Char) (width : Nat) (text : String) :
    (padLeft fill width text).toList =
      List.replicate (width - text.length) fill ++ text.toList := by
  rw [padLeft, String.toList_append, String.toList_ofList]

theorem hexValue_hex (n : Nat) : hexValue (hex n).toList = n := by
  rw [hex, String.toList_ofList, hexValue_toDigits]

theorem hexValue_hexPadded (width n : Nat) : hexValue (hexPadded width n).toList = n := by
  rw [hexPadded, toList_padLeft, hexValue_replicate_append, hexValue_hex]

theorem hex_injective : Function.Injective hex :=
  Function.LeftInverse.injective (g := fun text : String => hexValue text.toList) hexValue_hex

/-- Leading zeros do not make another number. -/
theorem hexPadded_injective (width : Nat) : Function.Injective (hexPadded width) :=
  Function.LeftInverse.injective (g := fun text : String => hexValue text.toList)
    (hexValue_hexPadded width)

theorem decimal_injective : Function.Injective decimal := by
  have hread : Function.LeftInverse (fun text => Nat.ofDigitChars 10 text.toList 0) decimal := by
    intro n
    simp [decimal]
  exact hread.injective

/-! ## Both ways to read a numeral -/

/-- The decimal digits of a number, taken for hexadecimal ones, are written the same way. -/
theorem hex_ofDigits (n : Nat) : hex (Nat.ofDigits 16 (Nat.digits 10 n)) = decimal n := by
  rw [hex, decimal]
  congr 1
  induction n using Nat.base_induction 10 (by decide) with
  | single d hd =>
    have hdigits : Nat.ofDigits 16 (Nat.digits 10 d) = d := by interval_cases d <;> rfl
    rw [hdigits, Nat.toDigits_of_lt_base hd, Nat.toDigits_of_lt_base (by omega)]
  | digit n d hd hn ih =>
    have hd' : d < 16 := by omega
    have hpos : 0 < Nat.ofDigits 16 (Nat.digits 10 n) := by
      have hle := Nat.ofDigits_monotone (Nat.digits 10 n) (show 10 ≤ 16 by decide)
      rw [Nat.ofDigits_digits] at hle
      exact Nat.lt_of_lt_of_le hn hle
    have hdigits : Nat.ofDigits 16 (Nat.digits 10 (10 * n + d)) =
        16 * Nat.ofDigits 16 (Nat.digits 10 n) + d := by
      rw [Nat.add_comm (10 * n), Nat.digits_add 10 (by decide) d n hd (.inr hn.ne'),
        Nat.ofDigits_cons]
      exact Nat.add_comm _ _
    rw [hdigits, ← Nat.toDigits_append_toDigits (by decide) hpos hd', ih,
      ← Nat.toDigits_append_toDigits (by decide) hn hd, Nat.toDigits_of_lt_base hd,
      Nat.toDigits_of_lt_base hd']

/-- **A hexadecimal numeral looks like a decimal one** just if it has the same digits. -/
theorem hex_eq_decimal_iff {a n : Nat} :
    hex a = decimal n ↔ a = Nat.ofDigits 16 (Nat.digits 10 n) := by
  rw [← hex_ofDigits, hex_injective.eq_iff]

theorem length_hex_le_iff {n width : Nat} (h : 0 < width) :
    (hex n).length ≤ width ↔ n < 16 ^ width := by
  rw [hex, String.length_ofList, Nat.length_toDigits_le_iff (by decide) h]

theorem length_decimal_le_iff {n width : Nat} (h : 0 < width) :
    (decimal n).length ≤ width ↔ n < 10 ^ width := by
  rw [decimal, String.length_ofList, Nat.length_toDigits_le_iff (by decide) h]

/-! ## Columns -/

/-- The characters of numerals. -/
def isHexDigit (c : Char) : Bool :=
  c.isDigit || ('a' ≤ c && c ≤ 'f')

theorem isHexDigit_of_mem_hex {n : Nat} {c : Char} (h : c ∈ (hex n).toList) :
    isHexDigit c = true := by
  rw [hex, String.toList_ofList] at h
  have hdigit : ∀ d < 16, isHexDigit d.digitChar = true := by decide
  induction n using Nat.base_induction 16 (by decide) with
  | single d hd =>
    rw [Nat.toDigits_of_lt_base hd, List.mem_singleton] at h
    exact h ▸ hdigit d hd
  | digit n d hd hn ih =>
    rw [← Nat.toDigits_append_toDigits (by decide) hn hd, Nat.toDigits_of_lt_base hd] at h
    rcases List.mem_append.1 h with h | h
    · exact ih h
    · exact List.mem_singleton.1 h ▸ hdigit d hd

theorem isHexDigit_of_mem_hexPadded {width n : Nat} {c : Char}
    (h : c ∈ (hexPadded width n).toList) : isHexDigit c = true := by
  rw [hexPadded, toList_padLeft, List.mem_append] at h
  rcases h with h | h
  · rw [List.eq_of_mem_replicate h]
    decide
  · exact isHexDigit_of_mem_hex h

theorem isHexDigit_of_mem_decimal {n : Nat} {c : Char} (h : c ∈ (decimal n).toList) :
    isHexDigit c = true :=
  isHexDigit_of_mem_hex (hex_ofDigits n ▸ h)

theorem dropWhile_padLeft {fill : Char} (width : Nat) {text : String} (h : fill ∉ text.toList) :
    (padLeft fill width text).toList.dropWhile (· == fill) = text.toList := by
  rw [toList_padLeft, List.dropWhile_append_of_pos (by simp)]
  cases htext : text.toList with
  | nil => rfl
  | cons c cs =>
    refine List.dropWhile_cons_of_neg fun hc => h ?_
    rw [htext, ← eq_of_beq hc]
    exact List.mem_cons_self

/-- **A column hides nothing** of a text that does not use its filling. -/
theorem padLeft_inj {fill : Char} {width : Nat} {text text' : String}
    (h : fill ∉ text.toList) (h' : fill ∉ text'.toList) :
    padLeft fill width text = padLeft fill width text' ↔ text = text' := by
  refine ⟨fun heq => ?_, fun heq => by rw [heq]⟩
  have hdrop := dropWhile_padLeft width h'
  rw [← heq, dropWhile_padLeft width h] at hdrop
  exact String.toList_inj.1 hdrop

end Text
end KarelRobot
