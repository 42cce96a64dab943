import KarelRobot.Machine.StackTrace
import KarelRobot.Proofs.Effects
import KarelRobot.Proofs.Numerals
import KarelRobot.Proofs.Safety

/-!
# What a stack trace says

The text of a value on the stack says which value it is, with one exception: a return address is
hexadecimal and a loop counter decimal, and both stand in the same column.  The reserved addresses
keep return addresses apart from counters of one or two digits, but not from those of three.

* `Machine.Value.LooksLike` — a return address has the digits of a loop counter.
* `Machine.Value.text_eq_iff` — values with the same text are equal or look alike.
* `Machine.Counted` — what is left of a loop counter was pushed by the program.
* `session_entries_alike_iff` — when two values on the stacks of a program have the same text.
-/

set_option autoImplicit false
namespace KarelRobot

open Assembly Machine

/-! ## Numbers in a column -/

/-- Does a text consist of digits and blanks? -/
def Text.isNumeric (text : String) : Bool :=
  text.toList.all fun c => c == ' ' || isHexDigit c

theorem Text.isNumeric_padLeft {text : String} (h : ∀ c ∈ text.toList, isHexDigit c = true)
    (width : Nat) : isNumeric (padLeft ' ' width text) = true := by
  refine List.all_eq_true.2 fun c hc => ?_
  rw [toList_padLeft, List.mem_append] at hc
  rcases hc with hc | hc
  · rw [List.eq_of_mem_replicate hc]
    rfl
  · rw [h c hc, Bool.or_true]

/-- Numerals in a column can be told apart if they can be told apart at all. -/
theorem Text.padLeft_blank_inj {text text' : String}
    (h : ∀ c ∈ text.toList, isHexDigit c = true) (h' : ∀ c ∈ text'.toList, isHexDigit c = true)
    {width : Nat} : padLeft ' ' width text = padLeft ' ' width text' ↔ text = text' := by
  have hblank : isHexDigit ' ' ≠ true := by decide
  exact padLeft_inj (fun hmem => hblank (h _ hmem)) fun hmem => hblank (h' _ hmem)

theorem Action.mnemonic_injective : Function.Injective Action.mnemonic := by
  intro which which' h
  cases which <;> cases which' <;> simp_all [mnemonic]

theorem Action.mnemonic_ne_address (which : Action) (address : String) :
    which.mnemonic ≠ "@" ++ address := by
  cases which <;> simp [mnemonic, ← String.toList_inj]

namespace Machine.Value

open Text

/-! ## Kinds of texts -/

/-- Is this value a number for the reader of a stack trace? -/
def isNumber : Value → Bool
  | returnAddress _ | loopCounter _ => true
  | boolean _ | command _ => false

/-- The three hexadecimal digits of a return address are the decimal ones of a loop counter. -/
def LooksLike : Value → Value → Prop
  | returnAddress address, loopCounter remaining =>
    100 ≤ remaining.toNat ∧ remaining.toNat < 1000 ∧
      address.toNat = Nat.ofDigits 16 (Nat.digits 10 remaining.toNat)
  | _, _ => False

/-- A return address lies behind the reserved addresses and has an operand to denote it. -/
def InCode : Value → Prop
  | returnAddress address =>
    Program.entryPoint ≤ address.toNat ∧ address.toNat < Program.maxSize
  | _ => True

theorem isNumeric_text (v : Value) : isNumeric v.text = v.isNumber := by
  cases v with
  | returnAddress address => exact isNumeric_padLeft (fun _ => isHexDigit_of_mem_hex) 4
  | loopCounter remaining => exact isNumeric_padLeft (fun _ => isHexDigit_of_mem_decimal) 4
  | boolean value => cases value <;> rfl
  | command reference =>
    rw [text]
    split
    next which _ => cases which <;> rfl
    · rw [isNumeric, String.toList_append]
      rfl

/-- A number has no text that something else has. -/
theorem text_ne_of_isNumber {v v' : Value} (h : v.isNumber = !v'.isNumber) :
    v.text ≠ v'.text := by
  intro htext
  rw [← isNumeric_text, ← isNumeric_text, htext] at h
  exact (Bool.eq_not_self _).1 h

/-! ## Values of one kind -/

theorem text_returnAddress_inj {a a' : UInt16} :
    (returnAddress a).text = (returnAddress a').text ↔ a = a' := by
  rw [text, text, padLeft_blank_inj (fun _ => isHexDigit_of_mem_hex)
    (fun _ => isHexDigit_of_mem_hex), hex_injective.eq_iff, UInt16.toNat_inj]

theorem text_loopCounter_inj {k k' : UInt16} :
    (loopCounter k).text = (loopCounter k').text ↔ k = k' := by
  rw [text, text, padLeft_blank_inj (fun _ => isHexDigit_of_mem_decimal)
    (fun _ => isHexDigit_of_mem_decimal), decimal_injective.eq_iff, UInt16.toNat_inj]

theorem text_boolean_inj {b b' : Bool} :
    (boolean b).text = (boolean b').text ↔ b = b' := by
  cases b <;> cases b' <;> decide

/-- A command is written by its short name, or else by its address. -/
theorem text_command_cases (r : UInt16) :
    (∃ which : Action, r = which.opcode ∧ (command r).text = which.mnemonic) ∨
      (command r).text = "@" ++ hexPadded 3 r.toNat := by
  rw [text]
  split
  next which hwhich => exact .inl ⟨which, Action.eq_opcode_of_ofOpcode? hwhich, rfl⟩
  · exact .inr rfl

theorem text_boolean_ne_command (b : Bool) (r : UInt16) :
    (boolean b).text ≠ (command r).text := by
  rcases text_command_cases r with ⟨which, -, htext⟩ | htext
  · rw [htext]
    cases b <;> cases which <;> decide
  · rw [htext]
    cases b <;> simp [text, ← String.toList_inj]

theorem text_command_inj {r r' : UInt16} :
    (command r).text = (command r').text ↔ r = r' := by
  refine ⟨fun h => ?_, fun h => by rw [h]⟩
  rcases text_command_cases r with ⟨which, rfl, htext⟩ | htext <;>
    rcases text_command_cases r' with ⟨which', rfl, htext'⟩ | htext' <;> rw [htext, htext'] at h
  · rw [Action.mnemonic_injective h]
  · exact absurd h (which.mnemonic_ne_address _)
  · exact absurd h.symm (which'.mnemonic_ne_address _)
  · exact UInt16.toNat_inj.1 (hexPadded_injective 3 (String.append_right_inj "@" |>.1 h))

/-- **A return address looks like a loop counter** if both have the same three digits. -/
theorem text_returnAddress_eq_loopCounter_iff {a k : UInt16} (h : (returnAddress a).InCode) :
    (returnAddress a).text = (loopCounter k).text ↔
      (returnAddress a).LooksLike (loopCounter k) := by
  obtain ⟨hlow, hhigh⟩ := h
  rw [text, text, padLeft_blank_inj (fun _ => isHexDigit_of_mem_hex)
    (fun _ => isHexDigit_of_mem_decimal), LooksLike, hex_eq_decimal_iff]
  refine ⟨fun heq => ?_, fun hlike => hlike.2.2⟩
  -- There are three digits: addresses in the code do not have fewer or more of them.
  have hdigits : hex a.toNat = decimal k.toNat := hex_eq_decimal_iff.2 heq
  have htwo : ¬ (decimal k.toNat).length ≤ 2 := by
    rw [← hdigits, length_hex_le_iff (by decide)]
    exact Nat.not_lt.2 hlow
  have hthree : (decimal k.toNat).length ≤ 3 := by
    rw [← hdigits, length_hex_le_iff (by decide)]
    exact hhigh
  rw [length_decimal_le_iff (by decide)] at htwo hthree
  exact ⟨Nat.not_lt.1 htwo, hthree, heq⟩

/-- **The text of a value says which value it is,** up to return addresses that look like loop
counters. -/
theorem text_eq_iff {v v' : Value} (h : v.InCode) (h' : v'.InCode) :
    v.text = v'.text ↔ v = v' ∨ v.LooksLike v' ∨ v'.LooksLike v := by
  cases v with
  | returnAddress a =>
    cases v' with
    | returnAddress a' => simp [text_returnAddress_inj, LooksLike]
    | loopCounter k => simp [text_returnAddress_eq_loopCounter_iff h, LooksLike]
    | boolean | command =>
      exact iff_of_false (text_ne_of_isNumber rfl) (by simp [LooksLike])
  | loopCounter k =>
    cases v' with
    | returnAddress a =>
      rw [eq_comm, text_returnAddress_eq_loopCounter_iff h']
      simp [LooksLike]
    | loopCounter k' => simp [text_loopCounter_inj, LooksLike]
    | boolean | command =>
      exact iff_of_false (text_ne_of_isNumber rfl) (by simp [LooksLike])
  | boolean b =>
    cases v' with
    | returnAddress | loopCounter =>
      exact iff_of_false (text_ne_of_isNumber rfl) (by simp [LooksLike])
    | boolean b' => simp [text_boolean_inj, LooksLike]
    | command r => simp [text_boolean_ne_command b r, LooksLike]
  | command r =>
    cases v' with
    | returnAddress | loopCounter =>
      exact iff_of_false (text_ne_of_isNumber rfl) (by simp [LooksLike])
    | boolean b => simp [(text_boolean_ne_command b r).symm, LooksLike]
    | command r' => simp [text_command_inj, LooksLike]

end Machine.Value

/-! ## Where return addresses come from -/

section Frames

variable {script : Script} {main : Command} {p : Program} {m : Machine} {top : Frame}
  {callers : List Frame}

/-- Values that are no return addresses change nothing. -/
theorem forall_inCode_append {α : Type} (f : α → Value) (hf : ∀ a, (f a).InCode) (xs : List α)
    {stack : List Value} (h : ∀ value ∈ stack, value.InCode) :
    ∀ value ∈ xs.map f ++ stack, value.InCode :=
  List.forall_mem_append.2 ⟨List.forall_mem_map.2 fun a _ => hf a, h⟩

/-- Every return address is the one of a pending call, and calls lie in the code. -/
theorem Active.inCode (hcompiles : script.Compiles main p)
    (h : Active p (script.reachable main.name) main top callers) :
    ∀ value ∈ Frame.base top.arguments callers, value.InCode := by
  induction h with
  | entry => exact List.forall_mem_nil _
  | @called f caller callers _ _ _ _ hsite _ hcaller ih =>
    have hmem := hcaller.mem hcompiles
    have hlow := Nat.le_trans (hcompiles.assembles.address_bounds hmem).1 hsite.bounds.1
    have hhigh := hcompiles.at_lt hmem hsite
    have haddress : (Value.returnAddress (operand caller.site)).InCode := by
      rw [Value.InCode, toNat_operand hhigh]
      exact ⟨hlow, hhigh⟩
    refine List.forall_mem_cons.2 ⟨haddress, ?_⟩
    refine forall_inCode_append .command (fun _ => trivial) f.arguments ?_
    exact forall_inCode_append .loopCounter (fun _ => trivial) caller.counters ih

theorem Session.inCode (h : Session p m) (hcompiles : script.Compiles main p) :
    ∀ value ∈ m.stack, value.InCode := by
  obtain ⟨-, top, callers, booleans, pushed, hframed⟩ := h.intact hcompiles
  rw [hframed.stack, Frame.stack]
  refine forall_inCode_append .boolean (fun _ => trivial) booleans ?_
  refine forall_inCode_append .command (fun _ => trivial) pushed ?_
  refine forall_inCode_append .loopCounter (fun _ => trivial) top.counters ?_
  exact hframed.active.inCode hcompiles

end Frames

/-! ## Where loop counters come from -/

/-- A loop of the program runs that often. -/
def Program.Counts (p : Program) (times : UInt16) : Prop :=
  ∃ address i, p.get? address = some i ∧ i.op? = some (.push times)

namespace Machine

/-- A loop counter is what is left of a number that the program pushes. -/
def Value.CountedBy (p : Program) : Value → Prop
  | loopCounter remaining => ∃ times, p.Counts times ∧ remaining.toNat ≤ times.toNat
  | _ => True

/-- All loop counters on the stack are what is left of numbers that the program pushes. -/
def Counted (p : Program) (m : Machine) : Prop :=
  ∀ value ∈ m.stack, value.CountedBy p

/-- **Loop counters stay within the numbers that the program pushes.**  A counter that is pushed is
one of these numbers, or what is left of a counter that was on the stack before. -/
theorem Effect.counted {p : Program} {m : Machine} {r : Machine × Outcome} (h : Effect p m r)
    (hm : m.Counted p) : r.1.Counted p := by
  cases h with
  | rests | finishes | refused | fails | acts => exact hm
  | underflows hstack => exact fun value hvalue => hm value (hstack.subset hvalue)
  | @computes site op hexecutes _ popped pushed kept hstack _ _ hcounted =>
    rw [Counted, hstack, List.forall_mem_append] at hm
    refine List.forall_mem_append.2 ⟨fun value hvalue => ?_, hm.2⟩
    have hfrom := hcounted value hvalue
    cases value with
    | returnAddress | boolean | command => trivial
    | loopCounter remaining =>
      rcases hfrom with rfl | ⟨before, hbefore, hle⟩
      · exact ⟨remaining, ⟨m.pc, site, hexecutes.current, hexecutes.op⟩, Nat.le_refl _⟩
      · obtain ⟨times, htimes, hless⟩ := hm.1 _ hbefore
        exact ⟨times, htimes, Nat.le_trans hle hless⟩
  | enters => exact List.forall_mem_cons.2 ⟨trivial, hm⟩
  | leaves _ hstack =>
    rw [Counted, hstack, List.forall_mem_cons] at hm
    exact fun value hvalue => hm.2 value (List.dropWhile_subset _ hvalue)

end Machine

theorem Session.counted {p : Program} {m : Machine} (h : Session p m) : m.Counted p := by
  have hkept : Kept p (Machine.Counted p) fun _ => True :=
    ⟨fun m hm => ⟨(effect_step p m).counted hm, trivial⟩, fun _ hm => ⟨hm, trivial⟩, trivial⟩
  exact h.kept hkept (fun _ _ => List.forall_mem_nil _) fun _ _ hm _ => hm

/-! ## Values on the stacks of a program -/

/-- In a program whose loops all run less than a hundred times nothing looks like a counter. -/
theorem Machine.Value.not_looksLike {p : Program}
    (hcounts : ∀ times, p.Counts times → times.toNat < 100) {v v' : Value}
    (h : v'.CountedBy p) : ¬ v.LooksLike v' := by
  cases v with
  | loopCounter | boolean | command => exact id
  | returnAddress a =>
    cases v' with
    | returnAddress | boolean | command => exact id
    | loopCounter k =>
      obtain ⟨times, htimes, hle⟩ := h
      rintro ⟨hlow, -, -⟩
      have hless := hcounts times htimes
      omega

/-- **Return addresses look like loop counters of three digits, and nothing else looks like
something else.**  So the traces of a program are unambiguous if none of its loops runs a hundred
times. -/
theorem session_entries_alike_iff {source : String} {entry : Option String} {level : Level}
    {p : Program} (h : compile source entry level = .ok p) {m m' : Machine} (hm : Session p m)
    (hm' : Session p m') {v v' : Value} (hv : v ∈ m.stack) (hv' : v' ∈ m'.stack) :
    (v.text = v'.text ↔ v = v' ∨ v.LooksLike v' ∨ v'.LooksLike v) ∧
      ((∀ times, p.Counts times → times.toNat < 100) → v.text = v'.text → v = v') := by
  obtain ⟨script, main, -, -, hcompiles, -⟩ := compiles_of_compile h
  have halike := Value.text_eq_iff (hm.inCode hcompiles v hv) (hm'.inCode hcompiles v' hv')
  refine ⟨halike, fun hcounts htext => ?_⟩
  rcases halike.1 htext with heq | hlike | hlike
  · exact heq
  · exact absurd hlike (Value.not_looksLike hcounts (hm'.counted v' hv'))
  · exact absurd hlike (Value.not_looksLike hcounts (hm.counted v hv))

/-- A command that is called in a loop, at the address whose digits the counter has. -/
def hundredAndOne : String :=
  "void main() \x7b repeat (101) \x7b f(); \x7d \x7d void f() \x7b \x7d"

/-- The return address and the loop counter are both written as 101. -/
theorem session_entries_alike_iff_hundredAndOne :
    ∃ p m, compile hundredAndOne none .recursion = .ok p ∧ Session p m ∧
      m.stack = [.returnAddress 0x101, .loopCounter 101] ∧
      (Value.returnAddress 0x101).text = (Value.loopCounter 101).text := by
  obtain ⟨p, hp, hsteps⟩ := exists_ok_of_any (x := compile hundredAndOne none .recursion)
    (f := fun p => ((Machine.start .start).stepInto p 1 true).any fun r =>
      (r.1.stepInto p 1 true).any fun r' =>
        r'.1.stack == [.returnAddress 0x101, .loopCounter 101])
    (by decide +kernel)
  obtain ⟨⟨m, outcome⟩, hm, hsteps⟩ := (Option.any_eq_true _ _).1 hsteps
  obtain ⟨⟨m', outcome'⟩, hm', hstack⟩ := (Option.any_eq_true _ _).1 hsteps
  have hsession : Session p m' :=
    ((Session.start World.onGrid_start).operate (.stepInto 1 true) hm).operate
      (.stepInto 1 true) hm'
  have hstack : m'.stack = [.returnAddress 0x101, .loopCounter 101] := eq_of_beq hstack
  have hlike : (Value.returnAddress 0x101).LooksLike (.loopCounter 101) := by
    rw [Value.LooksLike]
    decide
  refine ⟨p, m', hp, hsession, hstack, ?_⟩
  exact (session_entries_alike_iff hp hsession hsession (by simp [hstack])
    (by simp [hstack])).1.2 (.inr (.inl hlike))

end KarelRobot
