import KarelRobot.Instruction

/-!
# Words and operations

An operation whose operand fits into twelve bits survives being put into a word: the category and
the operand do not touch each other.  A word that means an operation is the word of that operation,
and of no other one.

* `Op.Fits` — the operand of an operation fits beside its category.
* `Op.decode_encode` — the word of such an operation means that operation.
* `Op.encode_of_decode` — there is no other word that means it.
* `Instruction.retarget_ofOp` — exchanging the operand of an instruction exchanges it in the
  operation.
-/

set_option autoImplicit false
namespace KarelRobot

/-! ## Twelve bits -/

/-- The lower twelve bits of a small word are the word. -/
theorem and_lowBits {x : UInt16} (hx : x < 0x1000) : x &&& 0x0fff = x := by
  apply UInt16.toNat_inj.mp
  rw [UInt16.toNat_and]
  exact Nat.and_two_pow_sub_one_of_lt_two_pow (n := 12) (UInt16.lt_iff_toNat_lt.mp hx)

/-- A small word has no upper bits. -/
theorem and_highBits {x : UInt16} (hx : x < 0x1000) : x &&& 0xf000 = 0 := by
  rw [← and_lowBits hx, UInt16.and_assoc]
  exact UInt16.and_zero

theorem or_and_distrib (a b mask : UInt16) :
    (a ||| b) &&& mask = (a &&& mask) ||| (b &&& mask) := by
  apply UInt16.toNat_inj.mp
  simp only [UInt16.toNat_and, UInt16.toNat_or]
  exact Nat.and_or_distrib_right _ _ _

/-- A category and an operand in one word can be told apart again. -/
theorem category_or {category x : UInt16} (hcategory : category &&& 0xf000 = category)
    (hx : x < 0x1000) :
    (category ||| x) &&& 0xf000 = category ∧ (category ||| x) &&& 0x0fff = x := by
  have hlow : category &&& 0x0fff = 0 := by
    rw [← hcategory, UInt16.and_assoc]
    exact UInt16.and_zero
  constructor
  · rw [or_and_distrib, hcategory, and_highBits hx, UInt16.or_zero]
  · rw [or_and_distrib, hlow, and_lowBits hx, UInt16.zero_or]

/-- A word consists of its category and its operand. -/
theorem category_or_operand (word : UInt16) : (word &&& 0xf000) ||| (word &&& 0x0fff) = word := by
  have hall : (0xf000 ||| 0x0fff : UInt16) = -1 := by decide
  rw [UInt16.and_comm, UInt16.and_comm word, ← or_and_distrib, hall, UInt16.and_comm]
  exact UInt16.and_neg_one

/-! ## Operations -/

theorem Action.ofOpcode?_opcode (which : Action) : Action.ofOpcode? which.opcode = some which := by
  cases which <;> rfl

theorem Action.eq_opcode_of_ofOpcode? {code : UInt16} {which : Action}
    (h : Action.ofOpcode? code = some which) : code = which.opcode := by
  have hcode := List.find?_some h
  exact (eq_of_beq hcode).symm

theorem Predicate.eq_opcode_of_ofOpcode? {code : UInt16} {which : Predicate}
    (h : Predicate.ofOpcode? code = some which) : code = which.opcode := by
  have hcode := List.find?_some h
  exact (eq_of_beq hcode).symm

namespace Op

/-- The operand of an operation that has one. -/
def operand? : Op → Option UInt16
  | pass operand | forward operand | callParameter operand | push operand | loop operand
  | call operand | jump operand | jumpUnless operand | jumpIf operand => some operand
  | ret | action _ | query _ | literal _ | not | and | or => none

/-- The operand of an operation, if it has one, fits into twelve bits. -/
def Fits (op : Op) : Prop :=
  ∀ operand, op.operand? = some operand → operand < 0x1000

instance (op : Op) : Decidable op.Fits :=
  match h : op.operand? with
  | none => .isTrue fun _ ho => by simp [h] at ho
  | some operand =>
    if hlt : operand < 0x1000 then
      .isTrue fun _ ho => by rw [h] at ho; cases ho; exact hlt
    else .isFalse fun hfits => hlt (hfits operand h)

theorem fits_of_none {op : Op} (h : op.operand? = none) : op.Fits := by
  intro x hx
  rw [h] at hx
  cases hx

theorem fits_of_some {op : Op} {x : UInt16} (h : op.operand? = some x) (hx : x < 0x1000) :
    op.Fits := by
  intro y hy
  rw [h] at hy
  cases hy
  exact hx

/-- A word made of a category other than zero and a small operand is decoded by its category. -/
theorem decode_or {category x : UInt16} (hcategory : category &&& 0xf000 = category)
    (hne : category ≠ 0) (hx : x < 0x1000) :
    decode (category ||| x) = ofCategory? category x := by
  obtain ⟨hc, ho⟩ := category_or hcategory hx
  simp only [decode, hc, ho, if_neg hne]

/-- **An operation that fits into a word is what the word means.** -/
theorem decode_encode (op : Op) (hfits : op.Fits) : decode op.encode = some op := by
  cases op with
  | action which => cases which <;> rfl
  | query which => cases which <;> rfl
  | literal value => cases value <;> rfl
  | ret | not | and | or => rfl
  | pass x | forward x | callParameter x | push x | loop x | call x | jump x | jumpUnless x
  | jumpIf x => exact decode_or rfl (by decide) (hfits x rfl)

theorem encode_of_decodePlain {word : UInt16} {op : Op} (h : decodePlain word = some op) :
    op.encode = word := by
  rw [decodePlain] at h
  cases hquery : Predicate.ofOpcode? word <;>
    grind [encode, Action.eq_opcode_of_ofOpcode?, Predicate.eq_opcode_of_ofOpcode?]

theorem encode_of_ofCategory? {category operand : UInt16} {op : Op}
    (h : ofCategory? category operand = some op) : op.encode = category ||| operand := by
  rw [ofCategory?] at h
  grind [encode]

/-- **A word that means an operation is the word of that operation.** -/
theorem encode_of_decode {word : UInt16} {op : Op} (h : decode word = some op) :
    op.encode = word := by
  simp only [decode] at h
  split at h
  · exact encode_of_decodePlain h
  · rw [encode_of_ofCategory? h, category_or_operand]

end Op

namespace Instruction

theorem op?_ofOp {op : Op} (hfits : op.Fits) (position : Nat) :
    (ofOp op position).op? = some op :=
  Op.decode_encode op hfits

/-! The two kinds of instructions that are linked, calls and those that pass a command on, differ in
their category only.  `make` stands for either of them. -/

/-- The operand that an instruction was made with. -/
theorem operand_ofOp {make : UInt16 → Op} {category x : UInt16}
    (hmake : ∀ z, (make z).encode = category ||| z) (hcategory : category &&& 0xf000 = category)
    (hx : x < 0x1000) (position : Nat) : (ofOp (make x) position).operand = x := by
  rw [operand, ofOp, hmake]
  exact (category_or hcategory hx).2

/-- Exchanging the operand of an instruction exchanges the operand of its operation. -/
theorem retarget_ofOp {make : UInt16 → Op} {category x y : UInt16}
    (hmake : ∀ z, (make z).encode = category ||| z) (hcategory : category &&& 0xf000 = category)
    (hx : x < 0x1000) (hy : y < 0x1000) (position : Nat) :
    (ofOp (make x) position).retarget y = ofOp (make y) position := by
  rw [retarget, Instruction.category, ofOp, hmake, (category_or hcategory hx).1, and_lowBits hy,
    ofOp, hmake]

end Instruction
end KarelRobot
