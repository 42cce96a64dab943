import KarelRobot.Program
import KarelRobot.Proofs.Encoding
import KarelRobot.Proofs.Lines
import KarelRobot.Proofs.Numerals

/-!
# Reading a listing back

A listing has a line for each instruction: its address, a colon and the instruction in letters.  The
letters name one operation, and one word if there is no operation, so a listing can be read back
line by line, however long the addresses get.

* `Op.ofMnemonic?` — the operation that some letters name.
* `Instruction.readMnemonic?` — the word that they stand for.
* `Program.readListing?` — the words of a listing, `Program.readListing?_listing` that they are
  those of the program.
* `listing_eq_iff` — a listing loses no instruction.
-/

set_option autoImplicit false
namespace KarelRobot

open Text (hexPadded hexValue isHexDigit)

/-! ## Mnemonics -/

namespace Op

/-- The operations without an operand. -/
def plain : List Op :=
  [ret, literal false, literal true, not, and, or] ++ Action.all.map action ++
    Predicate.all.map query

/-- The operations with an operand, and what stands in front of the operand. -/
def withOperand : List (String × (UInt16 → Op)) :=
  [("PASS ", pass), ("FWRD ", forward), ("CALP ", callParameter), ("PUSH ", push),
    ("LOOP ", loop), ("CALL ", call), ("JUMP ", jump), ("ELSE ", jumpUnless), ("THEN ", jumpIf)]

/-- The operation that a text names. -/
def ofMnemonic? (text : List Char) : Option Op :=
  match withOperand.lookup (String.ofList (text.take 5)) with
  | some make => some (make (UInt16.ofNat (hexValue (text.drop 5))))
  | none => plain.find? fun op => op.mnemonic.toList == text

theorem ofMnemonic?_withOperand {lead : String} {make : UInt16 → Op} (x : UInt16)
    (hlength : lead.length = 5) (hmake : withOperand.lookup lead = some make) :
    ofMnemonic? (lead ++ hexPadded 3 x.toNat).toList = some (make x) := by
  rw [← String.length_toList] at hlength
  rw [ofMnemonic?, String.toList_append, List.take_left' hlength, List.drop_left' hlength,
    String.ofList_toList, hmake, Text.hexValue_hexPadded, UInt16.ofNat_toNat]

/-- **A mnemonic names its operation.** -/
theorem ofMnemonic?_mnemonic (op : Op) : ofMnemonic? op.mnemonic.toList = some op := by
  cases op with
  | ret | not | and | or => decide +kernel
  | literal value => cases value <;> decide +kernel
  | action which => cases which <;> decide +kernel
  | query which => cases which <;> decide +kernel
  | pass x | forward x | callParameter x | push x | loop x | call x | jump x | jumpUnless x
  | jumpIf x => exact ofMnemonic?_withOperand x rfl rfl

/-- The characters that mnemonics of operations consist of. -/
def isMnemonicChar (c : Char) : Bool :=
  c.isUpper || isHexDigit c || c == ' '

theorem all_mnemonic (op : Op) : op.mnemonic.toList.all isMnemonicChar = true := by
  have hoperand {lead : String} {n : Nat} (hlead : lead.toList.all isMnemonicChar = true) :
      (lead ++ hexPadded 3 n).toList.all isMnemonicChar = true := by
    rw [String.toList_append, List.all_append, hlead, Bool.true_and, List.all_eq_true]
    intro c hc
    simp [isMnemonicChar, Text.isHexDigit_of_mem_hexPadded hc]
  cases op with
  | ret | not | and | or => decide +kernel
  | literal value => cases value <;> decide +kernel
  | action which => cases which <;> decide +kernel
  | query which => cases which <;> decide +kernel
  | pass x | forward x | callParameter x | push x | loop x | call x | jump x | jumpUnless x
  | jumpIf x => exact hoperand (by decide +kernel)

end Op

namespace Instruction

/-- The word that a text stands for: that of the operation it names, or the digits behind a question
mark. -/
def readMnemonic? : List Char → Option UInt16
  | '?' :: digits => some (UInt16.ofNat (hexValue digits))
  | text => (Op.ofMnemonic? text).map Op.encode

theorem toList_mnemonic_of_none {i : Instruction} (h : i.op? = none) :
    i.mnemonic.toList = '?' :: (hexPadded 4 i.bytecode.toNat).toList := by
  rw [mnemonic, h, String.toList_append]
  rfl

/-- **A mnemonic stands for its word,** also if that means no operation. -/
theorem readMnemonic?_mnemonic (i : Instruction) :
    readMnemonic? i.mnemonic.toList = some i.bytecode := by
  cases hop : i.op? with
  | none =>
    rw [toList_mnemonic_of_none hop, readMnemonic?, Text.hexValue_hexPadded, UInt16.ofNat_toNat]
  | some op =>
    have hmnemonic : i.mnemonic = op.mnemonic := by rw [mnemonic, hop]
    have hmark (digits : List Char) : op.mnemonic.toList ≠ '?' :: digits := by
      intro heq
      have hchar := List.all_eq_true.1 op.all_mnemonic '?' (by rw [heq]; exact List.mem_cons_self)
      exact absurd hchar (by decide)
    rw [hmnemonic, readMnemonic?.eq_2 _ hmark, Op.ofMnemonic?_mnemonic, Option.map_some,
      Op.encode_of_decode hop]

/-- A mnemonic stays in its line. -/
theorem ne_of_mem_mnemonic {i : Instruction} {c : Char} (h : c ∈ i.mnemonic.toList) :
    c ≠ '\n' ∧ c ≠ '\r' := by
  have hchar : c = '?' ∨ Op.isMnemonicChar c = true := by
    cases hop : i.op? with
    | none =>
      rw [toList_mnemonic_of_none hop, List.mem_cons] at h
      exact h.imp_right fun hdigit => by
        simp [Op.isMnemonicChar, Text.isHexDigit_of_mem_hexPadded hdigit]
    | some op =>
      rw [mnemonic, hop] at h
      exact .inr (List.all_eq_true.1 op.all_mnemonic c h)
  constructor <;> rintro rfl <;> exact absurd hchar (by decide)

end Instruction

/-! ## Listings -/

namespace Program

/-- The word in a line of a listing, which stands behind an address, a colon and a blank. -/
def readLine? (line : List Char) : Option UInt16 :=
  Instruction.readMnemonic? ((line.dropWhile (· ≠ ':')).drop 2)

/-- The words of a listing. -/
def readListing? (text : String) : Option (List UInt16) :=
  (Text.lines text).mapM fun line => readLine? line.toList

/-- The line for an instruction, without its end. -/
theorem toList_listingLine (address : Nat) (i : Instruction) :
    (listingLine address i).toList =
      (hexPadded 3 address).toList ++ ':' :: ' ' :: i.mnemonic.toList ++ ['\n'] := by
  simp [listingLine]

theorem readLine?_line (address : Nat) (i : Instruction) :
    readLine? ((hexPadded 3 address).toList ++ ':' :: ' ' :: i.mnemonic.toList) =
      some i.bytecode := by
  have haddress : ∀ c ∈ (hexPadded 3 address).toList, decide (c ≠ ':') = true := by
    intro c hc
    have hdigit := Text.isHexDigit_of_mem_hexPadded hc
    refine decide_eq_true fun hcolon => absurd hdigit ?_
    rw [hcolon]
    decide
  rw [readLine?, List.dropWhile_append_of_pos haddress]
  exact i.readMnemonic?_mnemonic

/-- A line of a listing has no end inside it. -/
theorem notMem_line (address : Nat) (i : Instruction) {c : Char} (hc : c = '\n' ∨ c = '\r') :
    c ∉ (hexPadded 3 address).toList ++ ':' :: ' ' :: i.mnemonic.toList := by
  intro hmem
  simp only [List.mem_append, List.mem_cons] at hmem
  rcases hmem with hmem | rfl | rfl | hmem
  · have hdigit := Text.isHexDigit_of_mem_hexPadded hmem
    rcases hc with rfl | rfl <;> exact absurd hdigit (by decide)
  · exact absurd hc (by decide)
  · exact absurd hc (by decide)
  · obtain ⟨hlineFeed, hreturn⟩ := Instruction.ne_of_mem_mnemonic hmem
    exact hc.elim hlineFeed hreturn

/-- Line by line the words of some instructions can be read back. -/
theorem mapM_readLine? (address : Nat) (code : List Instruction) :
    (Text.linesFrom [] (String.join (listingLines address code)).toList).mapM readLine? =
      some (code.map Instruction.bytecode) := by
  induction code generalizing address with
  | nil => rfl
  | cons i following ih =>
    have hline := notMem_line address i (.inl rfl)
    have hchop := Text.chop_of_notMem (notMem_line address i (.inr rfl))
    rw [listingLines, String.join_cons, String.toList_append, toList_listingLine, List.append_assoc,
      List.singleton_append, Text.linesFrom_line hline, hchop, List.mapM_cons, readLine?_line, ih]
    rfl

/-- **A listing can be read back.** -/
theorem readListing?_listing (p : Program) :
    readListing? p.listing = some (p.code.map Instruction.bytecode) := by
  rw [readListing?, Text.lines, List.mapM_map]
  simp only [Function.comp_def, String.toList_ofList]
  exact mapM_readLine? entryPoint p.code

/-- The positions of the source are not listed. -/
theorem listingLines_map (address : Nat) (code : List Instruction) :
    listingLines address ((code.map Instruction.bytecode).map fun word => ⟨word, none⟩) =
      listingLines address code := by
  induction code generalizing address with
  | nil => rfl
  | cons i following ih =>
    rw [List.map_cons, List.map_cons, listingLines, ih]
    rfl

end Program

/-- **A listing loses no instruction.**  Two programs have the same listing just if the same words
stand behind their reserved addresses, be they operations or not. -/
theorem listing_eq_iff (p q : Program) :
    p.listing = q.listing ↔ p.code.map Instruction.bytecode = q.code.map Instruction.bytecode := by
  constructor
  · intro h
    have hread := q.readListing?_listing
    rw [← h, p.readListing?_listing] at hread
    exact Option.some.inj hread
  · intro h
    rw [Program.listing, Program.listing, ← Program.listingLines_map, h, Program.listingLines_map]

end KarelRobot
