import KarelRobot.Proofs.Layout
import Mathlib.Data.List.Nodup

/-!
# What stands where in a program

The code of every command stands at the address of the command, and where the code mentions a
command its address has taken the place of its number.

* `Program.Holds` — some lines, linked, stand at an address of a program.
* `Program.Assembles` — a program is made of commands with distinct names.
* `Program.Assembles.holds_command` — the code of each of its commands stands at its address.
* `Program.Assembles.get?_argument`, `Program.Assembles.get?_target` — what a name in the code has
  become.
-/

set_option autoImplicit false
namespace KarelRobot

open Assembly

/-! ## Lines in a program -/

namespace Assembly

/-- The addresses by which the program of some commands is linked. -/
def table (commands : List Command) : List (UInt16 × Nat) :=
  addresses (numbering commands) (place (numbering commands) Program.entryPoint commands)

/-- What the code of a command may refer to in the program of some commands. -/
def contextOf (commands : List Command) (c : Command) : Context :=
  ⟨c.parameters, numbering commands⟩

/-- What a name refers to in a command once all commands have their place. -/
def locate (commands : List Command) (c : Command) (name : String) : Reference :=
  match c.parameters.findIdx? fun parameter => parameter.text == name with
  | some index => .parameter (UInt16.ofNat (c.parameters.length - index))
  | none =>
    match Action.ofName? name with
    | some which => .builtin which
    | none => .direct (operand (address commands name))

end Assembly

namespace Program

/-- From the address `start` on, the program consists of these lines, linked. -/
def Holds (p : Program) (commands : List Command) (start : Nat) (ls : List Line) : Prop :=
  ∀ (i : Nat) (l : Line), ls[i]? = some l →
    ∃ instruction, link (table commands) l = .ok instruction ∧
      p.get? (start + i) = some instruction

namespace Holds

variable {p : Program} {commands : List Command} {start : Nat}

theorem append_left {xs ys : List Line} (h : p.Holds commands start (xs ++ ys)) :
    p.Holds commands start xs := by
  intro i l hl
  have hi : i < xs.length := (List.getElem?_eq_some_iff.1 hl).1
  exact h i l (by rw [List.getElem?_append_left hi, hl])

theorem append_right {xs ys : List Line} (h : p.Holds commands start (xs ++ ys)) :
    p.Holds commands (start + xs.length) ys := by
  intro i l hl
  rw [Nat.add_assoc]
  refine h (xs.length + i) l ?_
  rw [List.getElem?_append_right (Nat.le_add_right _ _), Nat.add_sub_cancel_left, hl]

theorem tail {l : Line} {ls : List Line} (h : p.Holds commands start (l :: ls)) :
    p.Holds commands (start + 1) ls := by
  rw [← List.singleton_append] at h
  exact h.append_right

theorem head {l : Line} {ls : List Line} (h : p.Holds commands start (l :: ls)) :
    ∃ instruction, link (table commands) l = .ok instruction ∧ p.get? start = some instruction :=
  h 0 l rfl

/-- A line that is complete stands in the program as it is. -/
theorem get?_of_line {op : Op} {position : Nat} {ls : List Line}
    (h : p.Holds commands start (line op position :: ls)) :
    p.get? start = some (.ofOp op position) := by
  obtain ⟨instruction, hlink, hget⟩ := h.head
  cases hlink
  exact hget

end Holds

/-! ## Programs made of commands -/

/-- A program is too long, or it consists of the linked lines. -/
theorem ofCommands_eq (commands : List Command) :
    ofCommands commands =
      if maxSize < entryPoint + (lines commands).length then
        .error ⟨(commands.head?.map fun c => c.ident.position).getD 0, .programTooLong, none⟩
      else (lines commands).mapM (link (table commands)) >>= fun code => pure (ofCode code) := rfl

theorem length_reserved : reserved.length = entryPoint :=
  List.length_replicate

/-- The code of a program is what stands behind the reserved addresses. -/
theorem code_ofCode (code : List Instruction) : (ofCode code).code = code := by
  rw [Program.code, ofCode, ← length_reserved, List.drop_left]

theorem size_ofCode (code : List Instruction) : (ofCode code).size = entryPoint + code.length := by
  rw [size, ofCode, List.size_toArray, List.length_append, length_reserved]

/-- The program is made of these commands, and their names are distinct. -/
structure Assembles (p : Program) (commands : List Command) : Prop where
  assembled : Program.ofCommands commands = .ok p
  distinct : (commands.map Command.name).Nodup

namespace Assembles

variable {p : Program} {commands : List Command}

/-- An assembled program is short enough, and consists of the linked lines. -/
theorem of_ofCommands (h : Program.ofCommands commands = .ok p) :
    entryPoint + (lines commands).length ≤ maxSize ∧
      ∃ code, (lines commands).mapM (link (table commands)) = .ok code ∧ p = ofCode code := by
  rw [ofCommands_eq] at h
  split at h
  · cases h
  next hsize =>
    rw [bind_eq_ok] at h
    obtain ⟨code, hcode, h⟩ := h
    rw [pure_eq_ok] at h
    exact ⟨Nat.le_of_not_lt hsize, code, hcode, h.symm⟩

theorem get?_ofCode (code : List Instruction) (i : Nat) :
    (ofCode code).get? (entryPoint + i) = code[i]? := by
  simp only [get?, ofCode, List.getElem?_toArray]
  rw [← length_reserved, List.getElem?_append_right (Nat.le_add_right _ _),
    Nat.add_sub_cancel_left]

theorem length_lines_le (h : p.Assembles commands) :
    entryPoint + (lines commands).length ≤ maxSize :=
  (of_ofCommands h.assembled).1

theorem length_numbering_lt (h : p.Assembles commands) : (numbering commands).length < 0x1000 :=
  Assembly.length_numbering_lt h.length_lines_le

theorem holds_lines (h : p.Assembles commands) :
    p.Holds commands entryPoint (lines commands) := by
  obtain ⟨-, code, hcode, rfl⟩ := of_ofCommands h.assembled
  intro i l hl
  obtain ⟨instruction, hlink, hget⟩ := (getElem?_of_mapM_eq_ok hcode).2 i l hl
  exact ⟨instruction, hlink, by rw [get?_ofCode, hget]⟩

/-- A command stands at the address of its name. -/
theorem mem_place (h : p.Assembles commands) {c : Command} (hc : c ∈ commands) :
    (⟨c.name, address commands c.name, c.code (numbering commands) (address commands c.name)⟩ :
      Placed) ∈ place (numbering commands) entryPoint commands := by
  obtain ⟨r, hfind⟩ := exists_find?_place (numbering commands) entryPoint hc
  have hr : r ∈ place (numbering commands) entryPoint commands :=
    List.mem_reverse.1 (List.mem_of_find?_eq_some hfind)
  have hrname : r.name = c.name := by simpa using List.find?_some hfind
  obtain ⟨d, hd, hrd⟩ := Assembly.mem_place hr
  have hdc : d = c := by
    rw [hrd] at hrname
    exact List.inj_on_of_nodup_map h.distinct hd hc hrname
  have haddress : address commands c.name = r.start := by
    rw [address, hfind]
    rfl
  rw [haddress, ← hdc, ← hrd]
  exact hr

/-- **The code of every command stands at its address.** -/
theorem holds_command (h : p.Assembles commands) {c : Command} (hc : c ∈ commands) :
    p.Holds commands (address commands c.name)
      (c.code (numbering commands) (address commands c.name)) := by
  obtain ⟨before, behind, hcode, hstart⟩ := place_split (h.mem_place hc)
  have hholds := h.holds_lines
  rw [lines, hcode] at hholds
  have hright := hholds.append_left.append_right
  rw [← hstart] at hright
  exact hright

/-- A command starts behind the reserved addresses and ends before the addresses end. -/
theorem address_bounds (h : p.Assembles commands) {c : Command} (hc : c ∈ commands) :
    entryPoint ≤ address commands c.name ∧
      address commands c.name + (Statement.block c.body).size < maxSize := by
  obtain ⟨before, behind, hcode, hstart⟩ := place_split (h.mem_place hc)
  have hsize := h.length_lines_le
  rw [lines, hcode, List.length_append, List.length_append] at hsize
  simp only [Command.length_code] at hstart hsize
  omega

/-- Commands at the same address are the same. -/
theorem address_inj (h : p.Assembles commands) {c d : Command} (hc : c ∈ commands)
    (hd : d ∈ commands) (haddress : address commands c.name = address commands d.name) :
    c = d := by
  have hplaced := List.inj_on_of_nodup_map (nodup_start_place (numbering commands) entryPoint
    commands) (h.mem_place hc) (h.mem_place hd) haddress
  exact List.inj_on_of_nodup_map h.distinct hc hd (congrArg Placed.name hplaced)

/-- The first command is where the program starts. -/
theorem address_first (h : p.Assembles commands) {c : Command} {following : List Command}
    (hcommands : commands = c :: following) : address commands c.name = entryPoint := by
  have hmem := h.mem_place (c := c) (by rw [hcommands]; exact List.mem_cons_self)
  have hnodup := h.distinct
  rw [← map_name_place (numbering commands) entryPoint] at hnodup
  have hfirst : (⟨c.name, entryPoint, c.code (numbering commands) entryPoint⟩ : Placed) ∈
      place (numbering commands) entryPoint commands := by
    generalize numbering commands = names
    rw [hcommands, place]
    exact List.mem_cons_self
  exact congrArg Placed.start (List.inj_on_of_nodup_map hnodup hmem hfirst rfl)

theorem operand_address_lt (h : p.Assembles commands) {c : Command} (hc : c ∈ commands) :
    operand (address commands c.name) < 0x1000 :=
  operand_lt (Nat.lt_of_le_of_lt (Nat.le_add_right _ _) (h.address_bounds hc).2)

/-! ### Names in the code -/

/-- Linking finds the number of a name only if a command has that name, and then its address. -/
theorem lookup_table (h : p.Assembles commands) {name : String} {a : Nat}
    (hlookup : (table commands).lookup (number (numbering commands) name) = some a) :
    a = address commands name ∧ ∃ c ∈ commands, c.name = name := by
  rw [table, lookup_addresses h.length_numbering_lt fun _ => name_mem_of_mem_place] at hlookup
  refine ⟨by rw [address, hlookup]; rfl, ?_⟩
  obtain ⟨q, hfind, -⟩ := Option.map_eq_some_iff.1 hlookup
  have hq := List.mem_reverse.1 (List.mem_of_find?_eq_some hfind)
  have hname : q.name = name := by simpa using List.find?_some hfind
  obtain ⟨c, hc, hqc⟩ := Assembly.mem_place hq
  exact ⟨c, hc, by rw [← hname, hqc]⟩

/-- Linking replaces the number of a command by its address. -/
theorem link_pending (h : p.Assembles commands) {make : UInt16 → Op} {category : UInt16}
    (hmake : ∀ z, (make z).encode = category ||| z) (hcategory : category &&& 0xf000 = category)
    {name : String} {position : Nat} {instruction : Instruction}
    (hlink : link (table commands)
      ⟨.ofOp (make (number (numbering commands) name)) position, true⟩ = .ok instruction) :
    instruction = .ofOp (make (operand (address commands name))) position ∧
      ∃ c ∈ commands, c.name = name := by
  have hnumber := number_lt h.length_numbering_lt name
  simp only [link, if_true, Instruction.operand_ofOp hmake hcategory hnumber] at hlink
  split at hlink
  next a hlookup =>
    obtain ⟨rfl, c, hc, rfl⟩ := h.lookup_table hlookup
    rw [Instruction.retarget_ofOp hmake hcategory hnumber (h.operand_address_lt hc)] at hlink
    cases hlink
    exact ⟨rfl, c, hc, rfl⟩
  · cases hlink

/-- Linking the instruction that a reference stands for, be it a call or not, gives the one that
the place of the reference stands for.  `use` is `Reference.callOp` or `Reference.argumentOp`. -/
theorem link_reference (h : p.Assembles commands) {use : Reference → Op} {make : UInt16 → Op}
    {category : UInt16} (huse : ∀ z, use (.direct z) = make z)
    (hmake : ∀ z, (make z).encode = category ||| z) (hcategory : category &&& 0xf000 = category)
    (c : Command) {name : String} {position : Nat} {instruction : Instruction}
    (hlink : link (table commands)
      ⟨.ofOp (use ((contextOf commands c).resolve name)) position,
        ((contextOf commands c).resolve name).isPending⟩ = .ok instruction) :
    instruction = .ofOp (use (locate commands c name)) position ∧
      ∀ z, locate commands c name = .direct z → ∃ d ∈ commands, d.name = name := by
  simp only [Context.resolve, contextOf, locate] at hlink ⊢
  cases hparameter : c.parameters.findIdx? fun parameter => parameter.text == name with
  | some index =>
    simp only [hparameter] at hlink ⊢
    cases hlink
    exact ⟨rfl, fun z hz => by cases hz⟩
  | none =>
    simp only [hparameter] at hlink ⊢
    cases hbuiltin : Action.ofName? name with
    | some which =>
      simp only [hbuiltin] at hlink ⊢
      cases hlink
      exact ⟨rfl, fun z hz => by cases hz⟩
    | none =>
      simp only [hbuiltin, huse] at hlink ⊢
      obtain ⟨rfl, hmem⟩ := h.link_pending hmake hcategory hlink
      exact ⟨rfl, fun _ _ => hmem⟩

/-- What stands where the code passes a name on. -/
theorem get?_argument (h : p.Assembles commands) {c : Command} {argument : Ident} {start : Nat}
    {ls : List Line}
    (hholds : p.Holds commands start ((contextOf commands c).argument argument :: ls)) :
    p.get? start =
        some (.ofOp (locate commands c argument.text).argumentOp argument.position) ∧
      ∀ z, locate commands c argument.text = .direct z →
        ∃ d ∈ commands, d.name = argument.text := by
  obtain ⟨instruction, hlink, hget⟩ := hholds.head
  have huse : ∀ z, (Reference.direct z).argumentOp = .pass z := fun _ => rfl
  obtain ⟨rfl, hmem⟩ := h.link_reference huse (fun _ => rfl) rfl c hlink
  exact ⟨hget, hmem⟩

/-- What stands behind the arguments of a call. -/
theorem get?_target (h : p.Assembles commands) {c : Command} {call : Call} {start : Nat}
    (hholds : p.Holds commands start ((contextOf commands c).call call)) :
    p.get? (start + call.arguments.length) =
        some (.ofOp (locate commands c call.target.text).callOp call.target.position) ∧
      ∀ z, locate commands c call.target.text = .direct z →
        ∃ d ∈ commands, d.name = call.target.text := by
  have hright := hholds.append_right
  rw [List.length_map] at hright
  obtain ⟨instruction, hlink, hget⟩ := hright.head
  have huse : ∀ z, (Reference.direct z).callOp = .call z := fun _ => rfl
  obtain ⟨rfl, hmem⟩ := h.link_reference huse (fun _ => rfl) rfl c hlink
  exact ⟨hget, hmem⟩

end Assembles
end Program
end KarelRobot
