import Duet.Proofs.CompilerSessions
import Duet.Proofs.WellFormedBlocks
import Mathlib.Algebra.Group.Nat.Defs

/-!
# A block as a buffer and as instructions

A block grows by opcodes with lists of operands, and its bytes are overwritten and cut without a
look at where instructions begin. Read from its start, it is a list of instructions again. Here the
two views are brought together.

* `Opcode.Fits`: the operands are as many as the opcode takes and each fits its slot. Opcodes with
  such operands are the same as instructions (`Opcode.parts_instr`).
* `pushAll_parts`: pushing the instructions of a list gives the block of that list, and the offsets
  at which they start.
* `patch?_ofInstrs` and `truncate_ofInstrs`: an edit at a boundary is an edit of the list.

Offsets are not kept in the block. That reading stays on the boundaries after an edit, also where
operand bytes are those of opcodes, comes from the fact that an edited block is the block of a list.
-/

namespace Duet

/-! ## Opcodes with operands -/

/-- There is one operand for each slot, and it fits. -/
def Opcode.Fits (op : Opcode) (operands : List Nat) : Prop :=
  operands.length = op.operandWidths.length ∧
    ∀ p ∈ operands.zip op.operandWidths, p.1 < 256 ^ p.2

instance (op : Opcode) (operands : List Nat) : Decidable (op.Fits operands) :=
  inferInstanceAs (Decidable (_ ∧ _))

/-- The opcode and the operands of an instruction. -/
def Instr.parts (i : Instr) : Opcode × List Nat :=
  (i.opcode, i.operand?.toList)

/-- The instruction with the given opcode, and with the given operand if it takes one. -/
def Opcode.instr (op : Opcode) (operand : Nat) : Instr :=
  match op with
  | .constant => .constant operand.toUInt8
  | .add => .arith .add
  | .sub => .arith .subtract
  | .mul => .arith .multiply
  | .div => .arith .divide
  | .pop => .pop
  | .true_ => .boolean true
  | .false_ => .boolean false
  | .equal => .equal
  | .notEqual => .notEqual
  | .greaterThan => .arith .greaterThan
  | .lessThan => .arith .lessThan
  | .not => .not
  | .negate => .negate
  | .jumpIfNotTrue => .jumpIfNotTrue operand.toUInt16
  | .nil => .nil
  | .jump => .jump operand.toUInt16
  | .modulo => .arith .modulo
  | .setGlobal => .setGlobal operand.toUInt8
  | .getGlobal => .getGlobal operand.toUInt8
  | .call => .call
  | .return_ => .return_
  | .getLocal => .getLocal operand.toUInt8

namespace Opcode

/-- The instruction made for an opcode has this opcode. -/
theorem opcode_instr (op : Opcode) (operand : Nat) : (op.instr operand).opcode = op := by
  cases op <;> rfl

/-- The instruction made for an operand holds as much of it as fits into the width. -/
theorem operand?_instr (op : Opcode) (operand : Nat) :
    (op.instr operand).operand? = op.operandWidths.head?.map (operand % 256 ^ ·) := by
  cases op <;> simp [instr, Instr.operand?, operandWidths]

/-- No opcode takes more than one operand. -/
theorem length_operandWidths_le (op : Opcode) : op.operandWidths.length ≤ 1 := by
  cases op <;> decide

/-- An opcode with operands that fit is an instruction. -/
theorem parts_instr {op : Opcode} {operands : List Nat} (h : op.Fits operands) :
    (op.instr (operands.headD 0)).parts = (op, operands) := by
  obtain ⟨hlength, hslots⟩ := h
  have hone := op.length_operandWidths_le
  rw [Instr.parts, opcode_instr, operand?_instr]
  cases hwidths : op.operandWidths with
  | nil =>
    rw [hwidths] at hlength
    obtain rfl := List.length_eq_zero_iff.mp hlength
    rfl
  | cons width widths =>
    rw [hwidths] at hlength hone hslots
    obtain rfl : widths = [] := List.length_eq_zero_iff.mp (by simpa using hone)
    obtain ⟨operand, rfl⟩ := List.length_eq_one_iff.mp hlength
    have hlt : operand < 256 ^ width := hslots (operand, width) (by simp)
    simp [Nat.mod_eq_of_lt hlt]

end Opcode

/-- Opcodes with operands that fit are the parts of instructions. -/
theorem exists_map_parts_eq {parts : List (Opcode × List Nat)} (h : ∀ p ∈ parts, p.1.Fits p.2) :
    ∃ is : List Instr, is.map Instr.parts = parts := by
  refine ⟨parts.map fun p => p.1.instr (p.2.headD 0), ?_⟩
  rw [List.map_map]
  calc parts.map (Instr.parts ∘ fun p => p.1.instr (p.2.headD 0))
    _ = parts.map id := List.map_congr_left fun p hp => Opcode.parts_instr (h p hp)
    _ = parts := List.map_id parts

/-- The bytes of an instruction are assembled from its parts. -/
theorem Instr.assemble_parts (i : Instr) : i.parts.1.assemble i.parts.2 = i.encode := by
  cases i with
  | boolean b => cases b <;> rfl
  | arith op => cases op <;> rfl
  | constant n | setGlobal n | getGlobal n | getLocal n =>
    simp [parts, opcode, operand?, Opcode.assemble, Opcode.operandWidths, encode]
  | jump t | jumpIfNotTrue t =>
    simp [parts, opcode, operand?, Opcode.assemble, Opcode.operandWidths, encode]
  | _ => rfl

namespace Code

/-! ## Pushing -/

/-- The block with several instructions pushed one after the other, and the offsets at which they
start. -/
def pushAll (c : Code) : List (Opcode × List Nat) → Code × List Nat
  | [] => (c, [])
  | (op, operands) :: parts =>
    let (c', offsets) := (c.push op operands).pushAll parts
    (c', c.size :: offsets)

/-- Pushing the parts of an instruction onto an encoded block appends the instruction. -/
theorem push_ofInstrs (is : List Instr) (i : Instr) :
    (ofInstrs is).push i.parts.1 i.parts.2 = ofInstrs (is ++ [i]) := by
  apply eq_ofInstrs
  unfold push
  rw [Array.toList_appendList, i.assemble_parts, List.flatMap_append, List.flatMap_singleton]
  rfl

/-- Pushing the parts of instructions one after the other appends them all, and returns the offsets
at which they are placed. -/
theorem pushAll_parts (front is : List Instr) :
    (ofInstrs front).pushAll (is.map Instr.parts) =
      (ofInstrs (front ++ is), (placedFrom (codeSize front) is).map Prod.fst) := by
  induction is generalizing front with
  | nil => rw [List.append_nil]; rfl
  | cons i is ih =>
    have hrest := ih (front ++ [i])
    rw [List.append_assoc, List.singleton_append, codeSize_append, codeSize_cons, codeSize_nil,
      Nat.add_zero] at hrest
    rw [List.map_cons, pushAll, push_ofInstrs, hrest, size_ofInstrs]
    rfl

/-- Each instruction starts where those before it end. -/
theorem offsets_eq_scanl (offset : Nat) (is : List Instr) :
    (placedFrom offset is).map Prod.fst ++ [offset + codeSize is] =
      (is.map Instr.parts).scanl (fun o p => o + p.1.size) offset := by
  induction is generalizing offset with
  | nil => rfl
  | cons i is ih =>
    rw [placedFrom, List.map_cons, List.map_cons, List.scanl_cons, List.cons_append, codeSize_cons,
      ← Nat.add_assoc, ih]
    show _ = _ :: (is.map Instr.parts).scanl _ (offset + i.opcode.size)
    rw [i.size_opcode]

/-- The offset of an instruction of a list is the boundary in front of it. -/
theorem exists_split_of_offset {is : List Instr} {offset o k : Nat}
    (h : ((placedFrom offset is).map Prod.fst)[k]? = some o) :
    ∃ pre i post, is = pre ++ i :: post ∧ pre.length = k ∧ o = offset + codeSize pre := by
  induction is generalizing offset k with
  | nil => simp [placedFrom] at h
  | cons i is ih =>
    cases k with
    | zero =>
      obtain rfl : offset = o := by simpa [placedFrom] using h
      exact ⟨[], i, is, rfl, rfl, rfl⟩
    | succ k =>
      obtain ⟨pre, j, post, rfl, rfl, rfl⟩ := ih (by simpa [placedFrom] using h)
      exact ⟨i :: pre, j, post, rfl, rfl, by rw [codeSize_cons, Nat.add_assoc]⟩

/-! ## Overwriting and cutting -/

/-- Overwriting at the offset of a jump gives that jump another target. -/
theorem patch?_ofInstrs {op : Opcode} {jump : UInt16 → Instr} (hjump : IsJump op jump)
    (pre post : List Instr) (t w : UInt16) :
    (ofInstrs (pre ++ jump t :: post)).patch? (codeSize pre) w =
      some (ofInstrs (pre ++ jump w :: post)) := by
  have hbytes : (ofInstrs (pre ++ jump t :: post)).bytes.toList = pre.flatMap Instr.encode ++
      op.byte :: (t >>> 8).toUInt8 :: t.toUInt8 :: post.flatMap Instr.encode := by
    simp [ofInstrs, hjump.encode, Instr.wordBytes]
  obtain ⟨c', hpatch, hc'⟩ := patch?_eq_some hbytes w
  rw [length_flatMap_encode] at hpatch
  rw [hpatch, Option.some_inj]
  apply eq_ofInstrs
  rw [hc']
  simp [hjump.encode]

/-- Cutting at a boundary keeps the instructions before it. -/
theorem truncate_ofInstrs (pre post : List Instr) :
    (ofInstrs (pre ++ post)).truncate (codeSize pre) = ofInstrs pre := by
  apply eq_ofInstrs
  rw [← length_flatMap_encode]
  simp [truncate, ofInstrs]

/-- The instructions of a block by their opcodes and operands. -/
def decodeParts? (c : Code) : Option (List (Opcode × List Nat)) :=
  c.decode?.map (List.map Instr.parts)

/-- An encoded block is decoded to the parts of its instructions. -/
theorem decodeParts?_ofInstrs (is : List Instr) :
    (ofInstrs is).decodeParts? = some (is.map Instr.parts) := by
  rw [decodeParts?, decode?_ofInstrs]
  rfl

/-- An instruction with the opcode of a jump has a target, and only that. -/
theorem exists_isJump {i : Instr} (h : i.opcode = .jump ∨ i.opcode = .jumpIfNotTrue) :
    ∃ jump t, IsJump i.opcode jump ∧ (∀ w, (jump w).operand? = some w.toNat) ∧ i = jump t := by
  cases i with
  | jump t => exact ⟨.jump, t, isJump_jump, fun _ => rfl, rfl⟩
  | jumpIfNotTrue t => exact ⟨.jumpIfNotTrue, t, isJump_jumpIfNotTrue, fun _ => rfl, rfl⟩
  | boolean b => cases b <;> simp [Instr.opcode] at h
  | arith op => cases op <;> simp [Instr.opcode, ArithOp.opcode] at h
  | _ => simp [Instr.opcode] at h

/-- Overwriting at the offset of a jump keeps the length and the parts of all other instructions. -/
theorem exists_patch?_of_opcode {i : Instr} (h : i.opcode = .jump ∨ i.opcode = .jumpIfNotTrue)
    (pre post : List Instr) (w : UInt16) :
    ∃ c', (ofInstrs (pre ++ i :: post)).patch? (codeSize pre) w = some c' ∧
      c'.size = (ofInstrs (pre ++ i :: post)).size ∧
      c'.decodeParts? =
        some (pre.map Instr.parts ++ (i.opcode, [w.toNat]) :: post.map Instr.parts) := by
  obtain ⟨jump, t, hjump, hoperand, rfl⟩ := exists_isJump h
  have hsize (v : UInt16) : (jump v).size = 3 := by
    rw [← Instr.length_encode, hjump.encode]
    rfl
  refine ⟨_, patch?_ofInstrs hjump pre post t w, ?_, ?_⟩
  · simp only [size_ofInstrs, codeSize_append, codeSize_cons, hsize]
  · rw [decodeParts?_ofInstrs, List.map_append, List.map_cons, Instr.parts, hjump.opcode w,
      hoperand w, Option.toList_some]

/-- **Encoding can be undone, and edits are local.** Instructions whose operands fit are pushed at the
sums of the sizes before them. Read from its start, the block has exactly these instructions. With the
operand of a jump overwritten it is as long as before and has this jump with the new operand, and all
others as they were. Cut at the offset of an instruction, it has exactly those before that one. -/
theorem pushAll_roundTrip {parts : List (Opcode × List Nat)} (hfits : ∀ p ∈ parts, p.1.Fits p.2) :
    ∃ c offsets, empty.pushAll parts = (c, offsets) ∧
      offsets ++ [c.size] = parts.scanl (fun o p => o + p.1.size) 0 ∧
      c.decodeParts? = some parts ∧
      (∀ k o op operands, offsets[k]? = some o → parts[k]? = some (op, operands) →
        op = .jump ∨ op = .jumpIfNotTrue → ∀ w : UInt16, ∃ c', c.patch? o w = some c' ∧
          c'.size = c.size ∧ c'.decodeParts? = some (parts.set k (op, [w.toNat]))) ∧
      (∀ k o, offsets[k]? = some o → (c.truncate o).decodeParts? = some (parts.take k)) := by
  obtain ⟨is, rfl⟩ := exists_map_parts_eq hfits
  refine ⟨ofInstrs is, (placedFrom 0 is).map Prod.fst, pushAll_parts [] is, ?_,
    decodeParts?_ofInstrs is, ?_, ?_⟩
  · have hoffsets := offsets_eq_scanl 0 is
    rwa [Nat.zero_add, ← size_ofInstrs] at hoffsets
  · intro k o op operands hoffset hpart hop w
    obtain ⟨pre, i, post, rfl, rfl, rfl⟩ := exists_split_of_offset hoffset
    obtain ⟨rfl, -⟩ : i.opcode = op ∧ i.operand?.toList = operands := by
      simpa [Instr.parts] using hpart
    obtain ⟨c', hpatch, hsize, hdecode⟩ := exists_patch?_of_opcode hop pre post w
    refine ⟨c', by rwa [Nat.zero_add], hsize, ?_⟩
    rw [hdecode]
    simp
  · intro k o hoffset
    obtain ⟨pre, i, post, rfl, rfl, rfl⟩ := exists_split_of_offset hoffset
    rw [Nat.zero_add, truncate_ofInstrs, decodeParts?_ofInstrs]
    simp

/-- Instructions whose operand bytes are those of opcodes. -/
def disguisedParts : List (Opcode × List Nat) :=
  [(.constant, [16]), (.jump, [0x0e10]), (.jumpIfNotTrue, [0x1000]), (.pop, [])]

/-- The second jump of `disguisedParts` gets two bytes that are both the opcode of a call. -/
theorem pushAll_roundTrip_disguisedParts :
    (∀ p ∈ disguisedParts, p.1.Fits p.2) ∧
    ∃ c, empty.pushAll disguisedParts = (c, [0, 2, 5, 8]) ∧ c.size = 9 ∧
      c.decodeParts? = some disguisedParts ∧
      (∃ c', c.patch? 5 0x1414 = some c' ∧ c'.size = 9 ∧ c'.decodeParts? =
        some [(.constant, [16]), (.jump, [0x0e10]), (.jumpIfNotTrue, [0x1414]), (.pop, [])]) ∧
      (c.truncate 5).decodeParts? = some [(.constant, [16]), (.jump, [0x0e10])] := by
  have hfits : ∀ p ∈ disguisedParts, p.1.Fits p.2 := by decide
  obtain ⟨c, offsets, hpush, hoffsets, hdecode, hpatch, htruncate⟩ := pushAll_roundTrip hfits
  obtain ⟨rfl, hsize⟩ : offsets = [0, 2, 5, 8] ∧ [c.size] = [9] :=
    List.append_inj' hoffsets rfl
  have hsize : c.size = 9 := List.singleton_inj.mp hsize
  refine ⟨hfits, c, hpush, hsize, hdecode, ?_, htruncate 2 5 rfl⟩
  rw [← hsize]
  exact hpatch 2 5 .jumpIfNotTrue [0x1000] rfl rfl (.inr rfl) 0x1414

end Code

end Duet
