import Duet.Bytecode.Listing
import Duet.Proofs.InstructionBuffers

/-!
# Reading any block from its start

A block need not be instructions one after the other: a byte may name no opcode, and the last
instruction may lack operand bytes. Still, from its start on a block is a sequence of *items* in one
way only, and every item takes at least one byte.

* `Reading`: the sequences of items that can stand in a block. A byte that names no opcode is an
  item for itself, and an instruction that is cut off is the last item.
* `existsUnique_reading`: every sequence of bytes is made of the items of exactly one reading.
* `fetch_of_reading`: what is fetched where an item starts is that item. All that is computed by
  fetching one instruction after the other is computed from the reading: the lines of a listing
  (`lines_eq`) and the instructions of a block (`eq_map_instr_of_decodeFrom?`).
-/

namespace Duet

/-- The opcode that a byte stands for has this byte. -/
theorem Opcode.byte_of_ofByte? {byte : UInt8} {op : Opcode} (h : ofByte? byte = some op) :
    op.byte = byte := by
  unfold ofByte? at h
  split at h <;> cases h <;> rfl

/-- An opcode has no operand, or one of a byte, or one of two bytes. -/
theorem Opcode.operandWidths_cases (op : Opcode) :
    op.operandWidths = [] ∨ op.operandWidths = [1] ∨ op.operandWidths = [2] := by
  cases op <;> simp [operandWidths]

/-- An opcode with operands that fit is the encoding of an instruction. -/
theorem Opcode.encode_instr {op : Opcode} {operands : List Nat} (h : op.Fits operands) :
    (op.instr (operands.headD 0)).encode = op.assemble operands := by
  rw [← Instr.assemble_parts, parts_instr h]

/-- Any two bytes are those of a word. -/
theorem Instr.wordBytes_of_bytes (high low : UInt8) :
    wordBytes (256 * high.toUInt16 + low.toUInt16) = [high, low] := by
  have hhigh := high.toNat_lt
  have hlow := low.toNat_lt
  have hword : (256 * high.toUInt16 + low.toUInt16).toNat = 256 * high.toNat + low.toNat := by
    simp only [UInt16.toNat_add, UInt16.toNat_mul, UInt8.toNat_toUInt16, UInt16.toNat_ofNat]
    omega
  unfold wordBytes
  rw [List.cons.injEq, List.cons.injEq]
  refine ⟨UInt8.toNat_inj.mp ?_, UInt8.toNat_inj.mp ?_, rfl⟩
  · simp only [UInt16.toNat_toUInt8, UInt16.toNat_shiftRight, hword, UInt16.toNat_ofNat,
      Nat.reducePow, Nat.reduceMod, Nat.shiftRight_eq_div_pow]
    omega
  · rw [UInt16.toNat_toUInt8, hword]
    omega

namespace Code

/-- What stands in a block from some offset on. -/
inductive Item where
  | instr (i : Instr)
  /-- A byte that names no opcode. -/
  | unknown (byte : UInt8)
  /-- The opcode of an instruction, and the rest of the block, in which its operand has no room. -/
  | truncated (op : Opcode) (rest : List UInt8)
deriving DecidableEq, Repr

namespace Item

/-- The bytes of an item. -/
def bytes : Item → List UInt8
  | .instr i => i.encode
  | .unknown byte => [byte]
  | .truncated op rest => op.byte :: rest

/-- The number of bytes of an item. -/
def size (item : Item) : Nat := item.bytes.length

/-- Every item takes at least one byte. -/
theorem size_pos (item : Item) : 0 < item.size := by
  cases item with
  | instr i => exact Nat.succ_pos _
  | unknown byte => exact Nat.succ_pos _
  | truncated op rest => exact Nat.succ_pos _

/-- What is fetched where an item starts. -/
def fetch : Item → Fetch
  | .instr i => .instr i
  | .unknown byte => .unknown byte
  | .truncated op _ => .truncated op

/-- An item as a listing shows it, without its offset. -/
def text : Item → String
  | .instr i => showInstr i
  | .unknown byte => "<unknown opcode " ++ toString byte.toNat ++ ">"
  | .truncated op _ => op.name ++ " <truncated>"

end Item

/-- The items that can stand one after the other from some offset to the end of a block. -/
inductive Reading : List Item → Prop
  | nil : Reading []
  | instr (i : Instr) {items : List Item} : Reading items → Reading (.instr i :: items)
  | unknown {byte : UInt8} {items : List Item} : Opcode.ofByte? byte = none → Reading items →
      Reading (.unknown byte :: items)
  | truncated {op : Opcode} {rest : List UInt8} : rest.length + 1 < op.size →
      Reading [.truncated op rest]

/-- The bytes of items one after the other. -/
def itemBytes (items : List Item) : List UInt8 :=
  items.flatMap Item.bytes

/-! ## Every block has a reading -/

/-- Where there is room for its operand, an opcode begins an instruction. -/
theorem exists_encode_append {op : Opcode} {rest : List UInt8} (h : op.size ≤ rest.length + 1) :
    ∃ i tail, op.byte :: rest = Instr.encode i ++ tail := by
  unfold Opcode.size at h
  obtain hwidths | hwidths | hwidths := op.operandWidths_cases
  · have hfits : op.Fits [] := ⟨by rw [hwidths], by simp⟩
    refine ⟨op.instr ([].headD 0), rest, ?_⟩
    rw [Opcode.encode_instr hfits]
    rfl
  · have hroom : 1 ≤ rest.length := by simpa [hwidths] using h
    obtain ⟨n, tail, rfl⟩ := List.exists_cons_of_length_pos hroom
    have hfits : op.Fits [n.toNat] :=
      ⟨by rw [hwidths]; rfl, by simpa [hwidths] using n.toNat_lt⟩
    refine ⟨op.instr ([n.toNat].headD 0), tail, ?_⟩
    rw [Opcode.encode_instr hfits, Opcode.assemble, hwidths]
    simp
  · have hroom : 2 ≤ rest.length := by simpa [hwidths] using h
    obtain ⟨high, rest, rfl⟩ := List.exists_cons_of_length_pos (Nat.lt_of_succ_lt hroom)
    obtain ⟨low, tail, rfl⟩ := List.exists_cons_of_length_pos (Nat.lt_of_succ_lt_succ hroom)
    have hlt : 256 * high.toNat + low.toNat < 65536 := by
      have := high.toNat_lt
      have := low.toNat_lt
      omega
    have hfits : op.Fits [256 * high.toNat + low.toNat] :=
      ⟨by rw [hwidths]; rfl, by simpa [hwidths] using hlt⟩
    refine ⟨op.instr ([256 * high.toNat + low.toNat].headD 0), tail, ?_⟩
    rw [Opcode.encode_instr hfits, Opcode.assemble, hwidths]
    simp [Instr.wordBytes_of_bytes]

/-- Any bytes are those of a reading: something can be read at every offset, up to the end. -/
theorem exists_reading (bytes : List UInt8) : ∃ items, Reading items ∧ itemBytes items = bytes := by
  induction hlength : bytes.length using Nat.strongRecOn generalizing bytes with
  | ind n ih =>
    subst hlength
    cases bytes with
    | nil => exact ⟨[], .nil, rfl⟩
    | cons byte rest =>
      cases hop : Opcode.ofByte? byte with
      | none =>
        obtain ⟨items, hitems, rfl⟩ := ih rest.length (Nat.lt_succ_self _) rest rfl
        exact ⟨.unknown byte :: items, .unknown hop hitems, rfl⟩
      | some op =>
        obtain rfl := Opcode.byte_of_ofByte? hop
        by_cases hshort : rest.length + 1 < op.size
        · exact ⟨[.truncated op rest], .truncated hshort, List.append_nil _⟩
        · obtain ⟨i, tail, hsplit⟩ := exists_encode_append (Nat.not_lt.mp hshort)
          have hlt : tail.length < (op.byte :: rest).length := by
            rw [hsplit, List.length_append, Instr.length_encode]
            have := i.size_pos
            omega
          obtain ⟨items, hitems, rfl⟩ := ih tail.length hlt tail rfl
          exact ⟨.instr i :: items, .instr i hitems, hsplit.symm⟩

/-! ## What is fetched from a reading -/

/-- A byte that is no opcode is fetched as such. -/
theorem fetch_of_unknown {c : Code} {front back : List UInt8} {byte : UInt8}
    (h : c.bytes.toList = front ++ byte :: back) (hbyte : Opcode.ofByte? byte = none) :
    c.fetch front.length = .unknown byte := by
  have hfirst : c.bytes[front.length]? = some byte := getElem?_of_bytes h 0
  simp only [fetch, byteAt?, hfirst, hbyte]

/-- An opcode whose operand is cut off by the end is fetched as such. -/
theorem fetch_of_truncated {c : Code} {front rest : List UInt8} {op : Opcode}
    (h : c.bytes.toList = front ++ op.byte :: rest) (hshort : rest.length + 1 < op.size) :
    c.fetch front.length = .truncated op := by
  have hfirst : c.bytes[front.length]? = some op.byte := getElem?_of_bytes h 0
  have hlast : c.bytes[front.length + (op.size - 1)]? = none := by
    rw [getElem?_of_bytes h, List.getElem?_eq_none_iff, List.length_cons]
    omega
  simp only [fetch, byteAt?, hfirst, Opcode.ofByte?_byte]
  cases op with
  | constant | setGlobal | getGlobal | getLocal =>
    have hnone : c.byteAt? (front.length + 1) = none := hlast
    simp only [fetchByte, hnone]
  | jump | jumpIfNotTrue =>
    have hnone : c.bytes[front.length + 1 + 1]? = none := hlast
    have hword : c.wordAt? (front.length + 1) = none := by
      unfold wordAt?
      rw [hnone]
      split <;> simp_all
    simp only [fetchWord, hword]
  | _ => exact absurd hshort (by simp [Opcode.size, Opcode.operandWidths])

/-- What is fetched where an item starts is this item. -/
theorem fetch_of_reading {c : Code} {front : List UInt8} {item : Item} {items : List Item}
    (h : Reading (item :: items)) (hc : c.bytes.toList = front ++ itemBytes (item :: items)) :
    c.fetch front.length = item.fetch := by
  cases h with
  | instr i _ => exact fetch_of_bytes hc
  | unknown hbyte _ => exact fetch_of_unknown hc hbyte
  | truncated hshort => exact fetch_of_truncated (hc.trans (by simp [itemBytes, Item.bytes])) hshort

/-- At the end nothing is fetched. -/
theorem fetch_of_bytes_end {c : Code} {front : List UInt8} (hc : c.bytes.toList = front) :
    c.fetch front.length = .finished := by
  have hsize : front.length = c.size := by
    rw [← hc]
    exact Array.length_toList
  rw [hsize, fetch_size]

/-! ## There is only one reading -/

/-- What follows an item in a reading is a reading. -/
theorem Reading.tail {item : Item} {items : List Item} (h : Reading (item :: items)) :
    Reading items := by
  cases h with
  | instr i h => exact h
  | unknown _ h => exact h
  | truncated _ => exact .nil

/-- The first item is told by what is fetched at the start of the block of all bytes. -/
theorem Reading.head_eq {item item' : Item} {items items' : List Item}
    (h : Reading (item :: items)) (h' : Reading (item' :: items'))
    (hbytes : itemBytes (item :: items) = itemBytes (item' :: items')) : item = item' := by
  have hfetch : item.fetch = item'.fetch := by
    let c : Code := ⟨(itemBytes (item :: items)).toArray⟩
    have hfirst : c.fetch 0 = item.fetch := @fetch_of_reading c [] item items h rfl
    have hfirst' : c.fetch 0 = item'.fetch := @fetch_of_reading c [] item' items' h' hbytes
    exact hfirst.symm.trans hfirst'
  cases item with
  | instr i =>
    cases item' with
    | instr i' => rw [Fetch.instr.inj hfetch]
    | _ => cases hfetch
  | unknown byte =>
    cases item' with
    | unknown byte' => rw [Fetch.unknown.inj hfetch]
    | _ => cases hfetch
  | truncated op rest =>
    cases item' with
    | truncated op' rest' =>
      cases h
      cases h'
      obtain rfl := Fetch.truncated.inj hfetch
      have hrest : rest = rest' := by simpa [itemBytes, Item.bytes] using hbytes
      rw [hrest]
    | _ => cases hfetch

/-- A reading that is not empty has bytes. -/
theorem itemBytes_cons_ne_nil (item : Item) (items : List Item) :
    itemBytes (item :: items) ≠ [] := by
  refine List.ne_nil_of_length_pos ?_
  rw [itemBytes, List.flatMap_cons, List.length_append]
  exact Nat.add_pos_left item.size_pos _

/-- Bytes are made of items in one way only. -/
theorem Reading.unique {items items' : List Item} (h : Reading items) (h' : Reading items')
    (hbytes : itemBytes items = itemBytes items') : items = items' := by
  induction items generalizing items' with
  | nil =>
    cases items' with
    | nil => rfl
    | cons item' items' => exact absurd hbytes.symm (itemBytes_cons_ne_nil item' items')
  | cons item items ih =>
    cases items' with
    | nil => exact absurd hbytes (itemBytes_cons_ne_nil item items)
    | cons item' items' =>
      obtain rfl := h.head_eq h' hbytes
      rw [ih h.tail h'.tail (List.append_cancel_left hbytes)]

/-- Every sequence of bytes has exactly one reading. -/
theorem existsUnique_reading (bytes : List UInt8) :
    ∃ items, ∀ items', Reading items' ∧ itemBytes items' = bytes ↔ items' = items := by
  obtain ⟨items, hitems, rfl⟩ := exists_reading bytes
  refine ⟨items, fun items' => ⟨fun h => h.1.unique hitems h.2, ?_⟩⟩
  rintro rfl
  exact ⟨hitems, rfl⟩

/-! ## Lines -/

/-- The items of a reading from an offset on, each with the offset at which it starts. -/
def placedItems (offset : Nat) : List Item → List (Nat × Item)
  | [] => []
  | item :: items => (offset, item) :: placedItems (offset + item.size) items

/-- A line of a listing. -/
def showItem (p : Nat × Item) : String :=
  showOffset p.1 ++ " " ++ p.2.text

/-- No item of a reading starts before the reading does. -/
theorem le_of_mem_placedItems {offset : Nat} {items : List Item} {p : Nat × Item}
    (h : p ∈ placedItems offset items) : offset ≤ p.1 := by
  induction items generalizing offset with
  | nil => cases h
  | cons item items ih =>
    rcases List.mem_cons.mp h with rfl | htail
    · exact Nat.le_refl _
    · exact Nat.le_trans (Nat.le_add_right _ _) (ih htail)

/-- Items start at larger and larger offsets. -/
theorem pairwise_placedItems (offset : Nat) (items : List Item) :
    ((placedItems offset items).map Prod.fst).Pairwise (· < ·) := by
  induction items generalizing offset with
  | nil => exact .nil
  | cons item items ih =>
    refine .cons ?_ (ih (offset + item.size))
    intro o ho
    obtain ⟨p, hp, rfl⟩ := List.mem_map.mp ho
    exact Nat.lt_of_lt_of_le (Nat.lt_add_of_pos_right item.size_pos) (le_of_mem_placedItems hp)

/-- What is fetched at the offset of an item is this item. -/
theorem fetch_of_mem_placedItems {c : Code} {front : List UInt8} {items : List Item}
    (h : Reading items) (hc : c.bytes.toList = front ++ itemBytes items) {p : Nat × Item}
    (hp : p ∈ placedItems front.length items) : c.fetch p.1 = p.2.fetch := by
  induction items generalizing front with
  | nil => cases hp
  | cons item items ih =>
    rcases List.mem_cons.mp hp with rfl | htail
    · exact fetch_of_reading h hc
    · refine @ih (front ++ item.bytes) h.tail (by rw [hc, List.append_assoc]; rfl) ?_
      rwa [List.length_append]

section lines

variable {c : Code} {offset : Nat}

/-- A listing ends at the end of the block. -/
theorem linesFrom_of_finished (h : c.fetch offset = .finished) : c.linesFrom offset = [] := by
  rw [linesFrom]
  split <;> simp_all

/-- A byte that is no opcode is listed, and the listing goes on at the next byte. -/
theorem linesFrom_of_unknown {byte : UInt8} (h : c.fetch offset = .unknown byte) :
    c.linesFrom offset = (showOffset offset ++ " <unknown opcode " ++ toString byte.toNat ++ ">")
      :: c.linesFrom (offset + 1) := by
  rw [linesFrom]
  split <;> simp_all

/-- A truncated instruction is listed, and the listing ends. -/
theorem linesFrom_of_truncated {op : Opcode} (h : c.fetch offset = .truncated op) :
    c.linesFrom offset = [showOffset offset ++ " " ++ op.name ++ " <truncated>"] := by
  rw [linesFrom]
  split <;> simp_all

/-- An instruction is listed, and the listing goes on behind it. -/
theorem linesFrom_of_instr {i : Instr} (h : c.fetch offset = .instr i) :
    c.linesFrom offset =
      (showOffset offset ++ " " ++ showInstr i) :: c.linesFrom (offset + i.size) := by
  rw [linesFrom]
  split <;> simp_all

end lines

/-- The line of a byte that is no opcode. -/
theorem showItem_unknown (offset : Nat) (byte : UInt8) :
    showItem (offset, .unknown byte) =
      showOffset offset ++ " <unknown opcode " ++ toString byte.toNat ++ ">" := by
  have hblank : " <unknown opcode " = " " ++ "<unknown opcode " := rfl
  rw [hblank]
  unfold showItem Item.text
  rw [← String.append_assoc, ← String.append_assoc, ← String.append_assoc]

/-- The line of a truncated instruction. -/
theorem showItem_truncated (offset : Nat) (op : Opcode) (rest : List UInt8) :
    showItem (offset, .truncated op rest) =
      showOffset offset ++ " " ++ op.name ++ " <truncated>" := by
  unfold showItem Item.text
  rw [← String.append_assoc]

/-- A listing has one line for each item of the reading. -/
theorem linesFrom_eq {c : Code} {front : List UInt8} {items : List Item} (h : Reading items)
    (hc : c.bytes.toList = front ++ itemBytes items) :
    c.linesFrom front.length = (placedItems front.length items).map showItem := by
  induction h generalizing front with
  | nil => exact linesFrom_of_finished (fetch_of_bytes_end (hc.trans (List.append_nil _)))
  | @instr i items h ih =>
    have hrest := @ih (front ++ i.encode) (by rw [hc, List.append_assoc]; rfl)
    rw [List.length_append] at hrest
    rw [linesFrom_of_instr (fetch_of_reading (.instr i h) hc), ← i.length_encode, hrest]
    rfl
  | @unknown byte items hbyte h ih =>
    have hrest := @ih (front ++ [byte]) (by rw [hc, List.append_assoc]; rfl)
    rw [List.length_append, List.length_singleton] at hrest
    rw [linesFrom_of_unknown (fetch_of_reading (.unknown hbyte h) hc), hrest, ← showItem_unknown]
    rfl
  | @truncated op rest hshort =>
    rw [linesFrom_of_truncated (fetch_of_reading (.truncated hshort) hc),
      ← showItem_truncated _ op rest]
    rfl

/-- The lines of a listing show the items of the block. -/
theorem lines_eq {c : Code} {items : List Item} (h : Reading items)
    (hc : itemBytes items = c.bytes.toList) :
    c.lines = (placedItems 0 items).map showItem :=
  @linesFrom_eq c [] items h hc.symm

/-! ## Blocks of instructions -/

section decoding

variable {c : Code} {offset : Nat}

/-- A block is not decoded where a byte is no opcode. -/
theorem decodeFrom?_of_unknown {byte : UInt8} (h : c.fetch offset = .unknown byte) :
    c.decodeFrom? offset = none := by
  rw [decodeFrom?]
  split <;> simp_all

/-- A block is not decoded where an instruction is truncated. -/
theorem decodeFrom?_of_truncated {op : Opcode} (h : c.fetch offset = .truncated op) :
    c.decodeFrom? offset = none := by
  rw [decodeFrom?]
  split <;> simp_all

end decoding

/-- A block that is decoded is read as its instructions and nothing else. -/
theorem eq_map_instr_of_decodeFrom? {c : Code} {front : List UInt8} {items : List Item}
    (h : Reading items) (hc : c.bytes.toList = front ++ itemBytes items) {is : List Instr}
    (hdecode : c.decodeFrom? front.length = some is) : items = is.map .instr := by
  induction h generalizing front is with
  | nil =>
    rw [decodeFrom?_of_finished (fetch_of_bytes_end (hc.trans (List.append_nil _)))] at hdecode
    cases hdecode
    rfl
  | @instr i items h ih =>
    rw [decodeFrom?_of_instr (fetch_of_reading (.instr i h) hc)] at hdecode
    obtain ⟨is, hrest, rfl⟩ := Option.map_eq_some_iff.mp hdecode
    rw [← i.length_encode, ← List.length_append] at hrest
    rw [ih (by rw [hc, List.append_assoc]; rfl) hrest, List.map_cons]
  | unknown hbyte h ih =>
    rw [decodeFrom?_of_unknown (fetch_of_reading (.unknown hbyte h) hc)] at hdecode
    cases hdecode
  | truncated hshort =>
    rw [decodeFrom?_of_truncated (fetch_of_reading (.truncated hshort) hc)] at hdecode
    cases hdecode

/-- Instructions one after the other are a reading. -/
theorem reading_map_instr (is : List Instr) : Reading (is.map .instr) := by
  induction is with
  | nil => exact .nil
  | cons i is ih => exact .instr i ih

/-- The bytes of a reading of instructions are their encodings. -/
theorem itemBytes_map_instr (is : List Instr) :
    itemBytes (is.map .instr) = is.flatMap Instr.encode :=
  List.flatMap_map _ _ is

/-- A block that is read as instructions has their bytes, and no others. -/
theorem decode?_eq_some_iff {c : Code} {is : List Instr} :
    c.decode? = some is ↔ c = ofInstrs is := by
  constructor
  · intro h
    obtain ⟨items, hitems, hbytes⟩ := exists_reading c.bytes.toList
    obtain rfl := @eq_map_instr_of_decodeFrom? c [] items hitems hbytes.symm is h
    exact eq_ofInstrs (hbytes.symm.trans (itemBytes_map_instr is))
  · rintro rfl
    exact decode?_ofInstrs is

end Code

end Duet
