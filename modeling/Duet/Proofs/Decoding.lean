import Duet.Bytecode.Code

/-!
# Reading instructions back from a block

A block is laid out by writing its instructions one after the other. The main statement,
`Code.fetch_ofInstrs`, says that `fetch` at the offset where an instruction was written yields
that instruction, whatever stands before and after it; `Code.fetch_ofInstrs_end` says that the
offset past the last instruction is not inside the block. What stands around an instruction need not
be instructions (`Code.fetch_of_bytes`).

Offsets of this kind are the *boundaries* of a block: `codeSize pre`, for a part `pre` with which
the list of instructions begins. All later statements about running code speak of boundaries, so
that no proof after this one has to look at bytes.

`Code.decode?` reads a whole block, and gives back the list that was written (`decode?_ofInstrs`).
-/

namespace Duet

/-- The two bytes of a word determine it. -/
theorem word_of_bytes (w : UInt16) :
    (w >>> 8).toUInt8.toUInt16 <<< 8 ||| w.toUInt8.toUInt16 = w := by
  have hw : w.toNat < 65536 := w.toNat_lt
  apply UInt16.toNat_inj.mp
  have hhigh : (w.toNat >>> 8 % 256) <<< 8 % 65536 = (w.toNat / 256) <<< 8 := by
    rw [Nat.shiftRight_eq_div_pow, Nat.shiftLeft_eq, Nat.shiftLeft_eq]
    omega
  have hlow : w.toNat % 256 < 2 ^ 8 := Nat.mod_lt _ (by decide)
  simp only [UInt16.toNat_or, UInt16.toNat_shiftLeft, UInt16.toNat_shiftRight,
    UInt8.toNat_toUInt16, UInt16.toNat_toUInt8, UInt16.toNat_ofNat, Nat.reducePow, Nat.reduceMod]
  rw [hhigh, ← Nat.shiftLeft_add_eq_or_of_lt hlow, Nat.shiftLeft_eq]
  omega

/-- The bytes of instructions are as many as their sizes say. -/
theorem length_flatMap_encode (is : List Instr) :
    (is.flatMap Instr.encode).length = codeSize is := by
  induction is with
  | nil => rfl
  | cons i is ih =>
    rw [List.flatMap_cons, List.length_append, Instr.length_encode, ih, codeSize_cons]

namespace Code

/-- The bytes of a block from an offset on. -/
theorem getElem?_of_bytes {c : Code} {front back : List UInt8} (h : c.bytes.toList = front ++ back)
    (k : Nat) : c.bytes[front.length + k]? = back[k]? := by
  rw [← Array.getElem?_toList, h, List.getElem?_append_right (Nat.le_add_right _ _),
    Nat.add_sub_cancel_left]

/-- The bytes of a block from a boundary on are those of the instructions from there on. -/
theorem toList_ofInstrs_append (pre post : List Instr) :
    (ofInstrs (pre ++ post)).bytes.toList =
      pre.flatMap Instr.encode ++ post.flatMap Instr.encode := by
  rw [ofInstrs, List.toList_toArray, List.flatMap_append]

/-- A word is read from its high byte and its low byte, in this order. -/
theorem wordAt?_of_bytes {c : Code} {offset : Nat} {w : UInt16}
    (hhigh : c.bytes[offset]? = some (w >>> 8).toUInt8)
    (hlow : c.bytes[offset + 1]? = some w.toUInt8) : c.wordAt? offset = some w := by
  simp only [wordAt?, hhigh, hlow]
  rw [word_of_bytes]

/-- Where the bytes of an instruction stand, this instruction is read. -/
theorem fetch_of_bytes {c : Code} {front back : List UInt8} {i : Instr}
    (h : c.bytes.toList = front ++ (i.encode ++ back)) : c.fetch front.length = .instr i := by
  have hbyte (k : Nat) := getElem?_of_bytes h k
  have hop := hbyte 0
  unfold fetch byteAt?
  rw [Nat.add_zero] at hop
  rw [hop]
  cases i with
  | boolean b => cases b <;> rfl
  | arith op => cases op <;> rfl
  | jump t | jumpIfNotTrue t =>
    have hword := wordAt?_of_bytes (w := t) (hbyte 1) (hbyte 2)
    simp [Instr.encode, Instr.opcode, fetchWord, hword]
  | constant n | setGlobal n | getGlobal n | getLocal n =>
    simp [Instr.encode, Instr.opcode, fetchByte, byteAt?, hbyte 1]
  | _ => rfl

/-- At a boundary stands the instruction that was written there. -/
theorem fetch_ofInstrs (pre post : List Instr) (i : Instr) :
    (ofInstrs (pre ++ i :: post)).fetch (codeSize pre) = .instr i := by
  rw [← length_flatMap_encode]
  exact fetch_of_bytes (toList_ofInstrs_append pre (i :: post))

/-- At the end of a block there is nothing. -/
theorem fetch_size (c : Code) : c.fetch c.size = .finished := by
  have hend : c.bytes[c.bytes.size]? = none := Array.getElem?_eq_none (Nat.le_refl _)
  simp only [fetch, byteAt?, size, hend]

/-- Past the last instruction there is nothing. -/
theorem fetch_ofInstrs_end (is : List Instr) :
    (ofInstrs is).fetch (codeSize is) = .finished := by
  rw [← size_ofInstrs]
  exact fetch_size _

/-- What is fetched at a boundary is what comes next. -/
theorem exists_cons_of_fetch {is pre rest : List Instr} {i : Instr} (hsplit : is = pre ++ rest)
    (h : (ofInstrs is).fetch (codeSize pre) = .instr i) : ∃ rest', rest = i :: rest' := by
  subst hsplit
  cases rest with
  | nil =>
    rw [List.append_nil, fetch_ofInstrs_end] at h
    cases h
  | cons j rest =>
    rw [fetch_ofInstrs] at h
    cases h
    exact ⟨rest, rfl⟩

/-! ## Whole blocks -/

/-- An instruction starts inside its block. -/
theorem lt_size_of_fetch {c : Code} {offset : Nat} {i : Instr}
    (h : c.fetch offset = .instr i) : offset < c.size := by
  refine Nat.lt_of_not_le fun hge => ?_
  have hnone : c.bytes[offset]? = none := Array.getElem?_eq_none hge
  simp [fetch, byteAt?, hnone] at h

/-- An instruction with one operand byte is fetched only where both of its bytes are. -/
theorem fetchByte_eq_instr {c : Code} {offset : Nat} {op : Opcode} {make : UInt8 → Instr}
    {i : Instr} (h : c.fetchByte offset op make = .instr i) :
    offset + 2 ≤ c.size ∧ ∃ n, i = make n := by
  unfold fetchByte byteAt? at h
  split at h
  · next n hn =>
    exact ⟨(Array.getElem?_eq_some_iff.mp hn).1, n, (Fetch.instr.inj h).symm⟩
  · cases h

/-- An instruction with an operand word is fetched only where its three bytes are. -/
theorem fetchWord_eq_instr {c : Code} {offset : Nat} {op : Opcode} {make : UInt16 → Instr}
    {i : Instr} (h : c.fetchWord offset op make = .instr i) :
    offset + 3 ≤ c.size ∧ ∃ n, i = make n := by
  unfold fetchWord wordAt? at h
  split at h
  · next n hn =>
    split at hn
    · next hlow => exact ⟨(Array.getElem?_eq_some_iff.mp hlow).1, n, (Fetch.instr.inj h).symm⟩
    · cases hn
  · cases h

/-- An instruction ends inside its block. -/
theorem add_size_le_of_fetch {c : Code} {offset : Nat} {i : Instr}
    (h : c.fetch offset = .instr i) : offset + i.size ≤ c.size := by
  have hlt := lt_size_of_fetch h
  unfold fetch at h
  split at h
  · cases h
  · split at h
    · cases h
    · next op _ =>
      cases op with
      | constant | setGlobal | getGlobal | getLocal =>
        obtain ⟨hle, n, rfl⟩ := fetchByte_eq_instr h
        exact hle
      | jump | jumpIfNotTrue =>
        obtain ⟨hle, n, rfl⟩ := fetchWord_eq_instr h
        exact hle
      | _ =>
        cases h
        exact hlt

/-- The instructions from an offset to the end of a block, if the bytes from there on are
instructions one after the other. -/
def decodeFrom? (c : Code) (offset : Nat) : Option (List Instr) :=
  match _h : c.fetch offset with
  | .finished => some []
  | .unknown _ => none
  | .truncated _ => none
  | .instr i => (c.decodeFrom? (offset + i.size)).map (i :: ·)
termination_by c.size - offset
decreasing_by
  have hlt := lt_size_of_fetch _h
  have hpos := i.size_pos
  omega

/-- The instructions of a block. -/
def decode? (c : Code) : Option (List Instr) :=
  c.decodeFrom? 0

/-- There are no instructions at the end of a block. -/
theorem decodeFrom?_of_finished {c : Code} {offset : Nat} (h : c.fetch offset = .finished) :
    c.decodeFrom? offset = some [] := by
  rw [decodeFrom?]
  split <;> simp_all

/-- Decoding goes on behind the instruction that is fetched. -/
theorem decodeFrom?_of_instr {c : Code} {offset : Nat} {i : Instr}
    (h : c.fetch offset = .instr i) :
    c.decodeFrom? offset = (c.decodeFrom? (offset + i.size)).map (i :: ·) := by
  rw [decodeFrom?]
  split <;> simp_all

/-- Decoding from a boundary gives the instructions behind it. -/
theorem decodeFrom?_ofInstrs (pre post : List Instr) :
    (ofInstrs (pre ++ post)).decodeFrom? (codeSize pre) = some post := by
  induction post generalizing pre with
  | nil =>
    rw [List.append_nil]
    exact decodeFrom?_of_finished (fetch_ofInstrs_end pre)
  | cons i post ih =>
    have hrest := ih (pre ++ [i])
    rw [List.append_assoc, List.singleton_append, codeSize_append, codeSize_cons, codeSize_nil,
      Nat.add_zero] at hrest
    rw [decodeFrom?_of_instr (fetch_ofInstrs pre post i), hrest]
    rfl

/-- A block that was written instruction by instruction is read back as they were. -/
theorem decode?_ofInstrs (is : List Instr) : (ofInstrs is).decode? = some is :=
  decodeFrom?_ofInstrs [] is

end Code

end Duet
