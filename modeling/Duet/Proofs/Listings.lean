import Duet.Proofs.ConstantPool
import Duet.Proofs.LinearReading
import Duet.Proofs.Spelling
import Duet.Proofs.TextPositions

/-!
# Listings tell what they list

A listing is a text. Its lines come back by splitting it at newlines, since no line has one
(`Lines.split_join`). Which part of the program a line belongs to is told by its first character: a
digit in the main block and for a constant, a blank in the body of a function, and an equals sign
between the main block and the constants. So the lines can be divided again among the blocks
(`append_inj_of_head?`).

Within a block offsets need not be compared. Both blocks start at offset 0, and lines that are equal
so far show the same instructions, which take the same bytes; so the next two lines begin with the
same offset, in however many digits, and differ only if their instructions do (`eq_of_lines_eq`).
-/

namespace Duet

/-! ## Lines of a text -/

namespace Lines

/-- The text has no newline. -/
def OneLine (l : String) : Prop :=
  '\n' ∉ l.toList

instance (l : String) : Decidable (OneLine l) :=
  inferInstanceAs (Decidable ('\n' ∉ l.toList))

/-- Two texts without a newline make one without a newline. -/
theorem OneLine.append {a b : String} (h : OneLine a) (h' : OneLine b) : OneLine (a ++ b) := by
  unfold OneLine at *
  rw [String.toList_append, List.mem_append]
  exact not_or.mpr ⟨h, h'⟩

/-- A text without a newline is split into itself. -/
theorem split_of_notMem {a : List Char} (h : '\n' ∉ a) : split a = [a] := by
  induction a with
  | nil => rfl
  | cons c a ih =>
    rw [List.mem_cons, not_or] at h
    rw [split, if_neg (Ne.symm h.1), ih h.2]

/-- Lines that are put together to a text are found again. -/
theorem split_join {ls : List String} (h : ∀ l ∈ ls, OneLine l) :
    split (join ls).toList = ls.map String.toList ++ [[]] := by
  induction ls with
  | nil => rfl
  | cons l ls ih =>
    obtain ⟨hl, hls⟩ := List.forall_mem_cons.mp h
    have hjoin : (join (l :: ls)).toList = l.toList ++ '\n' :: (join ls).toList := by
      simp [join]
    rw [hjoin, split_newline, split_of_notMem hl, ih hls]
    rfl

/-- Lines can be told from the text that they are joined to. -/
theorem join_inj {ls ls' : List String} (h : ∀ l ∈ ls, OneLine l) (h' : ∀ l ∈ ls', OneLine l)
    (hjoin : join ls = join ls') : ls = ls' := by
  have hsplit := split_join h
  rw [hjoin, split_join h'] at hsplit
  have hmap := List.append_cancel_right hsplit
  exact (List.map_injective_iff.mpr fun _ _ => String.toList_injective) hmap.symm

end Lines

open Lines

/-- The first character of a text. -/
def firstChar (l : String) : Option Char :=
  l.toList.head?

/-- A text that is put behind another does not change its first character. -/
theorem firstChar_append {a : String} {c : Char} (h : firstChar a = some c) (b : String) :
    firstChar (a ++ b) = some c := by
  unfold firstChar at *
  rw [String.toList_append, List.head?_append, h]
  rfl

/-- Two lists that are equal are divided in the same way, where what comes first has a property and
what comes next does not begin with it. -/
theorem append_inj_of_head? {α : Type} {p : α → Prop} {a a' b b' : List α} (ha : ∀ x ∈ a, p x)
    (ha' : ∀ x ∈ a', p x) (hb : ∀ x ∈ b.head?, ¬p x) (hb' : ∀ x ∈ b'.head?, ¬p x)
    (h : a ++ b = a' ++ b') : a = a' ∧ b = b' := by
  induction a generalizing a' with
  | nil =>
    cases a' with
    | nil => exact ⟨rfl, h⟩
    | cons x a' =>
      have hx : x ∈ b.head? := by
        rw [← List.nil_append b, h]
        rfl
      exact absurd (ha' x List.mem_cons_self) (hb x hx)
  | cons x a ih =>
    cases a' with
    | nil =>
      have hx : x ∈ b'.head? := by
        rw [← List.nil_append b', ← h]
        rfl
      exact absurd (ha x List.mem_cons_self) (hb' x hx)
    | cons x' a' =>
      obtain ⟨rfl, htail⟩ := List.cons.inj h
      obtain ⟨rfl, rfl⟩ := ih (List.forall_mem_cons.mp ha).2 (List.forall_mem_cons.mp ha').2 htail
      exact ⟨rfl, rfl⟩

/-! ## Numbers -/

/-- The digits of a number have no newline. -/
theorem oneLine_toString (n : Nat) : OneLine (toString n) :=
  fun h => absurd (isDigit_of_mem_toString h) (by decide)

/-- A number is written with a digit in front. -/
theorem exists_firstChar_toString (n : Nat) :
    ∃ d, firstChar (toString n) = some d ∧ d.isDigit = true := by
  obtain ⟨d, ds, hdigits, hd⟩ := exists_digit_cons n
  exact ⟨d, congrArg List.head? hdigits, hd⟩

/-- An integer is written without a newline. -/
theorem oneLine_toString_int (n : Int) : OneLine (toString n) := by
  cases n with
  | ofNat n => exact oneLine_toString n
  | negSucc n => exact OneLine.append (a := "-") (by decide) (oneLine_toString (n + 1))

/-- An integer begins with a digit or a sign. -/
theorem exists_firstChar_toString_int (n : Int) :
    ∃ d, firstChar (toString n) = some d ∧ (d.isDigit = true ∨ d = '-') := by
  cases n with
  | ofNat n =>
    obtain ⟨d, hd, hdigit⟩ := exists_firstChar_toString n
    exact ⟨d, hd, .inl hdigit⟩
  | negSucc n => exact ⟨'-', firstChar_append (a := "-") rfl _, .inr rfl⟩

/-- Integers with the same digits and the same sign are the same. -/
theorem eq_of_toString_int_eq {m n : Int} (h : toString m = toString n) : m = n := by
  have hsign (k l : Nat) : toString (Int.ofNat k) ≠ toString (Int.negSucc l) := by
    intro heq
    obtain ⟨d, hd, hdigit⟩ := exists_firstChar_toString k
    have hminus : firstChar (toString (Int.negSucc l)) = some '-' :=
      firstChar_append (a := "-") rfl _
    rw [← heq] at hminus
    obtain rfl : d = '-' := Option.some.inj (hd.symm.trans hminus)
    cases hdigit
  cases m with
  | ofNat k =>
    cases n with
    | ofNat l => exact congrArg Int.ofNat (Lexer.eq_of_toString_eq h)
    | negSucc l => exact absurd h (hsign k l)
  | negSucc k =>
    cases n with
    | ofNat l => exact absurd h.symm (hsign l k)
    | negSucc l =>
      have hdigits : toString (k + 1) = toString (l + 1) := (String.append_right_inj "-").mp h
      exact congrArg Int.negSucc (Nat.succ.inj (Lexer.eq_of_toString_eq hdigits))

namespace Code

/-- An offset is shown with digits only. -/
theorem isDigit_of_mem_showOffset {n : Nat} {d : Char} (h : d ∈ (showOffset n).toList) :
    d.isDigit = true := by
  rw [showOffset, String.toList_ofList, List.mem_append] at h
  rcases h with hzero | hdigit
  · obtain rfl := List.eq_of_mem_replicate hzero
    rfl
  · exact isDigit_of_mem_toString hdigit

/-- An offset is shown with a digit in front. -/
theorem exists_firstChar_showOffset (n : Nat) :
    ∃ d, firstChar (showOffset n) = some d ∧ d.isDigit = true := by
  have hne : (showOffset n).toList ≠ [] := by
    obtain ⟨d, ds, hdigits, -⟩ := exists_digit_cons n
    rw [showOffset, String.toList_ofList]
    exact List.append_ne_nil_of_right_ne_nil _ (hdigits ▸ List.cons_ne_nil d ds)
  refine ⟨(showOffset n).toList.head hne, List.head?_eq_some_head hne, ?_⟩
  exact isDigit_of_mem_showOffset (List.head_mem hne)

/-! ## One block -/

/-- The names of opcodes have no space and no newline. -/
theorem notMem_name (op : Opcode) {c : Char} (h : c = ' ' ∨ c = '\n') : c ∉ op.name.toList := by
  rcases h with rfl | rfl <;> cases op <;> decide

/-- An instruction is shown on one line. -/
theorem oneLine_showInstr (i : Instr) : OneLine (showInstr i) := by
  have hname : OneLine i.opcode.name := notMem_name i.opcode (.inr rfl)
  unfold showInstr
  split
  · exact (hname.append (by decide)).append (oneLine_toString _)
  · exact hname

/-- An item is shown on one line. -/
theorem oneLine_showItem (p : Nat × Item) : OneLine (showItem p) := by
  have hoffset : OneLine (showOffset p.1) := fun h =>
    absurd (isDigit_of_mem_showOffset h) (by decide)
  refine (hoffset.append (by decide)).append ?_
  cases p.2 with
  | instr i => exact oneLine_showInstr i
  | unknown byte => exact (OneLine.append (by decide) (oneLine_toString _)).append (by decide)
  | truncated op rest => exact OneLine.append (notMem_name op (.inr rfl)) (by decide)

/-- The line of an item begins with a digit, that of its offset. -/
theorem exists_firstChar_showItem (p : Nat × Item) :
    ∃ d, firstChar (showItem p) = some d ∧ d.isDigit = true := by
  obtain ⟨d, hd, hdigit⟩ := exists_firstChar_showOffset p.1
  exact ⟨d, firstChar_append (firstChar_append hd _) _, hdigit⟩

/-- Every line of a listed block shows an item. -/
theorem exists_showItem_of_mem_lines {c : Code} {l : String} (h : l ∈ c.lines) :
    ∃ p, l = showItem p := by
  obtain ⟨items, hitems, hbytes⟩ := exists_reading c.bytes.toList
  rw [lines_eq hitems hbytes] at h
  obtain ⟨p, -, rfl⟩ := List.mem_map.mp h
  exact ⟨p, rfl⟩

/-- The lines of a listed block have no newlines. -/
theorem oneLine_lines (c : Code) : ∀ l ∈ c.lines, OneLine l := by
  intro l hl
  obtain ⟨p, rfl⟩ := exists_showItem_of_mem_lines hl
  exact oneLine_showItem p

/-- An opcode is found by its name. -/
theorem ofName?_name (op : Opcode) : Opcode.ofName? op.name = some op := by
  cases op <;> rfl

/-- The name of an instruction is what stands before the first blank. -/
theorem takeWhile_showInstr (i : Instr) :
    (showInstr i).toList.takeWhile (· ≠ ' ') = i.opcode.name.toList := by
  have hname : ∀ c ∈ i.opcode.name.toList, decide (c ≠ ' ') = true := by
    intro c hc
    refine decide_eq_true fun hblank => ?_
    exact notMem_name i.opcode (.inl rfl) (hblank ▸ hc)
  unfold showInstr
  split
  · rw [String.append_assoc, String.toList_append, List.takeWhile_append_of_pos hname]
    simp
  · exact List.takeWhile_eq_self_iff.mpr hname

/-- An instruction is determined by its opcode and its operand. -/
theorem instr_opcode (i : Instr) : i.opcode.instr (i.operand?.getD 0) = i := by
  cases i with
  | boolean b => cases b <;> rfl
  | arith op => cases op <;> rfl
  | constant n | setGlobal n | getGlobal n | getLocal n =>
    simp [Instr.opcode, Instr.operand?, Opcode.instr]
  | jump t | jumpIfNotTrue t => simp [Instr.opcode, Instr.operand?, Opcode.instr]
  | _ => rfl

/-- An instruction is told by how it is shown. -/
theorem showInstr_injective : Function.Injective showInstr := by
  intro i j h
  have hopcode : i.opcode = j.opcode := by
    have hname := takeWhile_showInstr i
    rw [h, takeWhile_showInstr j, String.toList_inj] at hname
    have hop := ofName?_name i.opcode
    rw [← hname, ofName?_name] at hop
    exact (Option.some.inj hop).symm
  have hoperand : i.operand? = j.operand? := by
    have hlonger (name digits : String) : name ≠ name ++ " " ++ digits := by
      intro heq
      have hlength := congrArg String.length heq
      simp only [String.length_append] at hlength
      have hblank : " ".length = 1 := rfl
      omega
    unfold showInstr at h
    rw [hopcode] at h
    cases hi : i.operand? with
    | none =>
      cases hj : j.operand? with
      | none => rfl
      | some n =>
        simp only [hi, hj] at h
        exact absurd h (hlonger _ _)
    | some m =>
      cases hj : j.operand? with
      | none =>
        simp only [hi, hj] at h
        exact absurd h.symm (hlonger _ _)
      | some n =>
        simp only [hi, hj] at h
        rw [Lexer.eq_of_toString_eq ((String.append_right_inj _).mp h)]
  rw [← instr_opcode i, ← instr_opcode j, hopcode, hoperand]

/-- Lines that show instructions from the same offset on tell them. -/
theorem eq_of_lines_eq {offset : Nat} {is is' : List Instr}
    (h : (placedItems offset (is.map .instr)).map showItem =
      (placedItems offset (is'.map .instr)).map showItem) : is = is' := by
  induction is generalizing offset is' with
  | nil =>
    cases is' with
    | nil => rfl
    | cons i' is' => cases h
  | cons i is ih =>
    cases is' with
    | nil => cases h
    | cons i' is' =>
      obtain ⟨hfirst, hrest⟩ := List.cons.inj h
      obtain rfl := showInstr_injective ((String.append_right_inj _).mp hfirst)
      rw [ih hrest]

/-- The listing of encoded instructions has a line for each of them. -/
theorem lines_ofInstrs (is : List Instr) :
    (ofInstrs is).lines = (placedItems 0 (is.map .instr)).map showItem :=
  lines_eq (reading_map_instr is) ((itemBytes_map_instr is).trans List.toList_toArray.symm)

/-- The whole block is instructions. -/
def Complete (c : Code) : Prop :=
  ∃ is, c.decode? = some is

/-- The lines of blocks of instructions tell them. -/
theorem Complete.eq_of_lines_eq {c c' : Code} (h : c.Complete) (h' : c'.Complete)
    (hlines : c.lines = c'.lines) : c = c' := by
  obtain ⟨is, his⟩ := h
  obtain ⟨is', his'⟩ := h'
  obtain rfl := decode?_eq_some_iff.mp his
  obtain rfl := decode?_eq_some_iff.mp his'
  rw [lines_ofInstrs, lines_ofInstrs] at hlines
  rw [Code.eq_of_lines_eq hlines]

end Code

/-! ## Constants -/

namespace Constant

/-- What the first character of a constant tells about it. -/
def mark : Constant → Char
  | .integer _ => '0'
  | .boolean true => 't'
  | .boolean false => 'f'
  | .nil => 'N'
  | .function _ => '<'

/-- The mark of a constant that begins with a character. -/
def markOf (d : Char) : Char :=
  if d.isDigit = true ∨ d = '-' then '0' else d

/-- The first character of a constant tells its mark. -/
theorem exists_firstChar_display (c : Constant) :
    ∃ d, firstChar c.display = some d ∧ c.mark = markOf d := by
  cases c with
  | integer n =>
    obtain ⟨d, hd, hsign⟩ := exists_firstChar_toString_int n
    exact ⟨d, hd, (if_pos hsign).symm⟩
  | boolean b => cases b <;> exact ⟨_, rfl, rfl⟩
  | nil => exact ⟨_, rfl, rfl⟩
  | function code =>
    refine ⟨'<', ?_, rfl⟩
    show firstChar ("<compiled function: " ++ toString code.size ++ " bytes>") = some '<'
    exact firstChar_append (firstChar_append rfl _) _

/-- Constants that are displayed alike have the same mark. -/
theorem mark_eq_of_display_eq {c c' : Constant} (h : c.display = c'.display) :
    c.mark = c'.mark := by
  obtain ⟨d, hd, hmark⟩ := c.exists_firstChar_display
  obtain ⟨d', hd', hmark'⟩ := c'.exists_firstChar_display
  rw [h, hd', Option.some_inj] at hd
  rw [hmark, hmark', hd]

/-- Constants that are shown alike are equal, unless they are functions. -/
theorem eq_or_function_of_display_eq {c c' : Constant} (h : c.display = c'.display) :
    c = c' ∨ ∃ code code', c = .function code ∧ c' = .function code' := by
  have hmark := mark_eq_of_display_eq h
  cases c with
  | integer n =>
    cases c' with
    | integer n' => exact .inl (congrArg Constant.integer (eq_of_toString_int_eq h))
    | boolean b' => cases b' <;> simp [mark] at hmark
    | _ => simp [mark] at hmark
  | boolean b =>
    cases c' with
    | boolean b' => cases b <;> cases b' <;> simp_all [mark]
    | _ => cases b <;> simp [mark] at hmark
  | nil =>
    cases c' with
    | nil => exact .inl rfl
    | boolean b' => cases b' <;> simp [mark] at hmark
    | _ => simp [mark] at hmark
  | function code =>
    cases c' with
    | function code' => exact .inr ⟨code, code', rfl, rfl⟩
    | boolean b' => cases b' <;> simp [mark] at hmark
    | _ => simp [mark] at hmark

/-- A constant is displayed on one line. -/
theorem oneLine_display (c : Constant) : OneLine c.display := by
  cases c with
  | integer n => exact oneLine_toString_int n
  | boolean b => cases b <;> decide
  | nil => decide
  | function code => exact ((by decide : OneLine _).append (oneLine_toString _)).append (by decide)

/-- The line that shows a constant of the pool. -/
def header (index : Nat) (c : Constant) : String :=
  toString index ++ ": " ++ c.display

/-- The lines of the body of a function, indented. -/
def bodyLines (c : Constant) : List String :=
  match c with
  | .function code => code.lines.map ("    " ++ ·)
  | _ => []

/-- The lines of a pool are those of its first constant and those of the rest. -/
theorem lines_cons (index : Nat) (c : Constant) (cs : List Constant) :
    Constant.lines index (c :: cs) =
      c.header index :: (c.bodyLines ++ Constant.lines (index + 1) cs) := by
  cases c <;> rfl

/-- The line of a constant has no newline. -/
theorem oneLine_header (index : Nat) (c : Constant) : OneLine (c.header index) :=
  ((oneLine_toString index).append (by decide)).append c.oneLine_display

/-- The line of a constant begins with a digit, that of its place. -/
theorem exists_firstChar_header (index : Nat) (c : Constant) :
    ∃ d, firstChar (c.header index) = some d ∧ d.isDigit = true := by
  obtain ⟨d, hd, hdigit⟩ := exists_firstChar_toString index
  exact ⟨d, firstChar_append (firstChar_append hd _) _, hdigit⟩

/-- The lines of a body are those of its code, indented. -/
theorem exists_of_mem_bodyLines {c : Constant} {l : String} (h : l ∈ c.bodyLines) :
    ∃ code l', c = .function code ∧ l' ∈ code.lines ∧ l = "    " ++ l' := by
  cases c with
  | function code =>
    obtain ⟨l', hl', rfl⟩ := List.mem_map.mp h
    exact ⟨code, l', rfl, hl', rfl⟩
  | _ => cases h

/-- The lines of a pool have no newlines. -/
theorem oneLine_lines (index : Nat) (cs : List Constant) :
    ∀ l ∈ Constant.lines index cs, OneLine l := by
  induction cs generalizing index with
  | nil => exact List.forall_mem_nil _
  | cons c cs ih =>
    rw [lines_cons]
    refine List.forall_mem_cons.mpr ⟨c.oneLine_header index, ?_⟩
    refine List.forall_mem_append.mpr ⟨fun l hl => ?_, ih (index + 1)⟩
    obtain ⟨code, l', -, hl', rfl⟩ := exists_of_mem_bodyLines hl
    exact OneLine.append (by decide) (code.oneLine_lines l' hl')

/-- The line of a constant does not begin as the body of a function does. -/
theorem head?_lines (index : Nat) (cs : List Constant) :
    ∀ l ∈ (Constant.lines index cs).head?, ¬firstChar l = some ' ' := by
  intro l hl hblank
  cases cs with
  | nil => cases hl
  | cons c cs =>
    rw [lines_cons, List.head?_cons, Option.mem_some_iff] at hl
    obtain ⟨d, hd, hdigit⟩ := c.exists_firstChar_header index
    rw [hl, hblank, Option.some_inj] at hd
    subst hd
    cases hdigit

/-- Constants that are displayed alike and have the same lines for their bodies are the same. -/
theorem eq_of_bodyLines_eq {c c' : Constant} (hc : ∀ code ∈ c.code?, code.Complete)
    (hc' : ∀ code ∈ c'.code?, code.Complete) (hdisplay : c.display = c'.display)
    (hbody : c.bodyLines = c'.bodyLines) : c = c' := by
  rcases eq_or_function_of_display_eq hdisplay with heq | ⟨code, code', rfl, rfl⟩
  · exact heq
  · have hindent : Function.Injective ("    " ++ · : String → String) :=
      fun _ _ h => (String.append_right_inj _).mp h
    have hlines : code.lines = code'.lines := (List.map_injective_iff.mpr hindent) hbody
    rw [(hc code rfl).eq_of_lines_eq (hc' code' rfl) hlines]

/-- The lines of constants tell them, if their functions are instructions. -/
theorem eq_of_lines_eq {index : Nat} {cs cs' : List Constant}
    (hcs : ∀ code ∈ cs.filterMap code?, code.Complete)
    (hcs' : ∀ code ∈ cs'.filterMap code?, code.Complete)
    (h : Constant.lines index cs = Constant.lines index cs') : cs = cs' := by
  induction cs generalizing index cs' with
  | nil =>
    cases cs' with
    | nil => rfl
    | cons c' cs' => rw [lines_cons] at h; cases h
  | cons c cs ih =>
    cases cs' with
    | nil => rw [lines_cons] at h; cases h
    | cons c' cs' =>
      have hblank (c : Constant) : ∀ l ∈ c.bodyLines, firstChar l = some ' ' := by
        intro l hl
        obtain ⟨code, l', -, -, rfl⟩ := exists_of_mem_bodyLines hl
        exact firstChar_append rfl l'
      have hfirst {c : Constant} {cs : List Constant}
          (h : ∀ code ∈ (c :: cs).filterMap code?, code.Complete) :
          (∀ code ∈ c.code?, code.Complete) ∧ ∀ code ∈ cs.filterMap code?, code.Complete := by
        refine ⟨fun code hcode => h code ?_, fun code hcode => h code ?_⟩
        · exact List.mem_filterMap.mpr ⟨c, List.mem_cons_self, hcode⟩
        · obtain ⟨d, hd, hcode⟩ := List.mem_filterMap.mp hcode
          exact List.mem_filterMap.mpr ⟨d, List.mem_cons_of_mem _ hd, hcode⟩
      rw [lines_cons, lines_cons] at h
      obtain ⟨hheader, htail⟩ := List.cons.inj h
      obtain ⟨hbody, hrest⟩ := append_inj_of_head? (hblank c) (hblank c') (head?_lines _ cs)
        (head?_lines _ cs') htail
      have hdisplay : c.display = c'.display := (String.append_right_inj _).mp hheader
      rw [eq_of_bodyLines_eq (hfirst hcs).1 (hfirst hcs').1 hdisplay hbody,
        ih (hfirst hcs).2 (hfirst hcs').2 hrest]

end Constant

/-! ## Programs -/

/-- The lines of the part of a listing on constants. -/
def Bytecode.constantLines (b : Bytecode) : List String :=
  match b.constants.toList with
  | [] => []
  | cs => "== constants ==" :: Constant.lines 0 cs

namespace Bytecode

/-- A listing is the lines of the main block and those of the constants, each under its title. -/
theorem listing_eq (b : Bytecode) :
    b.listing = join ("== main ==" :: (b.main.lines ++ b.constantLines)) :=
  rfl

/-- Constants are listed under their title, unless there are none. -/
theorem constantLines_eq (b : Bytecode) :
    b.constantLines = [] ∧ b.constants.toList = [] ∨
      b.constantLines = "== constants ==" :: Constant.lines 0 b.constants.toList := by
  unfold constantLines
  split
  · next hnil => exact .inl ⟨rfl, hnil⟩
  · exact .inr rfl

/-- The lines on constants have no newlines. -/
theorem oneLine_constantLines (b : Bytecode) : ∀ l ∈ b.constantLines, OneLine l := by
  rcases b.constantLines_eq with ⟨hlines, -⟩ | hlines
  · rw [hlines]
    exact List.forall_mem_nil _
  · rw [hlines]
    exact List.forall_mem_cons.mpr ⟨by decide, Constant.oneLine_lines 0 _⟩

/-- Bytecode whose blocks are instructions is told by its listing. -/
theorem eq_of_listing_eq {b b' : Bytecode} (hb : ∀ c ∈ b.blocks, c.Complete)
    (hb' : ∀ c ∈ b'.blocks, c.Complete) (h : b.listing = b'.listing) : b = b' := by
  have honeLine (b : Bytecode) :
      ∀ l ∈ "== main ==" :: (b.main.lines ++ b.constantLines), OneLine l :=
    List.forall_mem_cons.mpr ⟨by decide,
      List.forall_mem_append.mpr ⟨b.main.oneLine_lines, b.oneLine_constantLines⟩⟩
  have hdigit (b : Bytecode) :
      ∀ l ∈ b.main.lines, ∃ d, firstChar l = some d ∧ d.isDigit = true := by
    intro l hl
    obtain ⟨p, rfl⟩ := Code.exists_showItem_of_mem_lines hl
    exact Code.exists_firstChar_showItem p
  have htitle (b : Bytecode) :
      ∀ l ∈ b.constantLines.head?, ¬∃ d, firstChar l = some d ∧ d.isDigit = true := by
    rintro l hl ⟨d, hd, hdigit⟩
    rcases b.constantLines_eq with ⟨hlines, -⟩ | hlines
    · rw [hlines] at hl
      cases hl
    · rw [hlines, List.head?_cons, Option.mem_some_iff] at hl
      subst hl
      cases hd
      cases hdigit
  -- lines of the main block begin with a digit and the title of the constants does not, so the
  -- listing can be cut where the block ends
  rw [listing_eq, listing_eq] at h
  obtain ⟨-, hlines⟩ := List.cons.inj (join_inj (honeLine b) (honeLine b') h)
  obtain ⟨hmain, hconstants⟩ :=
    append_inj_of_head? (hdigit b) (hdigit b') (htitle b) (htitle b') hlines
  obtain ⟨hbmain, hbpool⟩ := List.forall_mem_cons.mp hb
  obtain ⟨hbmain', hbpool'⟩ := List.forall_mem_cons.mp hb'
  have hpool : b.constants.toList = b'.constants.toList := by
    rcases b.constantLines_eq with ⟨hb, hnil⟩ | hb
    · rcases b'.constantLines_eq with ⟨hb', hnil'⟩ | hb'
      · rw [hnil, hnil']
      · rw [hb, hb'] at hconstants
        cases hconstants
    · rcases b'.constantLines_eq with ⟨hb', hnil'⟩ | hb'
      · rw [hb, hb'] at hconstants
        cases hconstants
      · rw [hb, hb'] at hconstants
        exact Constant.eq_of_lines_eq hbpool hbpool' (List.cons.inj hconstants).2
  cases b
  cases b'
  obtain rfl := hbmain.eq_of_lines_eq hbmain' hmain
  obtain rfl := Array.toList_inj.mp hpool
  rfl

end Bytecode

/-- The blocks of an accepted program are instructions. -/
theorem complete_of_compile {program : Program} {b : Bytecode} (h : compile program = .ok b) :
    ∀ c ∈ b.blocks, c.Complete := by
  obtain ⟨c, hcompiled⟩ := compiled_of_compile h
  obtain ⟨scope, hemit⟩ := hcompiled.emit_eq
  obtain ⟨-, bodies, hcode, -⟩ := Program.pooled_of_emit hemit
  intro code hmem
  rw [Bytecode.blocks, hcompiled.main_eq, hcode, ← List.map_cons] at hmem
  obtain ⟨is, -, rfl⟩ := List.mem_map.mp hmem
  exact ⟨is, Code.decode?_ofInstrs is⟩

/-- **Listings are faithful.** The bytes of any block are made of items in exactly one way, and the
listing of the block has one line for each of them and no others, at larger and larger offsets; what
is fetched at each of these offsets is the item. Two blocks that are instructions throughout and have
the same listing have the same bytes. Two accepted programs whose bytecode has the same listing have
the same main block and the same pool. -/
theorem listing_faithful :
    (∀ c : Code, ∃ items : List Code.Item,
      (∀ items', Code.Reading items' ∧ Code.itemBytes items' = c.bytes.toList ↔ items' = items) ∧
      Lines.split c.listing.toList =
        (Code.placedItems 0 items).map (fun p => (Code.showItem p).toList) ++ [[]] ∧
      (∀ p ∈ Code.placedItems 0 items, c.fetch p.1 = p.2.fetch) ∧
      ((Code.placedItems 0 items).map Prod.fst).Pairwise (· < ·)) ∧
    (∀ (c c' : Code) (is is' : List Instr), c.decode? = some is → c'.decode? = some is' →
      c.listing = c'.listing → c.bytes = c'.bytes) ∧
    (∀ (p q : Program) (b b' : Bytecode), compile p = .ok b → compile q = .ok b' →
      b.listing = b'.listing → b.main = b'.main ∧ b.constants = b'.constants) := by
  refine ⟨fun c => ?_, fun c c' is is' h h' hlisting => ?_, fun p q b b' hp hq hlisting => ?_⟩
  · obtain ⟨items, hitems⟩ := Code.existsUnique_reading c.bytes.toList
    obtain ⟨hreading, hbytes⟩ := (hitems items).mpr rfl
    refine ⟨items, hitems, ?_, fun p hp => ?_, Code.pairwise_placedItems 0 items⟩
    · rw [Code.listing, split_join c.oneLine_lines, Code.lines_eq hreading hbytes, List.map_map]
      rfl
    · exact @Code.fetch_of_mem_placedItems c [] items hreading hbytes.symm p hp
  · have hlines : c.lines = c'.lines := join_inj c.oneLine_lines c'.oneLine_lines hlisting
    rw [Code.Complete.eq_of_lines_eq ⟨is, h⟩ ⟨is', h'⟩ hlines]
  · rw [Bytecode.eq_of_listing_eq (complete_of_compile hp) (complete_of_compile hq) hlisting]
    exact ⟨rfl, rfl⟩

/-- A byte that names no opcode in front of an opcode without its operand takes a line of its own;
and whatever is listed as `shadowedStart` is has the bytecode of `shadowedStart`. -/
theorem listing_faithful_cutOff :
    Lines.split (Code.listing ⟨#[99, 0]⟩).toList =
      ["0000 <unknown opcode 99>".toList, "0001 CONSTANT <truncated>".toList, []] ∧
    compile shadowedStart = .ok shadowedStartCode ∧
    ∀ (q : Program) (b : Bytecode), compile q = .ok b → shadowedStartCode.listing = b.listing →
      shadowedStartCode.main = b.main ∧ shadowedStartCode.constants = b.constants := by
  obtain ⟨hblocks, -, hprograms⟩ := listing_faithful
  have hcompile : compile shadowedStart = .ok shadowedStartCode := rfl
  refine ⟨?_, hcompile, fun q b => hprograms shadowedStart q shadowedStartCode b hcompile⟩
  obtain ⟨items, hitems, hlines, -⟩ := hblocks ⟨#[99, 0]⟩
  obtain rfl : [.unknown 99, .truncated .constant []] = items :=
    (hitems _).mp ⟨.unknown rfl (.truncated (by decide)), rfl⟩
  exact hlines

end Duet
