import Duet.Machine.Basic
import Duet.Proofs.Emission

/-!
# Stack heights in compiled code

In compiled code the height of the stack at a boundary can be read off the instructions before
it, without running them: `height h is` adds up what each one does, and counts a `jump` as taking
one value away, because it ends the first arm of a conditional and the second arm begins without
the value of the first.

* `Balanced K slots locals o h c h'`: the code `c`, standing at offset `o` and begun at height `h`,
  ends at height `h'`. It never touches the `locals` lowest values, reads only global slots below
  `slots` and only constants that are in the pool, jumps only forward and inside itself, and the
  functions that it loads are balanced in the same way. Expressions are compiled to such code
  (`Emits.balanced`).
* `SafeAt`: what has to hold at a boundary of a block so that the instruction there can be carried
  out. `Balanced.safeAt` and `ProgramEmits.safeAt` establish it at every boundary of a function
  and of the main block.
-/

namespace Duet

/-! ## Heights -/

/-- The height after an instruction, from the height before it. -/
def Instr.heightAfter (h : Nat) : Instr → Nat
  | .constant _ | .boolean _ | .nil | .getGlobal _ | .getLocal _ => h + 1
  | .not | .negate => h
  | .arith _ | .equal | .notEqual | .call | .pop | .setGlobal _ | .jumpIfNotTrue _ | .jump _
  | .return_ => h - 1

/-- The height after a list of instructions, from the height before it. -/
def height (h : Nat) (is : List Instr) : Nat :=
  is.foldl Instr.heightAfter h

@[simp] theorem height_nil (h : Nat) : height h [] = h := rfl

@[simp] theorem height_cons (h : Nat) (i : Instr) (is : List Instr) :
    height h (i :: is) = height (i.heightAfter h) is := rfl

/-- The heights of code in two parts follow one another. -/
@[simp] theorem height_append (h : Nat) (a b : List Instr) :
    height h (a ++ b) = height (height h a) b :=
  List.foldl_append

/-- Whether an instruction sets a global. -/
def Instr.setsGlobal : Instr → Bool
  | .setGlobal _ => true
  | _ => false

/-- The number of instructions that set a global. -/
def setCount (is : List Instr) : Nat :=
  is.countP Instr.setsGlobal

@[simp] theorem setCount_nil : setCount [] = 0 := rfl

/-- Code in two parts sets the globals of both. -/
@[simp] theorem setCount_append (a b : List Instr) :
    setCount (a ++ b) = setCount a + setCount b :=
  List.countP_append

@[simp] theorem setCount_cons (i : Instr) (is : List Instr) :
    setCount (i :: is) = setCount is + if i.setsGlobal then 1 else 0 :=
  List.countP_cons

/-! ## Balanced code -/

/-- What has to hold for an instruction that neither jumps nor ends a statement or a function, at
a given height. -/
def Instr.Fits (K : Array Constant) (slots locals h : Nat) : Instr → Prop
  | .constant i => ∃ v, K[i.toNat]? = some v ∧ ∀ code, v ≠ .function code
  | .boolean _ | .nil => True
  | .arith _ | .equal | .notEqual | .call => locals + 2 ≤ h
  | .not | .negate => locals + 1 ≤ h
  | .getGlobal i => i.toNat < slots
  | .getLocal i => i.toNat < locals
  | .pop | .setGlobal _ | .jump _ | .jumpIfNotTrue _ | .return_ => False

/-- Code that is built from fitting instructions, functions and conditionals; see the head of
this file. -/
inductive Balanced (K : Array Constant) (slots : Nat) :
    (locals offset before : Nat) → List Instr → (after : Nat) → Prop
  | instr {locals o h i} : i.Fits K slots locals h →
      Balanced K slots locals o h [i] (i.heightAfter h)
  | function {locals o h i body} :
      K[i.toNat]? = some (.function (.ofInstrs (body ++ [.return_]))) →
      Balanced K slots 1 0 1 body 2 → Balanced K slots locals o h [.constant i] (h + 1)
  | append {locals o h h' h'' a b} : Balanced K slots locals o h a h' →
      Balanced K slots locals (o + codeSize a) h' b h'' →
      Balanced K slots locals o h (a ++ b) h''
  | branches {locals o h a b start stop} : locals ≤ h →
      Balanced K slots locals (o + 3) h a (h + 1) →
      Balanced K slots locals start h b (h + 1) →
      start = o + 3 + codeSize a + 3 → stop = start + codeSize b → stop ≤ maxTarget →
      Balanced K slots locals o (h + 1)
        (.jumpIfNotTrue start.toUInt16 :: (a ++ .jump stop.toUInt16 :: b)) (h + 1)

namespace Balanced

variable {K : Array Constant} {slots slots' locals o h h' : Nat} {c : List Instr}

/-- Balanced code has the heights that it says. -/
theorem height_eq (hb : Balanced K slots locals o h c h') : height h c = h' := by
  induction hb with
  | instr _ => rfl
  | function _ _ _ => rfl
  | append _ _ iha ihb => rw [height_append, iha, ihb]
  | branches _ _ _ _ _ _ iha ihb =>
    rw [height_cons, height_append, height_cons]
    simp only [Instr.heightAfter, Nat.add_sub_cancel, iha, ihb]

/-- Balanced code sets no globals. -/
theorem setCount_eq_zero (hb : Balanced K slots locals o h c h') : setCount c = 0 := by
  induction hb with
  | @instr _ _ _ i hfit => cases i <;> simp_all [Instr.setsGlobal, Instr.Fits]
  | function _ _ _ => rfl
  | append _ _ iha ihb => rw [setCount_append, iha, ihb]
  | branches _ _ _ _ _ _ iha ihb => simp [iha, ihb, Instr.setsGlobal]

/-- Balanced code stays balanced when more globals have been set. -/
theorem mono (hb : Balanced K slots locals o h c h') (hle : slots ≤ slots') :
    Balanced K slots' locals o h c h' := by
  induction hb with
  | @instr _ _ _ i hfit =>
    refine .instr ?_
    cases i <;> first | exact hfit | exact Nat.lt_of_lt_of_le hfit hle
  | function hk _ ih => exact .function hk ih
  | append _ _ iha ihb => exact .append iha ihb
  | branches hl _ _ hstart hstop hmax iha ihb => exact .branches hl iha ihb hstart hstop hmax

end Balanced

/-! ## Expressions are balanced -/

/-- Every name of the table has a slot that was handed out. -/
def SlotTable.Bounded (T : SlotTable) : Prop :=
  ∀ x i, T.slot? x = some i → i < T.count

/-- The empty table has no name whose slot was not handed out. -/
theorem SlotTable.bounded_empty : SlotTable.empty.Bounded := by
  intro x i h
  simp [empty, slot?] at h

/-- A definition hands out the slot that it gives to its name. -/
theorem SlotTable.Bounded.define {T : SlotTable} (hT : T.Bounded) (name : String) :
    (T.define name).Bounded := by
  intro x i h
  by_cases hx : x = name
  · subst hx
    rw [slot?_define_self, Option.some.injEq] at h
    exact h ▸ Nat.lt_succ_self _
  · rw [slot?_define_of_ne T hx] at h
    exact Nat.lt_succ_of_lt (hT x i h)

/-- A slot keeps its number in a byte. -/
theorem toNat_toUInt8 {n : Nat} (h : n < maxSlots) : n.toUInt8.toNat = n := by
  rw [Nat.toUInt8, UInt8.toNat_ofNat']
  exact Nat.mod_eq_of_lt h

/-- A target keeps its offset in two bytes. -/
theorem toNat_toUInt16 {n : Nat} (h : n ≤ maxTarget) : n.toUInt16.toNat = n := by
  rw [Nat.toUInt16, UInt16.toNat_ofNat']
  exact Nat.mod_eq_of_lt (Nat.lt_succ_of_le h)

/-- The code of an expression leaves one value more. Inside functions there is one local. -/
theorem Emits.balanced {K : Array Constant} {T : SlotTable} {Q : String → Nat → Prop}
    {ps : List String} {e : Expr} {o p p' : Nat} {c : List Instr}
    (he : Emits K (T.Reads Q) ps e o p c p') (hT : T.Bounded) {locals h : Nat}
    (hlocals : ps ≠ [] → locals = 1) (hle : locals ≤ h) :
    Balanced K T.count locals o h c (h + 1) := by
  induction he generalizing locals h with
  | integer hp hk =>
    rw [← toNat_toUInt8 hp] at hk
    exact .instr ⟨_, hk, nofun⟩
  | boolean => exact .instr trivial
  | nil => exact .instr trivial
  | local_ =>
    have hone := hlocals (List.cons_ne_nil _ _)
    exact .instr (show (0 : Nat) < locals by omega)
  | @global _ _ x i _ _ _ hr =>
    refine .instr (Nat.lt_of_le_of_lt ?_ (hT x i hr.1))
    rw [Nat.toUInt8, UInt8.toNat_ofNat']
    exact Nat.mod_le _ _
  | @unary _ _ op _ _ _ _ _ _ ih =>
    refine .append (ih hlocals hle) ?_
    cases op with
    | not => exact .instr (Nat.succ_le_succ hle)
    | negate => exact .instr (Nat.succ_le_succ hle)
  | @binary _ _ op i _ _ _ _ _ _ _ _ hop _ _ ihl ihr =>
    refine .append (ihl hlocals hle) (.append (ihr hlocals (Nat.le_succ_of_le hle)) ?_)
    have hfit : locals + 2 ≤ h + 1 + 1 := by omega
    cases op <;> simp only [BinaryOp.instr?, Option.some.injEq, reduceCtorEq] at hop
    all_goals
      subst hop
      exact .instr hfit
  | ifThen _ _ hstart hstop hmax ihc iht =>
    refine .append (ihc hlocals hle) (.branches hle (iht hlocals hle) ?_ hstart hstop hmax)
    exact .instr trivial
  | ifElse _ _ _ hstart hstop hmax ihc iht ihe =>
    exact .append (ihc hlocals hle)
      (.branches hle (iht hlocals hle) (ihe hlocals hle) hstart hstop hmax)
  | @lambda _ _ _ _ _ _ _ p' _ hp hk ih =>
    have hplace : p'.toUInt8.toNat = p' := toNat_toUInt8 hp
    -- the body runs in a frame of its own, with its argument as the only local
    refine .function ?_ (ih (fun _ => rfl) (Nat.le_refl 1))
    rw [hplace]
    exact hk
  | apply _ _ iha ihf =>
    refine .append (iha hlocals hle) (.append (ihf hlocals (Nat.le_succ_of_le hle)) ?_)
    exact .instr (show locals + 2 ≤ h + 1 + 1 by omega)

/-! ## Safe boundaries -/

/-- A value that, if it is a function, is one whose code is balanced once `slots` globals are
set. -/
def Machine.Value.Callable (K : Array Constant) (slots : Nat) : Machine.Value → Prop
  | .function _ code =>
    ∃ body, code = .ofInstrs (body ++ [.return_]) ∧ Balanced K slots 1 0 1 body 2
  | .integer _ | .boolean _ | .nil => True

/-- What can be called can be called when more globals are set. -/
theorem Machine.Value.Callable.mono {K : Array Constant} {slots slots' : Nat} {v : Machine.Value}
    (hv : v.Callable K slots) (hle : slots ≤ slots') : v.Callable K slots' := by
  cases v with
  | function i code =>
    obtain ⟨body, rfl, hb⟩ := hv
    exact ⟨body, rfl, hb.mono hle⟩
  | _ => trivial

/-- The offset `t` is a later boundary of `body` at height `h`, and no global is set in between. -/
def Target (locals : Nat) (body pre : List Instr) (t : UInt16) (h : Nat) : Prop :=
  ∃ pre' rest', body = pre' ++ rest' ∧ codeSize pre' = t.toNat ∧ codeSize pre < codeSize pre' ∧
    height locals pre' = h ∧ setCount pre' = setCount pre

/-- The instruction between `pre` and `rest` in `body` can be carried out, when `slots` globals
are set at the start of `body`. A constant that is a function may need one global more if the
next instruction is the one that sets it. -/
def Instr.SafeAt (K : Array Constant) (slots locals : Nat) (body pre rest : List Instr) :
    Instr → Prop
  | .constant i => ∃ v limit, K[i.toNat]? = some v ∧
      (Machine.Value.ofConstant i.toNat v).Callable K limit ∧
      (limit = slots + setCount pre ∨ limit = slots + setCount pre + 1 ∧ locals = 0 ∧
        ∃ s rest', rest = .setGlobal s :: rest')
  | .boolean _ | .nil => True
  | .arith _ | .equal | .notEqual | .call => locals + 2 ≤ height locals pre
  | .not | .negate => locals + 1 ≤ height locals pre
  | .getGlobal i => i.toNat < slots + setCount pre
  | .getLocal i => i.toNat < locals
  | .jump t => locals + 1 ≤ height locals pre ∧ Target locals body pre t (height locals pre)
  | .jumpIfNotTrue t =>
    locals + 1 ≤ height locals pre ∧ Target locals body pre t (height locals pre - 1)
  | .pop => locals = 0 ∧ height locals pre = 1
  | .setGlobal s => locals = 0 ∧ height locals pre = 1 ∧ s.toNat = slots + setCount pre
  | .return_ => False

/-- A jump that can be carried out has its target in the block. -/
theorem Instr.SafeAt.exists_target {K : Array Constant} {slots locals : Nat}
    {body pre rest : List Instr} {i : Instr} (h : i.SafeAt K slots locals body pre rest)
    {t : UInt16} (hi : i = .jump t ∨ i = .jumpIfNotTrue t) : ∃ n, Target locals body pre t n := by
  rcases hi with rfl | rfl
  · exact ⟨_, h.2⟩
  · exact ⟨_, h.2⟩

/-- A place in two lists in a row is in the first or in the second. -/
theorem append_eq_append_cons {a b pre rest : List Instr} {i : Instr}
    (h : a ++ b = pre ++ i :: rest) :
    (∃ r, a = pre ++ i :: r ∧ rest = r ++ b) ∨ ∃ q, pre = a ++ q ∧ b = q ++ i :: rest := by
  rcases List.append_eq_append_iff.mp h with ⟨q, hq, hb⟩ | ⟨r, ha, hr⟩
  · exact .inr ⟨q, hq, hb⟩
  · cases r with
    | nil => exact .inr ⟨[], by simpa using ha.symm, hr.symm⟩
    | cons y r =>
      obtain ⟨rfl, rfl⟩ := List.cons.inj hr
      exact .inl ⟨r, ha, rfl⟩

/-- A place in a list that has `x` in its middle is before `x`, at `x`, or behind it. -/
theorem append_cons_eq_append_cons {a b pre rest : List Instr} {x i : Instr}
    (h : a ++ x :: b = pre ++ i :: rest) :
    (∃ r, a = pre ++ i :: r ∧ rest = r ++ x :: b) ∨ (pre = a ∧ i = x ∧ rest = b) ∨
      ∃ q, pre = a ++ x :: q ∧ b = q ++ i :: rest := by
  rcases append_eq_append_cons h with hl | ⟨q, rfl, hq⟩
  · exact .inl hl
  · cases q with
    | nil =>
      obtain ⟨rfl, rfl⟩ := List.cons.inj hq
      exact .inr (.inl ⟨List.append_nil a, rfl, rfl⟩)
    | cons y q =>
      obtain ⟨rfl, rfl⟩ := List.cons.inj hq
      exact .inr (.inr ⟨q, rfl, rfl⟩)

/-- A fitting instruction can be carried out. -/
theorem Instr.Fits.safeAt {K : Array Constant} {slots locals : Nat} {i : Instr}
    {body pre rest : List Instr}
    (hfit : i.Fits K (slots + setCount pre) locals (height locals pre)) :
    i.SafeAt K slots locals body pre rest := by
  cases i with
  | constant n =>
    obtain ⟨v, hv, hplain⟩ := hfit
    refine ⟨v, _, hv, ?_, .inl rfl⟩
    cases v with
    | function code => exact absurd rfl (hplain code)
    | _ => trivial
  | pop | setGlobal _ | jump _ | jumpIfNotTrue _ => exact hfit.elim
  | _ => exact hfit

namespace Balanced

/-- Balanced code does not reach below the locals. -/
theorem le_after {K : Array Constant} {slots locals o h h' : Nat} {c : List Instr}
    (hb : Balanced K slots locals o h c h') (hle : locals ≤ h) : locals ≤ h' := by
  induction hb with
  | @instr _ _ _ i hfit =>
    cases i <;> simp only [Instr.Fits, Instr.heightAfter] at * <;> omega
  | function _ _ _ => exact Nat.le_succ_of_le hle
  | append _ _ iha ihb => exact ihb (iha hle)
  | branches _ _ _ _ _ _ _ _ => exact hle

/-- Every boundary of balanced code is safe, and the locals are left alone there. The code stands
between `A` and `B`; the induction is on how it was built, so that targets of jumps need not be
moved from a part to the whole. -/
theorem safeAt {K : Array Constant} {slots n locals o h h' : Nat} {c : List Instr}
    (hb : Balanced K n locals o h c h') (A B : List Instr) (hle : locals ≤ h)
    (hsize : codeSize A = o) (hheight : height locals A = h) (hn : n = slots + setCount A)
    (pre rest : List Instr) (i : Instr) (hc : c = pre ++ i :: rest) :
    locals ≤ height locals (A ++ pre) ∧
      i.SafeAt K slots locals (A ++ c ++ B) (A ++ pre) (rest ++ B) := by
  induction hb generalizing A B pre rest i with
  | @instr _ _ _ j hfit =>
    obtain ⟨rfl, rfl, rfl⟩ : pre = [] ∧ j = i ∧ rest = [] := by
      cases pre <;> simp_all
    rw [List.append_nil, hheight]
    refine ⟨hle, ?_⟩
    subst hheight hn
    exact hfit.safeAt
  | @function _ _ _ j fbody hk hfun _ =>
    obtain ⟨rfl, rfl, rfl⟩ : pre = [] ∧ .constant j = i ∧ rest = [] := by
      cases pre <;> simp_all
    rw [List.append_nil, hheight]
    exact ⟨hle, _, n, hk, ⟨fbody, rfl, hfun⟩, .inl hn⟩
  | @append locals _ _ h₁ _ a b ha _ iha ihb =>
    rcases append_eq_append_cons hc with ⟨r, rfl, rfl⟩ | ⟨q, rfl, rfl⟩
    · have := iha A (b ++ B) hle hsize hheight hn pre r i rfl
      simpa using this
    · have hmid : height locals (A ++ a) = h₁ := by rw [height_append, hheight, ha.height_eq]
      have hset : n = slots + setCount (A ++ a) := by
        rw [setCount_append, ha.setCount_eq_zero, hn, Nat.add_zero]
      have := ihb (A ++ a) B (ha.le_after hle) (by rw [codeSize_append, hsize]) hmid hset q rest i
        rfl
      simpa using this
  | @branches locals o h a b start stop hl ha hb' hstart hstop hmax iha ihb =>
    -- the four boundaries of a conditional: its first jump, the first arm, its second jump, and
    -- the second arm
    have hstart' : start.toUInt16.toNat = start := toNat_toUInt16 (by omega)
    have hstop' : stop.toUInt16.toNat = stop := toNat_toUInt16 hmax
    generalize start.toUInt16 = t at *
    generalize stop.toUInt16 = u at *
    have hsizeA : codeSize (A ++ [.jumpIfNotTrue t]) = o + 3 := by
      simp [hsize, Instr.size]
    have hheightA : height locals (A ++ [.jumpIfNotTrue t]) = h := by
      simp [hheight, Instr.heightAfter]
    have hsetA : n = slots + setCount (A ++ [.jumpIfNotTrue t]) := by
      simpa [Instr.setsGlobal] using hn
    have hsizeB : codeSize (A ++ .jumpIfNotTrue t :: (a ++ [.jump u])) = start := by
      simp only [codeSize_append, codeSize_cons, codeSize_nil, Instr.size]
      omega
    have hheightB : height locals (A ++ .jumpIfNotTrue t :: (a ++ [.jump u])) = h := by
      simp [hheight, Instr.heightAfter, ha.height_eq]
    have hsetB : n = slots + setCount (A ++ .jumpIfNotTrue t :: (a ++ [.jump u])) := by
      simpa [Instr.setsGlobal, ha.setCount_eq_zero] using hn
    cases pre with
    | nil =>
      obtain ⟨rfl, rfl⟩ := List.cons.inj hc
      rw [List.append_nil]
      refine ⟨by omega, by omega, A ++ .jumpIfNotTrue t :: (a ++ [.jump u]), b ++ B, ?_, ?_, ?_, ?_,
        ?_⟩
      · simp
      · rw [hsizeB, hstart']
      · rw [hsizeB]
        omega
      · rw [hheightB, hheight, Nat.add_sub_cancel]
      · omega
    | cons x pre =>
      rw [List.cons_append] at hc
      obtain ⟨rfl, htail⟩ := List.cons.inj hc
      rcases append_cons_eq_append_cons htail with ⟨r, rfl, rfl⟩ | ⟨rfl, rfl, rfl⟩ | ⟨q, rfl, rfl⟩
      · have := iha (A ++ [.jumpIfNotTrue t]) (.jump u :: b ++ B) hl hsizeA hheightA hsetA pre r i
          rfl
        simpa using this
      · have hheightM : height locals (A ++ .jumpIfNotTrue t :: pre) = h + 1 := by
          simp [hheight, Instr.heightAfter, ha.height_eq]
        rw [hheightM]
        refine ⟨by omega, ?_, A ++ .jumpIfNotTrue t :: (pre ++ .jump u :: rest), B, ?_, ?_, ?_, ?_,
          ?_⟩
        · rw [hheightM]
          omega
        · simp
        · simp only [codeSize_append, codeSize_cons, Instr.size]
          omega
        · simp only [codeSize_append, codeSize_cons, Instr.size]
          omega
        · simp [hheight, Instr.heightAfter, ha.height_eq, hb'.height_eq]
        · simp [Instr.setsGlobal, hb'.setCount_eq_zero]
      · have := ihb (A ++ .jumpIfNotTrue t :: (a ++ [.jump u])) B hl hsizeB hheightB hsetB q rest i
          rfl
        simpa using this

end Balanced

/-! ## The main block -/

section main

variable {K : Array Constant} {Q : String → Nat → Prop} {A c c' : List Instr} {x : Instr}

/-- Where the code of a statement ends that begins at `o` and ends in `x`. -/
theorem codeSize_statement {o : Nat} (h : codeSize A = o) :
    codeSize (A ++ c ++ [x]) = o + codeSize c + x.size := by
  rw [codeSize_append, codeSize_append, h]
  rfl

/-- A block is safe behind `A` if the code of a statement in front of it is, and the instruction
that ends the statement, and the code of the statements that follow. -/
theorem safeAt_of_statement
    (hstmt : ∀ pre rest i, c = pre ++ i :: rest →
      i.SafeAt K 0 0 (A ++ c ++ x :: c') (A ++ pre) (rest ++ x :: c'))
    (hlast : x.SafeAt K 0 0 (A ++ c ++ x :: c') (A ++ c) c')
    (hnext : ∀ pre rest i, c' = pre ++ i :: rest →
      i.SafeAt K 0 0 (A ++ c ++ [x] ++ c') (A ++ c ++ [x] ++ pre) rest)
    (pre rest : List Instr) (i : Instr) (hc : c ++ x :: c' = pre ++ i :: rest) :
    i.SafeAt K 0 0 (A ++ (c ++ x :: c')) (A ++ pre) rest := by
  rcases append_cons_eq_append_cons hc with ⟨r, rfl, rfl⟩ | ⟨rfl, rfl, rfl⟩ | ⟨q, rfl, rfl⟩
  · simpa using hstmt pre r i rfl
  · simpa using hlast
  · simpa using hnext q rest i rfl

/-- A function that is being defined may read the global that it is about to be stored in. -/
theorem Emits.safeAt_defineFunction {T : SlotTable} {name : String} {e : Expr} {o p p' : Nat}
    (he : Emits K ((T.define name).Reads Q) [] e o p c p') (hT : T.Bounded)
    (hl : e.isLambda = true) (hset : setCount A = T.count) {s : UInt8}
    (pre rest : List Instr) (i : Instr) (hc : c = pre ++ i :: rest) :
    i.SafeAt K 0 0 (A ++ c ++ .setGlobal s :: c') (A ++ pre) (rest ++ .setGlobal s :: c') := by
  cases he with
  | @lambda _ _ _ _ _ _ fbody p' hbody hp hk =>
    obtain ⟨rfl, rfl, rfl⟩ : pre = [] ∧ .constant p'.toUInt8 = i ∧ rest = [] := by
      cases pre <;> simp_all
    rw [← toNat_toUInt8 hp] at hk
    have hfun := hbody.balanced (hT.define name) (fun _ => rfl) (Nat.le_refl 1)
    refine ⟨_, T.count + 1, hk, ⟨fbody, rfl, hfun⟩, .inr ⟨?_, rfl, s, c', rfl⟩⟩
    rw [List.append_nil, hset, Nat.zero_add]
  | _ => simp [Expr.isLambda] at hl

/-- Where one statement has ended and the next begins: the code `A` so far ends at offset `o`,
leaves the stack empty and has set `count` globals. -/
structure Between (A : List Instr) (o count : Nat) : Prop where
  size_eq : codeSize A = o
  height_eq : height 0 A = 0
  setCount_eq : setCount A = count

namespace Between

variable {o count globals : Nat}

/-- The value of a statement is the only one on the stack behind its code. -/
theorem height_append_of_balanced (h : Between A o count) (hb : Balanced K globals 0 o 0 c 1) :
    height 0 (A ++ c) = 1 := by
  rw [height_append, h.height_eq, hb.height_eq]

/-- The value of a statement sets no globals. -/
theorem setCount_append_of_balanced (h : Between A o count) (hb : Balanced K globals 0 o 0 c 1) :
    setCount (A ++ c) = count := by
  rw [setCount_append, hb.setCount_eq_zero, h.setCount_eq, Nat.add_zero]

/-- A `pop` ends a statement. -/
theorem pop (h : Between A o count) (hb : Balanced K globals 0 o 0 c 1) :
    Between (A ++ c ++ [.pop]) (o + codeSize c + 1) count where
  size_eq := codeSize_statement h.size_eq
  height_eq := by
    rw [height_append, h.height_append_of_balanced hb]
    rfl
  setCount_eq := by
    rw [setCount_append, h.setCount_append_of_balanced hb]
    rfl

/-- The setting of a global ends a statement. -/
theorem setGlobal (h : Between A o count) (hb : Balanced K globals 0 o 0 c 1) (slot : UInt8) :
    Between (A ++ c ++ [.setGlobal slot]) (o + codeSize c + 2) (count + 1) where
  size_eq := codeSize_statement h.size_eq
  height_eq := by
    rw [height_append, h.height_append_of_balanced hb]
    rfl
  setCount_eq := by
    rw [setCount_append, h.setCount_append_of_balanced hb]
    rfl

/-- The next free slot may be set behind the code of a value. -/
theorem safeAt_setGlobal (h : Between A o count) (hb : Balanced K globals 0 o 0 c 1)
    (hslot : count < maxSlots) (rest : List Instr) :
    (Instr.setGlobal count.toUInt8).SafeAt K 0 0 (A ++ c ++ .setGlobal count.toUInt8 :: rest)
      (A ++ c) rest := by
  refine ⟨rfl, h.height_append_of_balanced hb, ?_⟩
  rw [toNat_toUInt8 hslot, h.setCount_append_of_balanced hb, Nat.zero_add]

end Between

/-- Every boundary of the main block of an accepted program is safe. -/
theorem ProgramEmits.safeAt {T : SlotTable} {program : Program} {o p : Nat}
    (hp : ProgramEmits K Q T program o p c) (hT : T.Bounded) (A : List Instr)
    (hA : Between A o T.count) (pre rest : List Instr) (i : Instr) (hc : c = pre ++ i :: rest) :
    i.SafeAt K 0 0 (A ++ c) (A ++ pre) rest := by
  induction hp generalizing A pre rest i with
  | nil => simp at hc
  | @puts T _ _ _ o _ c _ c' he _ ih | @expression T _ _ o _ c _ c' he _ ih =>
    have hb : Balanced K T.count 0 o 0 c 1 := he.balanced hT (by simp) (Nat.le_refl 0)
    have hset := hA.setCount_eq
    refine safeAt_of_statement ?_ ?_ ?_ pre rest i hc
    · intro pre rest i hc
      exact (hb.safeAt A _ (Nat.le_refl 0) hA.size_eq hA.height_eq (by omega) pre rest i hc).2
    · exact ⟨rfl, hA.height_append_of_balanced hb⟩
    · exact ih hT (A ++ c ++ [.pop]) (hA.pop hb)
  | @define T _ name _ _ o _ c _ c' _ he hslot _ ih =>
    have hb : Balanced K T.count 0 o 0 c 1 := he.balanced hT (by simp) (Nat.le_refl 0)
    have hset := hA.setCount_eq
    refine safeAt_of_statement ?_ (hA.safeAt_setGlobal hb hslot c') ?_ pre rest i hc
    · intro pre rest i hc
      exact (hb.safeAt A _ (Nat.le_refl 0) hA.size_eq hA.height_eq (by omega) pre rest i hc).2
    · exact ih (hT.define name) _ (hA.setGlobal hb _)
  | @defineFunction T _ name _ _ o _ c _ c' hl he hslot _ ih =>
    have hb : Balanced K (T.define name).count 0 o 0 c 1 :=
      he.balanced (hT.define name) (by simp) (Nat.le_refl 0)
    refine safeAt_of_statement (he.safeAt_defineFunction hT hl hA.setCount_eq)
      (hA.safeAt_setGlobal hb hslot c') ?_ pre rest i hc
    exact ih (hT.define name) _ (hA.setGlobal hb _)

end main

end Duet
