import Duet.Bytecode.Assembler
import Duet.Proofs.Decoding
import Duet.Proofs.Emission

/-!
# Compiling in place does what emissions say

The assembler overwrites operands, cuts blocks, and opens and closes blocks and scopes as it goes;
an emission is a plain function. Here the two are shown to agree, also where a program fails.

* `Adds a f scope r`: the outcome `r` is the assembler `a` with the fragment `f` added to its block
  and its pool, and with the given scope. All else is as it was, and the error is that of `f`.
* `Realizes x E scope`: in that scope the action `x` adds what the emission `E` says, wherever it is
  done. There is one lemma for each way to build an action; `realizes_assemble` puts them together.
* `Emission.EndsInValue`: an expression never ends in `pop`, so that nothing is dropped from the arms
  of a conditional.
* `session_intact`: an expression adds to its block and to the pool and changes nothing else, whether
  it fails or not. After any programs one block and the outermost scope are open, and what has been
  written is what the session holds.
-/

namespace Duet

/-! ## Expressions do not end in `pop` -/

/-- Whatever is emitted without an error has a last instruction, and that is no `pop`. -/
def Emission.EndsInValue (E : Emission) : Prop :=
  ∀ o p c k, E.Yields o p c k → ∃ i, c.getLast? = some i ∧ i.opcode ≠ .pop

namespace Emission

/-- An instruction other than `pop` ends in a value. -/
theorem endsInValue_instr {i : Instr} (h : i.opcode ≠ .pop) : (instr i).EndsInValue := by
  intro o p c k hyields
  obtain ⟨rfl, -⟩ := yields_instr hyields
  exact ⟨i, rfl, h⟩

/-- An emission that fails ends in a value, since it never succeeds. -/
theorem endsInValue_fail (e : CompileError) : (fail e).EndsInValue :=
  fun _ _ _ _ hyields => absurd hyields not_yields_fail

/-- A constant ends in a value. -/
theorem endsInValue_constant (v : Constant) (span : Span) : (constant v span).EndsInValue := by
  intro o p c k hyields
  obtain ⟨-, rfl, -⟩ := yields_constant hyields
  exact ⟨_, rfl, by simp [Instr.opcode]⟩

/-- Two emissions in a row end in a value if the second does. -/
theorem EndsInValue.andThen {E F : Emission} (hF : F.EndsInValue) : (E.andThen F).EndsInValue := by
  intro o p c k hyields
  obtain ⟨c₁, k₁, c₂, k₂, -, hsecond, rfl, -⟩ := yields_andThen hyields
  obtain ⟨i, hi, hop⟩ := hF _ _ _ _ hsecond
  exact ⟨i, by rw [List.getLast?_append, hi, Option.some_or], hop⟩

/-- A conditional ends in a value if its else-part does. -/
theorem EndsInValue.branches {span : Span} {E F : Emission} (hF : F.EndsInValue) :
    (branches span E F).EndsInValue := by
  intro o p c k hyields
  obtain ⟨c₁, k₁, c₂, k₂, -, hsecond, -, rfl, -⟩ := yields_branches hyields
  obtain ⟨i, hi, hop⟩ := hF _ _ _ _ hsecond
  exact ⟨i, by simp [List.getLast?_append, List.getLast?_cons, hi], hop⟩

/-- A function ends in a value: it is loaded as a constant. -/
theorem endsInValue_function (span : Span) (E : Emission) : (function span E).EndsInValue := by
  intro o p c k hyields
  obtain ⟨c₁, k₁, -, -, rfl, -⟩ := yields_function hyields
  exact ⟨_, rfl, by simp [Instr.opcode]⟩

end Emission

/-- A name that is read ends in a value. -/
theorem Scope.endsInValue_emitName (scope : Scope) (name : String) (span : Span) :
    (scope.emitName name span).EndsInValue := by
  unfold Scope.emitName
  split
  · exact Emission.endsInValue_fail _
  · exact Emission.endsInValue_instr (by simp [Instr.opcode])
  · exact Emission.endsInValue_instr (by simp [Instr.opcode])
  · exact Emission.endsInValue_fail _

/-- No unary operator is compiled to `pop`. -/
theorem UnaryOp.opcode_instr_ne_pop (op : UnaryOp) : op.instr.opcode ≠ .pop := by
  cases op <;> simp [UnaryOp.instr, Instr.opcode]

/-- No binary operator is compiled to `pop`. -/
theorem BinaryOp.opcode_ne_pop {op : BinaryOp} {i : Instr} (h : op.instr? = some i) :
    i.opcode ≠ .pop := by
  unfold BinaryOp.instr? at h
  split at h
  · next op =>
    cases h
    cases op <;> simp [Instr.opcode, ArithOp.opcode]
  · cases h
    simp [Instr.opcode]
  · cases h
    simp [Instr.opcode]
  · cases h
  · cases h

/-- An expression ends in a value. -/
theorem Expr.endsInValue_emit (scope : Scope) (e : Expr) : (e.emit scope).EndsInValue := by
  induction e generalizing scope with
  | integer s v => exact Emission.endsInValue_constant _ _
  | text s v => exact Emission.endsInValue_fail _
  | boolean s v => exact Emission.endsInValue_instr (by cases v <;> simp [Instr.opcode])
  | nil s => exact Emission.endsInValue_instr (by simp [Instr.opcode])
  | name s x => exact scope.endsInValue_emitName x s
  | unary s op e _ => exact (Emission.endsInValue_instr op.opcode_instr_ne_pop).andThen
  | binary s op l r _ _ =>
    unfold Expr.emit
    split
    · exact Emission.endsInValue_fail _
    · next i hi => exact (Emission.endsInValue_instr (BinaryOp.opcode_ne_pop hi)).andThen.andThen
  | ifThen s c t _ _ =>
    have hnil : (Emission.instr .nil).EndsInValue :=
      Emission.endsInValue_instr (by simp [Instr.opcode])
    exact hnil.branches.andThen
  | ifElse s c t e _ _ ihe => exact (ihe scope).branches.andThen
  | lambda s param body _ => exact Emission.endsInValue_function s _
  | apply s f a _ _ =>
    have hcall : (Emission.instr .call).EndsInValue :=
      Emission.endsInValue_instr (by simp [Instr.opcode])
    exact hcall.andThen.andThen

/-! ## Adding a fragment -/

/-- The bytes of the block that is being written. -/
def Assembler.bytes (a : Assembler) : List UInt8 := a.active.code.bytes.toList

/-- The opcode of the instruction that was written last. -/
def Assembler.lastOpcode? (a : Assembler) : Option Opcode := a.active.last.map Emitted.opcode

/-- The outcome is the assembler with a fragment added, and with the given scope. -/
structure Adds (a : Assembler) (f : Fragment) (scope : Scope)
    (r : Assembler × Option CompileError) : Prop where
  bytes : r.1.bytes = a.bytes ++ f.code.flatMap Instr.encode
  constants : r.1.constants = a.constants ++ f.constants
  lastOpcode? : r.1.lastOpcode? = (f.code.getLast?.map Instr.opcode).or a.lastOpcode?
  scope : r.1.scope = scope
  enclosing : r.1.enclosing = a.enclosing
  error : r.2 = f.error

namespace Adds

variable {a b : Assembler} {f g : Fragment} {s t : Scope} {r : Assembler × Option CompileError}

/-- The error of the outcome is that of the fragment. -/
theorem outcome (h : Adds a f s r) : r = (r.1, f.error) :=
  Prod.ext rfl h.error

/-- The offset moves on by the code of the fragment. -/
theorem offset {e : Option CompileError} (h : Adds a f s (b, e)) :
    b.offset = a.offset + codeSize f.code := by
  have hlength : b.bytes.length = a.bytes.length + codeSize f.code := by
    rw [h.bytes, List.length_append, length_flatMap_encode]
  exact hlength

/-- The pool grows by the constants of the fragment. -/
theorem length_constants {e : Option CompileError} (h : Adds a f s (b, e)) :
    b.constants.length = a.constants.length + f.constants.length := by
  rw [h.constants, List.length_append]

/-- Nothing is added by doing nothing, or by failing. -/
theorem nothing (a : Assembler) (error : Option CompileError) :
    Adds a ⟨[], [], error⟩ a.scope (a, error) where
  bytes := by simp
  constants := by simp
  lastOpcode? := by simp
  scope := rfl
  enclosing := rfl
  error := rfl

/-- One fragment after another. -/
theorem trans (h : Adds a f s (b, none)) (hr : Adds b g t r) :
    Adds a ⟨f.code ++ g.code, f.constants ++ g.constants, g.error⟩ t r where
  bytes := by
    rw [hr.bytes, h.bytes, List.append_assoc, List.flatMap_append]
  constants := by
    rw [hr.constants, h.constants, List.append_assoc]
  lastOpcode? := by
    rw [hr.lastOpcode?, h.lastOpcode?, List.getLast?_append]
    cases g.code.getLast? with
    | none => rfl
    | some i => rfl
  scope := hr.scope
  enclosing := hr.enclosing.trans h.enclosing
  error := hr.error

/-- An instruction that is written is added. -/
theorem push (a : Assembler) {op : Opcode} {operands : List Nat} {i : Instr}
    (h : op.assemble operands = i.encode) (hop : op = i.opcode) :
    Adds a ⟨[i], [], none⟩ a.scope (a.push op operands, none) where
  bytes := by
    show (a.active.code.bytes ++ op.assemble operands).toList = _
    rw [Array.toList_appendList, h, List.flatMap_singleton]
    rfl
  constants := (List.append_nil _).symm
  lastOpcode? := by
    rw [hop]
    rfl
  scope := rfl
  enclosing := rfl
  error := rfl

/-- What has been added stays when an error follows. -/
theorem fail (h : Adds a f s (b, none)) (e : CompileError) :
    Adds a ⟨f.code, f.constants, some e⟩ s (b, some e) :=
  ⟨h.bytes, h.constants, h.lastOpcode?, h.scope, h.enclosing, rfl⟩

/-- Constants that are put into the pool are added. -/
theorem pool (a : Assembler) (cs : List Constant) (error : Option CompileError) :
    Adds a ⟨[], cs, error⟩ a.scope ({ a with constants := a.constants ++ cs }, error) where
  bytes := (List.append_nil _).symm
  constants := rfl
  lastOpcode? := rfl
  scope := rfl
  enclosing := rfl
  error := rfl

/-- A definition adds nothing and changes the scope. -/
theorem define (a : Assembler) (name : String) :
    Adds a ⟨[], [], none⟩ (a.scope.define name) (a.define name, none) where
  bytes := (List.append_nil _).symm
  constants := (List.append_nil _).symm
  lastOpcode? := rfl
  scope := rfl
  enclosing := rfl
  error := rfl

end Adds

/-! ## Overwriting the target of a jump -/

/-- A block is determined by its bytes. -/
theorem Code.eq_ofInstrs {c : Code} {is : List Instr}
    (h : c.bytes.toList = is.flatMap Instr.encode) : c = .ofInstrs is := by
  unfold Code.ofInstrs
  rw [← h, Array.toArray_toList]

/-- A patch puts a target into the two bytes behind an opcode and leaves all others. -/
theorem Code.patch?_eq_some {c : Code} {front back : List UInt8} {op x y : UInt8}
    (h : c.bytes.toList = front ++ op :: x :: y :: back) (w : UInt16) :
    ∃ c', c.patch? front.length w = some c' ∧
      c'.bytes.toList = front ++ op :: (Instr.wordBytes w ++ back) := by
  have hsize : c.size = front.length + (back.length + 3) := by
    have hlength : c.bytes.toList.length = c.size := Array.length_toList
    rw [← hlength, h]
    simp
  unfold Code.patch?
  rw [if_pos (by omega)]
  refine ⟨_, rfl, ?_⟩
  rw [Array.toList_setIfInBounds, Array.toList_setIfInBounds, h]
  simp [Instr.wordBytes]

/-- Instructions with the given opcode and a target. -/
structure IsJump (op : Opcode) (jump : UInt16 → Instr) : Prop where
  encode : ∀ w, (jump w).encode = op.byte :: Instr.wordBytes w
  opcode : ∀ w, (jump w).opcode = op

/-- A jump without a condition is a jump. -/
theorem isJump_jump : IsJump .jump .jump := ⟨fun _ => rfl, fun _ => rfl⟩

/-- A conditional jump is a jump. -/
theorem isJump_jumpIfNotTrue : IsJump .jumpIfNotTrue .jumpIfNotTrue :=
  ⟨fun _ => rfl, fun _ => rfl⟩

section Jumps

variable {a b : Assembler} {s : Scope} {op : Opcode} {jump : UInt16 → Instr}
  {pre post : List Instr} {k : List Constant} {w : UInt16}

/-- The jump behind the instructions `pre` of a fragment gets another target, and all else stays. -/
theorem Adds.patch (hjump : IsJump op jump)
    (h : Adds a ⟨pre ++ jump w :: post, k, none⟩ s (b, none)) (target : UInt16) :
    Adds a ⟨pre ++ jump target :: post, k, none⟩ s
      ({ b with active := b.active.patch (a.offset + codeSize pre) target }, none) := by
  have hbytes : b.active.code.bytes.toList = (a.bytes ++ pre.flatMap Instr.encode) ++
      op.byte :: (w >>> 8).toUInt8 :: w.toUInt8 :: post.flatMap Instr.encode := by
    refine h.bytes.trans ?_
    rw [List.flatMap_append, List.flatMap_cons, hjump.encode]
    simp [Instr.wordBytes]
  have hposition : (a.bytes ++ pre.flatMap Instr.encode).length = a.offset + codeSize pre := by
    rw [List.length_append, length_flatMap_encode]
    rfl
  obtain ⟨c', hpatch, hc'⟩ := Code.patch?_eq_some hbytes target
  rw [hposition] at hpatch
  refine ⟨?_, h.constants, ?_, h.scope, h.enclosing, rfl⟩
  · show ((b.active.code.patch? (a.offset + codeSize pre) target).getD b.active.code).bytes.toList
      = _
    rw [hpatch, Option.getD_some, hc', List.flatMap_append, List.flatMap_cons, hjump.encode]
    simp
  · refine h.lastOpcode?.trans ?_
    rw [List.getLast?_append, List.getLast?_append, List.getLast?_cons, List.getLast?_cons]
    cases post.getLast? with
    | none => simp [hjump.opcode]
    | some i => rfl

/-- A target that is too far leaves the jump as it is. -/
theorem Assembly.patchJump_of_lt {position : Nat} {span : Span} (h : maxTarget < b.offset) :
    patchJump position span b = (b, some (.blockTooLarge b.offset span)) := by
  unfold patchJump
  rw [if_pos h]

/-- A jump that reaches its target is patched to the end of the code. -/
theorem Adds.patchJump_of_le (hjump : IsJump op jump) (span : Span)
    (h : Adds a ⟨pre ++ jump w :: post, k, none⟩ s (b, none)) (hle : b.offset ≤ maxTarget) :
    Adds a ⟨pre ++ jump b.offset.toUInt16 :: post, k, none⟩ s
      (Assembly.patchJump (a.offset + codeSize pre) span b) := by
  unfold Assembly.patchJump
  rw [if_neg (Nat.not_lt.mpr hle)]
  exact h.patch hjump _

end Jumps

/-! ## Actions and emissions -/

/-- In the given scope the action adds what the emission says, wherever it is done. -/
def Realizes (x : Assembly) (E : Emission) (s : Scope) : Prop :=
  ∀ a : Assembler, a.scope = s → Adds a (E a.offset a.constants.length) s (x a)

/-- An action that follows added code adds what its emission says at the end of that code. -/
theorem Realizes.after {x : Assembly} {E : Emission} {s : Scope} {a b : Assembler} {f : Fragment}
    (hx : Realizes x E s) (h : Adds a f s (b, none)) :
    Adds b (E (a.offset + codeSize f.code) (a.constants.length + f.constants.length)) s (x b) := by
  rw [← h.offset, ← h.length_constants]
  exact hx b h.scope

/-- What follows an action is done where the action succeeds. -/
theorem Assembly.andThen_of_ok {x y : Assembly} {a b : Assembler} (h : x a = (b, none)) :
    x.andThen y a = y b := by
  unfold Assembly.andThen
  rw [h]

/-- What follows an action is not done where the action fails. -/
theorem Assembly.andThen_of_error {x y : Assembly} {a b : Assembler} {e : CompileError}
    (h : x a = (b, some e)) : x.andThen y a = (b, some e) := by
  unfold Assembly.andThen
  rw [h]

/-- What two actions add, one after the other, given what the first adds: the second is done only if
the first has not failed. -/
theorem Adds.andThen {x y : Assembly} {a a₀ : Assembler} {f g : Fragment} {s t : Scope}
    (hx : Adds a f s (x a₀))
    (hok : ∀ b, f.error = none → Adds a f s (b, none) → Adds a g t (y b))
    (herror : ∀ b e, f.error = some e → Adds a f s (b, some e) → Adds a g t (b, some e)) :
    Adds a g t (x.andThen y a₀) := by
  rcases hxa : x a₀ with ⟨b, _ | e⟩
  · rw [hxa] at hx
    rw [Assembly.andThen_of_ok hxa]
    exact hok b hx.error.symm hx
  · rw [hxa] at hx
    rw [Assembly.andThen_of_error hxa]
    exact herror b e hx.error.symm hx

/-- There is no `pop` to take back behind another instruction. -/
theorem Assembly.dropPop_eq {a : Assembler} (h : a.lastOpcode? ≠ some .pop) :
    Assembly.dropPop a = (a, none) := by
  have hblock : a.active.dropPop = a.active := by
    unfold Block.dropPop
    split
    · next position hlast => exact absurd (by rw [Assembler.lastOpcode?, hlast]; rfl) h
    · rfl
  unfold Assembly.dropPop
  rw [hblock]

section Realizes

variable {x y : Assembly} {E F : Emission} {s : Scope}

/-- Writing an opcode with its operands is emitting the instruction. -/
theorem realizes_emit {op : Opcode} {operands : List Nat} {i : Instr}
    (h : op.assemble operands = i.encode) (hop : op = i.opcode) :
    Realizes (.emit op operands) (.instr i) s := by
  rintro a rfl
  exact .push a h hop

/-- A failing action is a failing emission. -/
theorem realizes_fail (e : CompileError) : Realizes (.fail e) (.fail e) s := by
  rintro a rfl
  exact .nothing a (some e)

/-- Writing a constant is emitting it. -/
theorem realizes_constant (c : Constant) (span : Span) :
    Realizes (.constant c span) (.constant c span) s := by
  rintro a rfl
  unfold Assembly.constant Emission.constant
  split
  · exact (Adds.pool a [c] none).trans (.push _ rfl rfl)
  · exact .nothing a _

/-- Writing the reading of a name is emitting it. -/
theorem realizes_name (name : String) (span : Span) :
    Realizes (.name name span) (s.emitName name span) s := by
  rintro a rfl
  unfold Assembly.name Scope.emitName
  rcases a.scope.resolve? name with _ | ⟨_ | _ | _, i⟩
  · exact realizes_fail _ a rfl
  · exact .push a rfl rfl
  · exact .push a rfl rfl
  · exact realizes_fail _ a rfl

/-- Actions in a row realize emissions in a row. -/
theorem Realizes.andThen (hx : Realizes x E s) (hy : Realizes y F s) :
    Realizes (x.andThen y) (E.andThen F) s := by
  intro a ha
  refine (hx a ha).andThen (fun b hnone hb => ?_) (fun b e hsome hb => ?_)
  · simp only [Emission.andThen, hnone]
    exact hb.trans (hy.after hb)
  · simp only [Emission.andThen, hsome]
    exact hb

/-- Nothing is dropped from what does not end in `pop`. -/
theorem Realizes.dropPop (hx : Realizes x E s) (hE : E.EndsInValue) :
    Realizes (x.andThen .dropPop) E s := by
  intro a ha
  refine (hx a ha).andThen (fun b hnone hb => ?_) (fun b e _ hb => hb)
  have hyields : E.Yields a.offset a.constants.length (E a.offset a.constants.length).code
      (E a.offset a.constants.length).constants := by
    unfold Emission.Yields
    rw [← hnone]
  obtain ⟨i, hi, hpop⟩ := hE _ _ _ _ hyields
  have hlast : b.lastOpcode? ≠ some .pop := by
    rw [hb.lastOpcode?, hi]
    simpa using hpop
  rw [Assembly.dropPop_eq hlast]
  exact hb

/-- The second half of a conditional: its first jump, the first arm and the second jump are there.
A jump gets its target as soon as that is known, unless it is too far. -/
theorem Realizes.secondBranch (hy : Realizes y F s) {a b : Assembler} {span : Span} {f : Fragment}
    (hE : E (a.offset + 3) a.constants.length = f) (hf : f.error = none)
    (h : Adds a
      ⟨.jumpIfNotTrue unknownTarget :: (f.code ++ [.jump unknownTarget]), f.constants, none⟩ s
      (b, none)) :
    Adds a (Emission.branches span E F a.offset a.constants.length) s
      (((Assembly.patchJump a.offset span).andThen
        (y.andThen (.patchJump (a.offset + 3 + codeSize f.code) span))) b) := by
  -- the second arm starts behind the jump at the end of the first
  have hstart : b.offset = a.offset + 3 + codeSize f.code + 3 := by
    have hoffset := h.offset
    simp only [codeSize_cons, codeSize_append, codeSize_nil, Instr.size] at hoffset
    omega
  simp only [Emission.branches, hE, hf]
  rw [← hstart]
  by_cases hfar : maxTarget < b.offset
  · rw [Assembly.andThen_of_error (Assembly.patchJump_of_lt hfar), if_pos hfar]
    exact h.fail _
  rw [if_neg hfar]
  have hopened : Adds a ⟨[] ++ .jumpIfNotTrue unknownTarget :: (f.code ++ [.jump unknownTarget]),
      f.constants, none⟩ s (b, none) := h
  have hpatched : Adds a
      ⟨.jumpIfNotTrue b.offset.toUInt16 :: (f.code ++ [.jump unknownTarget]), f.constants, none⟩ s
      (Assembly.patchJump a.offset span b) :=
    hopened.patchJump_of_le isJump_jumpIfNotTrue span (Nat.le_of_not_lt hfar)
  obtain ⟨b₁, hb₁⟩ : ∃ b₁, Assembly.patchJump a.offset span b = (b₁, none) :=
    ⟨_, hpatched.outcome⟩
  rw [hb₁] at hpatched
  rw [Assembly.andThen_of_ok hb₁]
  -- patching moves no code, so the arm is written where the emission expects it
  have hoffset : b₁.offset = b.offset := hpatched.offset.trans h.offset.symm
  have harm : Adds b₁ (F b.offset (a.constants.length + f.constants.length)) s (y b₁) := by
    have hpool : b₁.constants.length = a.constants.length + f.constants.length :=
      hpatched.length_constants
    rw [← hoffset, ← hpool]
    exact hy b₁ hpatched.scope
  generalize F b.offset (a.constants.length + f.constants.length) = g at harm ⊢
  have hboth : Adds a
      ⟨(.jumpIfNotTrue b.offset.toUInt16 :: f.code) ++ .jump unknownTarget :: g.code,
        f.constants ++ g.constants, g.error⟩ s (y b₁) := by
    simpa using hpatched.trans harm
  refine hboth.andThen (fun b₂ hnone hb₂ => ?_) (fun b₂ e hsome hb₂ => ?_)
  · have hg : g.error = none := hnone
    rw [hg] at hb₂
    have hstop : b₂.offset = b.offset + codeSize g.code := by
      have hoffset₂ := hb₂.offset
      simp only [codeSize_cons, codeSize_append, Instr.size] at hoffset₂
      omega
    simp only [hg, ← hstop]
    by_cases hfar₂ : maxTarget < b₂.offset
    · rw [Assembly.patchJump_of_lt hfar₂, if_pos hfar₂]
      exact hb₂.fail _
    · rw [if_neg hfar₂, Nat.add_assoc]
      exact hb₂.patchJump_of_le isJump_jump span (Nat.le_of_not_lt hfar₂)
  · have hg : g.error = some e := hsome
    rw [hg] at hb₂
    simp only [hg]
    exact hb₂

/-- The jumps of a conditional are written with an unknown target. Where an arm fails, or a target is
too far, they stay as they are. -/
theorem Realizes.branches (hx : Realizes x E s) (hy : Realizes y F s) (span : Span) :
    Realizes (.branches span x y) (.branches span E F) s := by
  rintro a rfl
  have hfirst : Adds a ⟨[.jumpIfNotTrue unknownTarget], [], none⟩ a.scope
      (a.push .jumpIfNotTrue [unknownTarget.toNat], none) := .push a rfl rfl
  have harm : Adds (a.push .jumpIfNotTrue [unknownTarget.toNat])
      (E (a.offset + 3) a.constants.length) a.scope
      (x (a.push .jumpIfNotTrue [unknownTarget.toNat])) := hx.after hfirst
  generalize hE : E (a.offset + 3) a.constants.length = f at harm
  refine (hfirst.trans harm).andThen (fun b hnone hb => ?_) (fun b e hsome hb => ?_)
  · have hf : f.error = none := hnone
    rw [hf] at hb
    have hposition : b.offset = a.offset + 3 + codeSize f.code := by
      rw [hb.offset, codeSize_append, ← Nat.add_assoc]
      rfl
    have hsecond : Adds b ⟨[.jump unknownTarget], [], none⟩ b.scope
        (b.push .jump [unknownTarget.toNat], none) := .push b rfl rfl
    rw [hb.scope] at hsecond
    have hboth : Adds a
        ⟨.jumpIfNotTrue unknownTarget :: (f.code ++ [.jump unknownTarget]), f.constants, none⟩
        a.scope (b.push .jump [unknownTarget.toNat], none) := by
      simpa using hb.trans hsecond
    show Adds a _ _ ((Assembly.patchJump a.offset span).andThen
      (y.andThen (.patchJump b.offset span)) (b.push .jump [unknownTarget.toNat]))
    rw [hposition]
    exact hy.secondBranch hE hf hboth
  · have hf : f.error = some e := hsome
    rw [hf] at hb
    simp only [Emission.branches, hE, hf]
    exact hb

/-- The block of a function is closed again whether its body fails or not. -/
theorem Realizes.function {param : String} (hx : Realizes x E (s.enclose.define param))
    (span : Span) : Realizes (.function span param x) (.function span E) s := by
  rintro a rfl
  have hbody : Adds (a.enter.define param) (E 0 a.constants.length) _ (x (a.enter.define param)) :=
    hx (a.enter.define param) rfl
  rcases hE : E 0 a.constants.length with ⟨c, k, error⟩
  obtain ⟨b, hxa⟩ : ∃ b, x (a.enter.define param) = (b, error) := by
    rw [hE] at hbody
    exact ⟨_, hbody.outcome⟩
  rw [hE, hxa] at hbody
  have hleave : (b.push .return_ []).leave = { a with constants := a.constants ++ k } := by
    have hscope : b.scope.leave?.getD .empty = a.scope := by
      rw [hbody.scope, Scope.leave?_define, Scope.leave?_enclose, Option.getD_some]
    have henclosing : b.enclosing = a.active :: a.enclosing := hbody.enclosing
    have hconstants : b.constants = a.constants ++ k := hbody.constants
    unfold Assembler.leave Assembler.push
    simp only [hscope, henclosing, hconstants, List.headD_cons, List.tail_cons]
  have hcode : (b.push .return_ []).active.code = .ofInstrs (c ++ [.return_]) := by
    have hreturn : Adds b ⟨[.return_], [], none⟩ b.scope (b.push .return_ [], none) :=
      .push b rfl rfl
    refine Code.eq_ofInstrs (hreturn.bytes.trans ?_)
    rw [hbody.bytes, List.flatMap_append]
    rfl
  unfold Assembly.function Emission.function
  simp only [hxa, hE, hleave, hcode]
  cases error with
  | some e => exact .pool a k (some e)
  | none =>
    have hload := realizes_constant (.function (.ofInstrs (c ++ [.return_]))) span
      { a with constants := a.constants ++ k } rfl
    rw [List.length_append] at hload
    exact (Adds.pool a k none).trans hload

end Realizes

/-- Writing the opcode of a binary operator is emitting its instruction. -/
theorem realizes_binary {op : BinaryOp} {i : Instr} (h : op.instr? = some i) (s : Scope) :
    Realizes (.emit i.opcode []) (.instr i) s := by
  refine realizes_emit ?_ rfl
  unfold BinaryOp.instr? at h
  split at h
  · next op =>
    cases h
    cases op <;> rfl
  · cases h
    rfl
  · cases h
    rfl
  · cases h
  · cases h

/-- Every expression is written in place as its emission says. -/
theorem realizes_assemble (e : Expr) (s : Scope) : Realizes e.assemble (e.emit s) s := by
  induction e generalizing s with
  | integer span v => exact realizes_constant _ _
  | text span v => exact realizes_fail _
  | boolean span v => cases v <;> exact realizes_emit rfl rfl
  | nil span => exact realizes_emit rfl rfl
  | name span x => exact realizes_name x span
  | unary span op e ih =>
    have hop : Realizes (.emit op.instr.opcode []) (.instr op.instr) s :=
      realizes_emit (by cases op <;> rfl) rfl
    exact (ih s).andThen hop
  | binary span op l r ihl ihr =>
    unfold Expr.assemble Expr.emit
    cases hop : op.instr? with
    | none => exact realizes_fail _
    | some i => exact (ihl s).andThen ((ihr s).andThen (realizes_binary hop s))
  | ifThen span c t ihc iht =>
    have hthen := (iht s).dropPop (t.endsInValue_emit s)
    have hnil : Realizes (.emit .nil []) (.instr .nil) s := realizes_emit rfl rfl
    exact (ihc s).andThen (hthen.branches hnil span)
  | ifElse span c t e ihc iht ihe =>
    have hthen := (iht s).dropPop (t.endsInValue_emit s)
    have helse := (ihe s).dropPop (e.endsInValue_emit s)
    exact (ihc s).andThen (hthen.branches helse span)
  | lambda span param body ih => exact (ih _).function span
  | apply span f x ihf ihx =>
    have hcall : Realizes (.emit .call []) (.instr .call) s := realizes_emit rfl rfl
    exact (ihx s).andThen ((ihf s).andThen hcall)

/-! ## Statements and programs -/

/-- Storing a value that has been added, in a slot that has just been given out. -/
theorem Adds.store {a b : Assembler} {f : Fragment} {s : Scope} (h : Adds a f s (b, none))
    (span : Span) (name : String) (slot : Nat) :
    Adds a
      (if slot < maxSlots then ⟨f.code ++ [.setGlobal slot.toUInt8], f.constants, none⟩
        else ⟨f.code, f.constants, some (.tooManyGlobals name span)⟩) s
      (Assembly.store span name slot b) := by
  unfold Assembly.store
  split
  · have hset : Adds b ⟨[.setGlobal slot.toUInt8], [], none⟩ b.scope
        (b.push .setGlobal [slot], none) := .push b rfl rfl
    rw [h.scope] at hset
    have hboth := h.trans hset
    rw [List.append_nil] at hboth
    exact hboth
  · exact h.fail _

/-- A definition is emitted as its value, and then stored unless the value fails. -/
theorem emitDefine_of_none (span : Span) (name : String) {value : Expr} {scope visible : Scope}
    {o p : Nat} (hvisible : (if value.isLambda then scope.define name else scope) = visible)
    (hf : (value.emit visible o p).error = none) :
    emitDefine span name value scope o p =
      (if scope.next.index < maxSlots then
          ⟨(value.emit visible o p).code ++ [.setGlobal scope.next.index.toUInt8],
            (value.emit visible o p).constants, none⟩
        else
          ⟨(value.emit visible o p).code, (value.emit visible o p).constants,
            some (.tooManyGlobals name span)⟩,
        scope.define name) := by
  unfold emitDefine
  simp only [hvisible, hf]
  split <;> rfl

/-- A definition whose value fails adds what was emitted of the value. -/
theorem emitDefine_of_some (span : Span) (name : String) {value : Expr} {scope visible : Scope}
    {o p : Nat} {e : CompileError}
    (hvisible : (if value.isLambda then scope.define name else scope) = visible)
    (hf : (value.emit visible o p).error = some e) :
    emitDefine span name value scope o p = (value.emit visible o p, visible) := by
  unfold emitDefine
  simp only [hvisible, hf]

/-- The value of a function is written with its name defined already. -/
theorem adds_define_lambda (span : Span) (name : String) {value : Expr} (hvalue : value.isLambda)
    (a : Assembler) :
    Adds a (emitDefine span name value a.scope a.offset a.constants.length).1
      (emitDefine span name value a.scope a.offset a.constants.length).2
      (value.assemble.andThen (.store span name a.scope.next.index) (a.define name)) := by
  have hvisible : (if value.isLambda then a.scope.define name else a.scope)
      = a.scope.define name := if_pos hvalue
  have hadds : Adds a (value.emit (a.scope.define name) a.offset a.constants.length)
      (a.scope.define name) (value.assemble (a.define name)) :=
    (Adds.define a name).trans (realizes_assemble value _ (a.define name) rfl)
  refine hadds.andThen (fun b hnone hb => ?_) (fun b e hsome hb => ?_)
  · rw [emitDefine_of_none span name hvisible hnone]
    exact hb.store span name _
  · rw [emitDefine_of_some span name hvisible hsome]
    exact hb

/-- Any other value is written before its name is defined. -/
theorem adds_define_value (span : Span) (name : String) {value : Expr} (hvalue : ¬value.isLambda)
    (a : Assembler) :
    Adds a (emitDefine span name value a.scope a.offset a.constants.length).1
      (emitDefine span name value a.scope a.offset a.constants.length).2
      (value.assemble.andThen
        (fun b => Assembly.store span name b.scope.next.index (b.define name)) a) := by
  have hvisible : (if value.isLambda then a.scope.define name else a.scope) = a.scope :=
    if_neg hvalue
  refine (realizes_assemble value a.scope a rfl).andThen (fun b hnone hb => ?_)
    (fun b e hsome hb => ?_)
  · have hscope : b.scope = a.scope := hb.scope
    have hdefined := hb.trans (Adds.define b name)
    simp only [List.append_nil, hscope] at hdefined
    rw [emitDefine_of_none span name hvisible hnone, hscope]
    exact hdefined.store span name _
  · rw [emitDefine_of_some span name hvisible hsome]
    exact hb

/-- Assembling a statement adds what is emitted for it, and leaves the scope of the emission. -/
theorem adds_stmt (stmt : Stmt) (a : Assembler) :
    Adds a (stmt.emit a.scope a.offset a.constants.length).1
      (stmt.emit a.scope a.offset a.constants.length).2 (stmt.assemble a) := by
  have hshow (value : Expr) : Realizes (value.assemble.andThen (.emit .pop []))
      ((value.emit a.scope).andThen (.instr .pop)) a.scope :=
    (realizes_assemble value a.scope).andThen (realizes_emit rfl rfl)
  cases stmt with
  | define span name value =>
    have hassemble : (Stmt.define span name value).assemble a =
        if value.isLambda then
          value.assemble.andThen (.store span name a.scope.next.index) (a.define name)
        else
          value.assemble.andThen
            (fun b => Assembly.store span name b.scope.next.index (b.define name)) a := rfl
    rw [hassemble]
    by_cases hvalue : value.isLambda
    · rw [if_pos hvalue]
      exact adds_define_lambda span name hvalue a
    · rw [if_neg hvalue]
      exact adds_define_value span name hvalue a
  | puts span value => exact hshow value a rfl
  | expression value => exact hshow value a rfl

/-- Assembling a program adds what is emitted for it, and leaves the scope of the emission. -/
theorem adds_program (p : Program) (a : Assembler) :
    Adds a (Program.emit p a.scope a.offset a.constants.length).1
      (Program.emit p a.scope a.offset a.constants.length).2 (Program.assemble p a) := by
  induction p generalizing a with
  | nil => exact .nothing a none
  | cons stmt stmts ih =>
    unfold Program.emit Program.assemble
    refine (adds_stmt stmt a).andThen (fun b hnone hb => ?_) (fun b e hsome hb => ?_)
    · have hrest := ih b
      rw [hb.scope, hb.offset, hb.length_constants] at hrest
      simp only [hnone]
      exact hb.trans hrest
    · simp only [hsome]
      exact hb

/-! ## Sessions -/

/-- Goes through programs one after the other, whether they fail or not. -/
def Session.compileAll (s : Session) (programs : List Program) : Session :=
  programs.foldl (fun s p => (s.compile p).1) s

/-- The assembler has written what the session holds, and no function is open. -/
structure Writes (a : Assembler) (s : Session) : Prop where
  bytes : a.bytes = s.code.flatMap Instr.encode
  constants : a.constants = s.constants
  scope : a.scope = s.scope
  enclosing : a.enclosing = []

/-- At the start neither the assembler nor the session holds anything. -/
theorem Writes.start : Writes .start .start := ⟨rfl, rfl, rfl, rfl⟩

/-- The assembler hands over the bytecode of the session. -/
theorem Writes.bytecode {a : Assembler} {s : Session} (h : Writes a s) :
    a.bytecode = s.bytecode := by
  unfold Assembler.bytecode Session.bytecode
  rw [Code.eq_ofInstrs h.bytes, h.constants]

/-- One program, which both take in the same way. -/
theorem Writes.compile {a : Assembler} {s : Session} (h : Writes a s) (p : Program) :
    Writes (Program.assemble p a).1 (s.compile p).1 ∧
      (Program.assemble p a).2 = (s.compile p).2 := by
  have hoffset : a.offset = codeSize s.code := by
    have hlength : a.bytes.length = codeSize s.code := by
      rw [h.bytes, length_flatMap_encode]
    exact hlength
  have hadds := adds_program p a
  rw [hoffset, h.scope, h.constants] at hadds
  refine ⟨⟨?_, ?_, hadds.scope, hadds.enclosing.trans h.enclosing⟩, hadds.error⟩
  · rw [hadds.bytes, h.bytes, ← List.flatMap_append]
    rfl
  · rw [hadds.constants, h.constants]
    rfl

/-- Going through programs keeps the assembler and the session in step, whether programs fail or
not. -/
theorem Writes.compileAll {a : Assembler} {s : Session} (h : Writes a s)
    (programs : List Program) : Writes (a.compileAll programs) (s.compileAll programs) := by
  induction programs generalizing a s with
  | nil => exact h
  | cons p ps ih => exact ih (h.compile p).1

/-- The scope is the outermost one. -/
def Scope.IsOutermost (s : Scope) : Prop := ∃ table, s = .global table

/-- A definition does not leave the outermost scope. -/
theorem Scope.IsOutermost.define {s : Scope} (h : s.IsOutermost) (name : String) :
    (s.define name).IsOutermost := by
  obtain ⟨table, rfl⟩ := h
  exact ⟨_, rfl⟩

/-- Compiling a definition does not leave the outermost scope. -/
theorem isOutermost_of_emitDefine {scope : Scope} (h : scope.IsOutermost) (span : Span)
    (name : String) (value : Expr) (o p : Nat) :
    (emitDefine span name value scope o p).2.IsOutermost := by
  have hvisible : (if value.isLambda then scope.define name else scope).IsOutermost := by
    split
    · exact h.define name
    · exact h
  cases hf : (value.emit (if value.isLambda then scope.define name else scope) o p).error with
  | none =>
    rw [emitDefine_of_none span name rfl hf]
    exact h.define name
  | some e =>
    rw [emitDefine_of_some span name rfl hf]
    exact hvisible

/-- Compiling a program does not leave the outermost scope. -/
theorem isOutermost_of_emit {scope : Scope} (h : scope.IsOutermost) (program : Program)
    (o p : Nat) : (Program.emit program scope o p).2.IsOutermost := by
  induction program generalizing scope o p with
  | nil => exact h
  | cons stmt stmts ih =>
    have hstmt : (stmt.emit scope o p).2.IsOutermost := by
      cases stmt with
      | define span name value => exact isOutermost_of_emitDefine h span name value o p
      | puts span value => exact h
      | expression value => exact h
    unfold Program.emit
    rcases hemit : stmt.emit scope o p with ⟨⟨c, k, _ | e⟩, s⟩
    · rw [hemit] at hstmt
      exact ih hstmt _ _
    · rw [hemit] at hstmt
      exact hstmt

/-- A session is at the outermost scope behind any programs. -/
theorem isOutermost_compileAll {s : Session} (h : s.scope.IsOutermost)
    (programs : List Program) : (s.compileAll programs).scope.IsOutermost := by
  induction programs generalizing s with
  | nil => exact h
  | cons p ps ih => exact ih (isOutermost_of_emit h p _ _)

/-- What writing an expression leaves as it was: the scope at every level and the blocks around the
active one, and of the active block and of the pool all that was there. -/
structure Assembler.Keeps (a b : Assembler) : Prop where
  enclosing : b.enclosing = a.enclosing
  scope : b.scope = a.scope
  bytes : a.bytes <+: b.bytes
  constants : a.constants <+: b.constants

/-- An action that adds a fragment in the scope it started in keeps all that was there. -/
theorem Adds.keeps {a : Assembler} {f : Fragment} {r : Assembler × Option CompileError}
    (h : Adds a f a.scope r) : a.Keeps r.1 where
  enclosing := h.enclosing
  scope := h.scope
  bytes := ⟨_, h.bytes.symm⟩
  constants := ⟨_, h.constants.symm⟩

/-- **A session survives its errors.** Wherever an expression is written in place, and whether that
fails or not, it keeps what was there and adds what its emission says. So after any programs, failed
or not, no function is open and the scope is the outermost one; and what has been written is what
the session of these programs holds, which goes on with the next program in the same way. -/
theorem session_intact :
    (∀ (e : Expr) (a : Assembler), a.Keeps (e.assemble a).1 ∧
      Adds a (e.emit a.scope a.offset a.constants.length) a.scope (e.assemble a)) ∧
    ∀ programs : List Program,
      (Assembler.start.compileAll programs).enclosing = [] ∧
      (Assembler.start.compileAll programs).scope.IsOutermost ∧
      (Assembler.start.compileAll programs).scope = (Session.start.compileAll programs).scope ∧
      (Assembler.start.compileAll programs).bytecode
        = (Session.start.compileAll programs).bytecode ∧
      ∀ p, (Program.assemble p (Assembler.start.compileAll programs)).2
        = ((Session.start.compileAll programs).compile p).2 := by
  refine ⟨fun e a => ?_, fun programs => ?_⟩
  · have hadds := realizes_assemble e a.scope a rfl
    exact ⟨hadds.keeps, hadds⟩
  · have hwrites := Writes.start.compileAll programs
    have houtermost : (Session.start.compileAll programs).scope.IsOutermost :=
      isOutermost_compileAll ⟨_, rfl⟩ programs
    refine ⟨hwrites.enclosing, ?_, hwrites.scope, hwrites.bytecode,
      fun p => (hwrites.compile p).2⟩
    rw [hwrites.scope]
    exact houtermost

end Duet
