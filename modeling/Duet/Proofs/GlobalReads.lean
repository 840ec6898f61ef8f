import Duet.Proofs.EngineAgreement
import Duet.Proofs.MachineSafety
import Duet.Proofs.RunInvariants
import Duet.Proofs.WellFormedBlocks

/-!
# Which definition a global is read from

A name may be defined more than once. In the evaluator the later definition takes the place of the
earlier one, for functions as well. On the machine every definition has a slot of its own, and code
reads the slot that the name stood for when the code was compiled. So a function goes on reading the
definition that was the latest where it is written, whatever has been defined since; code at the top
level runs where it is written, and there the two engines do the same.

* `isLatest_of_emit`: at the top level, a slot is read only while its definition is the latest of its
  name. `readsInFunction_of_represents`: which slots the functions in the pool read.
* `AtBottom`: how far the main block has got. It carries the proof that globals are set in the order
  of their slots (`stores_of_steps`), so that the entries of `stores` are the definitions carried out
  so far.
* `Evaluator.global?_runAtFuel`: the rule of the evaluator.
* `globalReads_of_compile`: the rules of both engines. `globalRead_ne_latest` is a program on which
  they differ.
-/

namespace Duet

/-! ## The definition that a name stands for -/

/-- Of definitions of the given names, the one with number `i` is the latest of `x`. -/
def IsLatest (names : List String) (x : String) (i : Nat) : Prop :=
  names[i]? = some x ∧ ∀ j, i < j → names[j]? ≠ some x

/-- The slot of a name is that of its latest definition. -/
theorem isLatest_of_slot? {names : List String} {x : String} {i : Nat}
    (h : (SlotTable.ofNames names).slot? x = some i) : IsLatest names x i :=
  SlotTable.slot?_ofNames_eq_some_iff.mp h

namespace Expr

variable {T : SlotTable} {slot : Nat}

/-- A slot that is read in a block belongs to a name, which is read there. -/
theorem exists_of_mem_blockReads {e : Expr} {ps : List String}
    (h : slot ∈ e.blockReads (Scope.within T ps)) :
    ∃ x, T.slot? x = some slot ∧ (ps ≠ [] → (x, slot) ∈ e.functionReads (Scope.within T ps)) := by
  induction e with
  | integer | text | boolean | nil | lambda => cases h
  | name s x =>
    unfold blockReads at h
    split at h
    · next i hres =>
      obtain rfl := List.mem_singleton.mp h
      refine ⟨x, (Scope.resolve?_within_eq_global_iff.mp hres).2, fun hps => ?_⟩
      obtain ⟨p, ps, rfl⟩ := List.exists_cons_of_ne_nil hps
      simp only [Scope.within, Scope.enclose, Scope.define] at hres ⊢
      simp [functionReads, hres]
    · cases h
  | unary s op e ih => exact ih h
  | binary s op l r ihl ihr | ifThen s l r ihl ihr =>
    rcases List.mem_append.mp h with h | h
    · obtain ⟨x, hx, hread⟩ := ihl h
      exact ⟨x, hx, fun hps => List.mem_append_left _ (hread hps)⟩
    · obtain ⟨x, hx, hread⟩ := ihr h
      exact ⟨x, hx, fun hps => List.mem_append_right _ (hread hps)⟩
  | ifElse s c t e ihc iht ihe =>
    rcases List.mem_append.mp h with h | h
    · rcases List.mem_append.mp h with h | h
      · obtain ⟨x, hx, hread⟩ := ihc h
        exact ⟨x, hx, fun hps => List.mem_append_left _ (List.mem_append_left _ (hread hps))⟩
      · obtain ⟨x, hx, hread⟩ := iht h
        exact ⟨x, hx, fun hps => List.mem_append_left _ (List.mem_append_right _ (hread hps))⟩
    · obtain ⟨x, hx, hread⟩ := ihe h
      exact ⟨x, hx, fun hps => List.mem_append_right _ (hread hps)⟩
  | apply s f a ihf iha =>
    rcases List.mem_append.mp h with h | h
    · obtain ⟨x, hx, hread⟩ := iha h
      exact ⟨x, hx, fun hps => List.mem_append_right _ (hread hps)⟩
    · obtain ⟨x, hx, hread⟩ := ihf h
      exact ⟨x, hx, fun hps => List.mem_append_left _ (hread hps)⟩

/-- What is read in a function of an expression is read inside the functions of the expression. -/
theorem functionReads_subset_of_mem_poolEntries {e body : Expr} {ps : List String} {σ : Scope}
    {s : Span} {param : String}
    (h : (σ, .lambda s param body) ∈ e.poolEntries (Scope.within T ps)) :
    ∃ qs, σ = Scope.within T qs ∧
      body.functionReads (Scope.within T (param :: qs)) ⊆ e.functionReads (Scope.within T ps) := by
  induction e generalizing ps with
  | text | boolean | nil | name => cases h
  | integer => cases List.mem_singleton.mp h
  | unary s op e ih => exact ih h
  | binary s op l r ihl ihr | ifThen s l r ihl ihr =>
    rcases List.mem_append.mp h with h | h
    · obtain ⟨qs, hσ, hsub⟩ := ihl h
      exact ⟨qs, hσ, List.subset_append_of_subset_left _ hsub⟩
    · obtain ⟨qs, hσ, hsub⟩ := ihr h
      exact ⟨qs, hσ, List.subset_append_of_subset_right _ hsub⟩
  | ifElse s c t e ihc iht ihe =>
    rcases List.mem_append.mp h with h | h
    · rcases List.mem_append.mp h with h | h
      · obtain ⟨qs, hσ, hsub⟩ := ihc h
        exact ⟨qs, hσ, List.subset_append_of_subset_left _ (List.subset_append_of_subset_left _ hsub)⟩
      · obtain ⟨qs, hσ, hsub⟩ := iht h
        exact ⟨qs, hσ, List.subset_append_of_subset_left _ (List.subset_append_of_subset_right _ hsub)⟩
    · obtain ⟨qs, hσ, hsub⟩ := ihe h
      exact ⟨qs, hσ, List.subset_append_of_subset_right _ hsub⟩
  | lambda s' param' body' ih =>
    rcases List.mem_append.mp h with h | h
    · exact @ih (param' :: ps) h
    · cases List.mem_singleton.mp h
      exact ⟨ps, rfl, List.Subset.refl _⟩
  | apply s f a ihf iha =>
    rcases List.mem_append.mp h with h | h
    · obtain ⟨qs, hσ, hsub⟩ := iha h
      exact ⟨qs, hσ, List.subset_append_of_subset_right _ hsub⟩
    · obtain ⟨qs, hσ, hsub⟩ := ihf h
      exact ⟨qs, hσ, List.subset_append_of_subset_left _ hsub⟩

end Expr

/-! ## Reads at the top level -/

section toplevel

variable {K : Array Constant}

/-- A statement sets a global exactly if it defines a name. -/
theorem setCount_closing (stmt : Stmt) (count : Nat) :
    setCount [stmt.closing count] = stmt.definedName?.toList.length := by
  cases stmt <;> rfl

/-- The block of a function that is being defined reads nothing, so its own name does not matter. -/
theorem Stmt.visibleNames_of_mem_blockReads {stmt : Stmt} {σ : Scope} {slot : Nat}
    (h : slot ∈ stmt.value.blockReads σ) (names : List String) : stmt.visibleNames names = names := by
  cases stmt with
  | define s x value =>
    have hl : value.isLambda = false := by
      cases value with
      | lambda => cases h
      | _ => rfl
    rw [visibleNames, hl]
    rfl
  | puts s value => rfl
  | expression value => rfl

/-- At the top level a slot is read only while its definition is the latest of its name. -/
theorem isLatest_of_emit {program : Program} {names : List String} {o p : Nat} {c : List Instr}
    {k : List Constant} {scope : Scope}
    (h : Program.emit program (Scope.ofNames names) o p = (⟨c, k, none⟩, scope))
    (hK : PoolHas K p k) (hnames : names.length ≤ maxSlots) {pre rest : List Instr} {slot : UInt8}
    (hsplit : c = pre ++ .getGlobal slot :: rest) :
    ∃ x, IsLatest ((names ++ Program.definedNames program).take (names.length + setCount pre)) x
      slot.toNat := by
  induction program generalizing names o p c k pre with
  | nil =>
    cases h
    simp at hsplit
  | cons stmt stmts ih =>
    obtain ⟨c₁, k₁, σ, c₂, k₂, hstmt, hrest, rfl, rfl⟩ := programEmit_cons_ok h
    obtain ⟨c₀, hvalue, hslot, rfl, rfl⟩ := Stmt.emit_eq_ok_iff.mp hstmt
    have hafter := Stmt.length_namesAfter_le hnames hslot
    have hT := SlotTable.bounded_ofNames (stmt.visibleNames names)
    have hcount : (SlotTable.ofNames (stmt.visibleNames names)).count ≤ maxSlots := by
      rw [SlotTable.count_ofNames]
      exact Nat.le_trans (stmt.visibleNames_prefix names).length_le hafter
    have he := emits_of_yields (Q := fun _ _ => True) [] hvalue hK.left fun _ _ => trivial
    have hzero : setCount c₀ = 0 := he.setCount_eq_zero hT
    rcases append_eq_append_cons hsplit with ⟨r, hstmt, -⟩ | ⟨q, rfl, hq⟩
    · -- a read in the value of the statement
      obtain ⟨r, rfl⟩ : ∃ r, c₀ = pre ++ .getGlobal slot :: r := by
        rcases append_cons_eq_append_cons hstmt with ⟨r, hr, -⟩ | ⟨-, hclosing, -⟩ | ⟨q, -, hnil⟩
        · exact ⟨r, hr⟩
        · cases stmt <;> cases hclosing
        · simp at hnil
      have hread : slot.toNat ∈ stmt.value.blockReads
          (Scope.within (.ofNames (stmt.visibleNames names)) []) := by
        rw [← he.filterMap_globalRead? hT hcount]
        exact List.mem_filterMap.mpr ⟨.getGlobal slot, by simp, rfl⟩
      obtain ⟨x, hx, -⟩ := Expr.exists_of_mem_blockReads hread
      rw [Stmt.visibleNames_of_mem_blockReads hread names] at hx
      rw [setCount_append] at hzero
      have hpre : setCount pre = 0 := by omega
      rw [hpre, Nat.add_zero, List.take_left]
      exact ⟨x, isLatest_of_slot? hx⟩
    · -- a read behind the statement
      have hlength : (stmt.namesAfter names).length
          = names.length + stmt.definedName?.toList.length := List.length_append
      have hset : names.length + setCount (c₀ ++ [stmt.closing names.length] ++ q)
          = (stmt.namesAfter names).length + setCount q := by
        rw [setCount_append, setCount_append, hzero, setCount_closing]
        omega
      rw [hset, Program.append_definedNames_cons]
      exact ih hrest hK.right hafter hq

end toplevel

/-! ## Reads inside functions -/

/-- A value that is compiled is that of a statement, behind those before it. -/
theorem Program.exists_of_mem_scopedValues {program : Program} {names : List String}
    {v : Scope × Expr} (h : v ∈ Program.scopedValues program (Scope.ofNames names)) :
    ∃ before stmt after, program = before ++ stmt :: after ∧
      v = (Scope.ofNames (stmt.visibleNames (names ++ Program.definedNames before)), stmt.value) := by
  induction program generalizing names with
  | nil => cases h
  | cons stmt stmts ih =>
    rw [Program.scopedValues, Scope.visible_ofNames, Scope.scopeAfter_ofNames] at h
    rcases List.mem_cons.mp h with rfl | h
    · exact ⟨[], stmt, stmts, rfl, by rw [show Program.definedNames [] = [] from rfl, List.append_nil]⟩
    · obtain ⟨before, stmt', after, rfl, rfl⟩ := ih h
      refine ⟨stmt :: before, stmt', after, rfl, ?_⟩
      rw [Program.append_definedNames_cons]

/-- Every member of the second of two related lists is related to one of the first. -/
theorem exists_of_mem_forall₂ {α β : Type} {R : α → β → Prop} {l : List α} {l' : List β} {y : β}
    (h : List.Forall₂ R l l') (hy : y ∈ l') : ∃ x ∈ l, R x y := by
  induction h with
  | nil => cases hy
  | cons hxy _ ih =>
    rcases List.mem_cons.mp hy with rfl | hy
    · exact ⟨_, List.mem_cons_self, hxy⟩
    · obtain ⟨x, hx, hR⟩ := ih hy
      exact ⟨x, List.mem_cons_of_mem _ hx, hR⟩

/-- The name and the slot are read inside a function of a statement of the program, and the slot is
that of the latest definition of the name where the statement stands. -/
def Program.ReadsInFunction (program : Program) (x : String) (slot : Nat) : Prop :=
  ∃ before stmt after, program = before ++ stmt :: after ∧
    (x, slot) ∈ stmt.value.functionReads
      (Scope.ofNames (stmt.visibleNames (Program.definedNames before))) ∧
    IsLatest (stmt.visibleNames (Program.definedNames before)) x slot

/-- What the functions in the pool read. -/
theorem readsInFunction_of_represents {program : Program} {K : Array Constant} {globals i : Nat}
    {is : List Instr} {slot : UInt8}
    (hpool : List.Forall₂ (Constant.Represents K.size globals)
      (Program.poolEntries program (Scope.ofNames [])) K.toList)
    (hfun : K[i]? = some (.function (.ofInstrs is))) (hread : .getGlobal slot ∈ is) :
    ∃ x, program.ReadsInFunction x slot.toNat := by
  have hmem : Constant.function (.ofInstrs is) ∈ K.toList :=
    Array.mem_def.mp (Array.mem_of_getElem? hfun)
  obtain ⟨⟨σ, e⟩, hentry, hrep⟩ := exists_of_mem_forall₂ hpool hmem
  obtain ⟨⟨σ₀, e₀⟩, hvalue, hentry⟩ := List.mem_flatMap.mp hentry
  obtain ⟨before, stmt, after, hprogram, hv⟩ := Program.exists_of_mem_scopedValues hvalue
  cases hv
  cases hrep with
  | @function _ s param body _ is' hdecode hblock =>
    rw [Code.decode?_ofInstrs] at hdecode
    cases hdecode
    obtain ⟨qs, rfl, hsub⟩ :=
      @Expr.functionReads_subset_of_mem_poolEntries _ _ _ [] _ _ _ hentry
    have hblockRead : slot.toNat ∈ body.blockReads
        (Scope.within (.ofNames (stmt.visibleNames (Program.definedNames before))) (param :: qs)) := by
      have hmem : slot.toNat ∈ is.filterMap Instr.globalRead? :=
        List.mem_filterMap.mpr ⟨.getGlobal slot, hread, rfl⟩
      rw [hblock.reads_eq] at hmem
      exact hmem
    obtain ⟨x, hx, hfunction⟩ := Expr.exists_of_mem_blockReads hblockRead
    exact ⟨x, before, stmt, after, hprogram, hsub (hfunction (List.cons_ne_nil _ _)),
      isLatest_of_slot? hx⟩

/-! ## Definitions are carried out in order -/

namespace Machine

/-- The bottom frame stands in the main block, behind `n` instructions that set globals. -/
def AtBottom (main : List Instr) (n : Nat) (m : Machine) : Prop :=
  ∃ pre rest, main = pre ++ rest ∧ setCount pre = n ∧
    (m.frame :: m.callers).getLast? = some ⟨.ofInstrs main, codeSize pre, 0⟩

section bottom

variable {K : Array Constant} {main : List Instr} {n k : Nat} {m m' : Machine} {i : Instr}

/-- As long as a function runs, the bottom frame waits. -/
theorem Executes.getLast?_frames (h : Executes m i m') (hcallers : m.callers ≠ []) :
    (m'.frame :: m'.callers).getLast? = m.callers.getLast? := by
  obtain ⟨caller, callers, hcons⟩ := List.exists_cons_of_ne_nil hcallers
  rcases h.frames with ⟨-, hsame⟩ | ⟨t, -, -, hsame⟩ | ⟨-, hcall⟩ | ⟨-, hreturn⟩
  · rw [hsame, hcons, List.getLast?_cons_cons]
  · rw [hsame, hcons, List.getLast?_cons_cons]
  · rw [hcall, hcons, List.getLast?_cons_cons, List.getLast?_cons_cons]
  · rw [hreturn]

/-- While a function runs, what comes next stands in a block that sets no globals. -/
theorem Safe.exists_block (hs : Safe K main m) (hcallers : m.callers ≠ [])
    (hfetch : m.frame.code.fetch m.frame.ip = .instr i) :
    ∃ is, m.frame.code = .ofInstrs is ∧ i ∈ is ∧ setCount is = 0 := by
  obtain ⟨n, limit, -, hframes⟩ := hs
  generalize m.frame = f at hframes hfetch ⊢
  generalize m.callers = cs at hframes hcallers
  generalize m.stack.size = size at hframes
  cases hframes with
  | main _ _ _ => exact absurd rfl hcallers
  | @function body pre rest base caller callers hbal hsplit _ =>
    refine ⟨body ++ [.return_], rfl, ?_, ?_⟩
    · have hwhole : body ++ [.return_] = pre ++ (rest ++ [.return_]) := by
        rw [hsplit, List.append_assoc]
      obtain ⟨rest', hrest⟩ := Code.exists_cons_of_fetch hwhole hfetch
      rw [hwhole, hrest]
      exact List.mem_append_right pre List.mem_cons_self
    · rw [setCount_append, hbal.setCount_eq_zero]
      rfl

/-- At the bottom, what comes next stands in the main block. -/
theorem AtBottom.exists_split (hb : AtBottom main n m) (hcallers : m.callers = [])
    (hfetch : m.frame.code.fetch m.frame.ip = .instr i) :
    ∃ pre rest, main = pre ++ i :: rest ∧ setCount pre = n ∧
      m.frame = ⟨.ofInstrs main, codeSize pre, 0⟩ := by
  obtain ⟨pre, rest, hsplit, hn, hlast⟩ := hb
  rw [hcallers, List.getLast?_singleton] at hlast
  have hframe := Option.some.inj hlast
  rw [hframe] at hfetch
  obtain ⟨rest', rfl⟩ := Code.exists_cons_of_fetch hsplit hfetch
  exact ⟨pre, rest', hsplit, hn, hframe⟩

/-- An instruction of the main block leaves the bottom frame behind as many settings of globals as
before, or behind one more if it is one. -/
theorem AtBottom.executes {pre rest : List Instr} (hsplit : main = pre ++ i :: rest)
    (hsafe : i.SafeAt K 0 0 main pre rest) (hcallers : m.callers = [])
    (hframe : m.frame = ⟨.ofInstrs main, codeSize (pre ++ [i]), 0⟩) (hexec : Executes m i m') :
    AtBottom main (setCount (pre ++ [i])) m' := by
  have hnext : main = (pre ++ [i]) ++ rest := by
    rw [hsplit, List.append_assoc]
    rfl
  rcases hexec.frames with ⟨hsame, hcs⟩ | ⟨t, hjump, hsame, hcs⟩ | ⟨-, hcall⟩ | ⟨-, hreturn⟩
  · refine ⟨pre ++ [i], rest, hnext, rfl, ?_⟩
    rw [hsame, hcs, hcallers, hframe]
    rfl
  · have hset : setCount (pre ++ [i]) = setCount pre := by
      rcases hjump with rfl | rfl <;> exact setCount_append pre _
    obtain ⟨h, pre', rest', hsplit', ht, -, -, hcount⟩ := hsafe.exists_target hjump
    refine ⟨pre', rest', hsplit', hcount.trans hset.symm, ?_⟩
    rw [hsame, hcs, hcallers, hframe, ht]
    rfl
  · refine ⟨pre ++ [i], rest, hnext, rfl, ?_⟩
    rw [hcall, hcallers, hframe]
    rfl
  · rw [hcallers] at hreturn
    cases hreturn

/-- A step either sets no global and leaves the bottom frame behind as many settings as before, or
it sets the next one. -/
theorem AtBottom.step
    (hmain : ∀ pre rest i, main = pre ++ i :: rest → i.SafeAt K 0 0 main pre rest)
    (hs : Safe K main m) (hb : AtBottom main n m) (hstep : m.step = .running m') :
    (m.storing? = none ∧ AtBottom main n m') ∨
      ∃ v, m.storing? = some (n, v) ∧ AtBottom main (n + 1) m' := by
  obtain ⟨i, hfetch, hexec⟩ := step_eq_running_iff.mp hstep
  -- at the bottom the main block runs; above it runs a function, which sets no globals
  by_cases hcallers : m.callers = []
  · obtain ⟨pre, rest, hsplit, hn, hframe⟩ := hb.exists_split hcallers hfetch
    have hsafe := hmain pre rest i hsplit
    have hnext : (m.goto (m.frame.ip + i.size)).frame
        = ⟨.ofInstrs main, codeSize (pre ++ [i]), 0⟩ := by
      rw [Machine.goto, hframe, codeSize_append]
      rfl
    have hbottom := AtBottom.executes (m := m.goto (m.frame.ip + i.size)) hsplit hsafe hcallers hnext hexec
    rw [setCount_append, hn] at hbottom
    cases hset : i.setsGlobal with
    | false =>
      have hzero : setCount [i] = 0 := by rw [setCount_cons, hset]; rfl
      rw [hzero] at hbottom
      exact .inl ⟨storing?_of_fetch hfetch hset, hbottom⟩
    | true =>
      cases hexec with
      | @setGlobal slot s v hs =>
        obtain ⟨-, -, hslot⟩ := hsafe
        rw [Nat.zero_add, hn] at hslot
        refine .inr ⟨v, ?_, hbottom⟩
        rw [storing?_of_setGlobal hfetch hs, hslot]
      | _ => cases hset
  · obtain ⟨is, -, hmem, hzero⟩ := hs.exists_block hcallers hfetch
    have hset : i.setsGlobal = false := by
      simpa using List.countP_eq_zero.mp hzero i hmem
    refine .inl ⟨storing?_of_fetch hfetch hset, ?_⟩
    obtain ⟨pre, rest, hsplit, hn, hlast⟩ := hb
    obtain ⟨caller, callers, hcons⟩ := List.exists_cons_of_ne_nil hcallers
    rw [hcons, List.getLast?_cons_cons, ← hcons] at hlast
    exact ⟨pre, rest, hsplit, hn, (hexec.getLast?_frames hcallers).trans hlast⟩

/-- In a run, globals are set in the order of their slots. -/
theorem stores_of_steps
    (hmain : ∀ pre rest i, main = pre ++ i :: rest → i.SafeAt K 0 0 main pre rest)
    (hsteps : Steps k m m') (hs : Safe K main m) (hb : AtBottom main n m) :
    (stores k m).map Prod.fst = List.range' n (stores k m).length ∧
      AtBottom main (n + (stores k m).length) m' := by
  induction hsteps generalizing n with
  | refl m => exact ⟨rfl, hb⟩
  | @cons k m m₁ m₂ hstep _ ih =>
    have hs₁ : Safe K main m₁ := hs.of_steps hmain (.one hstep)
    rw [stores_succ hstep]
    rcases hb.step hmain hs hstep with ⟨hnone, hb₁⟩ | ⟨v, hsome, hb₁⟩
    · rw [hnone]
      exact ih hs₁ hb₁
    · obtain ⟨hslots, hbottom⟩ := ih hs₁ hb₁
      rw [hsome, Option.toList_some, List.singleton_append, List.map_cons, List.length_cons, hslots,
        List.range'_succ]
      refine ⟨rfl, ?_⟩
      rwa [Nat.add_assoc, Nat.add_comm 1] at hbottom

/-- A safe machine that is about to read a global finds it set. -/
theorem Safe.exists_global
    (hmain : ∀ pre rest i, main = pre ++ i :: rest → i.SafeAt K 0 0 main pre rest)
    (hs : Safe K main m) {slot : UInt8}
    (hfetch : m.frame.code.fetch m.frame.ip = .instr (.getGlobal slot)) :
    ∃ v, m.global? slot.toNat = some v := by
  cases hv : m.global? slot.toNat with
  | some v => exact ⟨v, rfl⟩
  | none =>
    have hfail : m.step = .failed (.unsetGlobal slot.toNat) (m.goto (m.frame.ip + 2)) := by
      have hgoto : (m.goto (m.frame.ip + 2)).global? slot.toNat = none := hv
      unfold Machine.step
      rw [hfetch]
      show ((m.goto (m.frame.ip + 2)).exec (.getGlobal slot)).toStep = _
      rw [exec, hgoto]
      rfl
    have hkeep := hs.step hmain
    rw [hfail] at hkeep
    rcases hkeep with ⟨op, found, he⟩ | ⟨op, he⟩ | ⟨found, he⟩ <;> cases he

end bottom

/-- If the keys of some entries are the numbers in order, the latest entry of a number is the one at
its place. -/
theorem getElem?_of_latest? {α : Type} {l : List (Nat × α)}
    (hkeys : l.map Prod.fst = List.range' 0 l.length) {i : Nat} {v : α}
    (h : latest? l i = some v) : l[i]? = some (i, v) := by
  have hkey (j : Nat) (p : Nat × α) (hj : l[j]? = some p) : p.1 = j := by
    have hlt := (List.getElem?_eq_some_iff.mp hj).1
    have hmap : (l.map Prod.fst)[j]? = some p.1 := by rw [List.getElem?_map, hj]; rfl
    rw [hkeys, ← List.range_eq_range', List.getElem?_range hlt] at hmap
    exact (Option.some.inj hmap).symm
  obtain ⟨l₁, l₂, hl, -⟩ := List.lookup_eq_some_iff.mp h
  have hmem : (i, v) ∈ l := by
    rw [← List.mem_reverse, hl]
    exact List.mem_append_right l₁ List.mem_cons_self
  obtain ⟨j, hj⟩ := List.mem_iff_getElem?.mp hmem
  obtain rfl : i = j := hkey j (i, v) hj
  exact hj

end Machine

/-! ## The evaluator -/

namespace Evaluator

/-- The definitions that are carried out while a program is evaluated, in order. -/
def definesAtFuel (fuel : Nat) : Program → Session → List (String × Value)
  | [], _ => []
  | stmt :: stmts, s =>
    match evalAtFuel s.globals fuel stmt.value [] s.fresh with
    | .value v fresh =>
      (stmt.definedName?.map (·, v)).toList ++ definesAtFuel fuel stmts (s.after stmt v fresh)
    | .error _ | .outOfFuel => []

/-- Behind a statement a global has the value that the statement defines it with, or the one it
had. -/
theorem global?_after (s : Session) (stmt : Stmt) (v : Value) (fresh : Nat) (x : String) :
    (s.after stmt v fresh).global? x
      = (latest? (stmt.definedName?.map (·, v)).toList x).or (s.global? x) := by
  cases stmt with
  | define span y value =>
    show _ = ([(y, v)].lookup x).or (s.global? x)
    by_cases hx : x = y
    · subst hx
      rw [List.lookup_cons_self]
      exact lookup_setGlobal_self _ x v
    · rw [List.lookup_cons, beq_false_of_ne hx]
      exact lookup_setGlobal_of_ne _ v hx
  | puts span value => rfl
  | expression value => rfl

/-- In the evaluator a global has the value of its latest definition. -/
theorem global?_runAtFuel (fuel : Nat) (program : Program) (s : Session) (x : String) :
    (runAtFuel fuel program s).session.global? x
      = (latest? (definesAtFuel fuel program s) x).or (s.global? x) := by
  induction program generalizing s with
  | nil => rfl
  | cons stmt stmts ih =>
    cases heval : evalAtFuel s.globals fuel stmt.value [] s.fresh with
    | value v fresh =>
      rw [runAtFuel_cons_of_value heval, definesAtFuel, heval]
      show (runAtFuel fuel stmts (s.after stmt v fresh)).session.global? x = _
      rw [ih, global?_after, latest?_append, Option.or_assoc]
    | error e =>
      rw [runAtFuel, definesAtFuel, heval]
      rfl
    | outOfFuel =>
      rw [runAtFuel, definesAtFuel, heval]
      rfl

end Evaluator

/-! ## Reads of accepted programs -/

/-- A slot that is read inside a function belongs to a definition of the name. -/
theorem Program.ReadsInFunction.getElem?_definedNames {program : Program} {x : String} {slot : Nat}
    (h : program.ReadsInFunction x slot) : (Program.definedNames program)[slot]? = some x := by
  obtain ⟨before, stmt, after, rfl, -, hslot, -⟩ := h
  obtain ⟨rest, hrest⟩ := stmt.visibleNames_prefix (Program.definedNames before)
  have hnames : Program.definedNames (before ++ stmt :: after)
      = stmt.visibleNames (Program.definedNames before) ++ (rest ++ Program.definedNames after) := by
    calc Program.definedNames (before ++ stmt :: after)
      _ = Program.definedNames before ++ Program.definedNames (stmt :: after) :=
          List.filterMap_append
      _ = stmt.namesAfter (Program.definedNames before) ++ Program.definedNames after :=
          Program.append_definedNames_cons _ _ _
      _ = _ := by rw [← hrest, List.append_assoc]
  rw [hnames, List.getElem?_append_left (List.getElem?_eq_some_iff.mp hslot).1]
  exact hslot

open Machine (Steps stores)

/-- The definitions that the machine carries out in its first `k` steps, in order: the names that the
program defines, with the values that are stored. They belong together one by one since the slots
are set in the order of the definitions (`Compiled.stores`). -/
def executedDefines (program : Program) (b : Bytecode) (k : Nat) : List (String × Machine.Value) :=
  (Program.definedNames program).zip ((stores k (Machine.start b)).map Prod.snd)

section reads

variable {program : Program} {b : Bytecode} {c : List Instr} {k : Nat} {m : Machine} {slot : UInt8}

/-- The slots are set in the order of the definitions, from the first on; the bottom frame stands
behind as many instructions that set globals. -/
theorem Compiled.stores (h : Compiled program b c) (hsteps : Steps k (Machine.start b) m) :
    (Machine.stores k (Machine.start b)).map Prod.fst
      = List.range' 0 (Machine.stores k (Machine.start b)).length ∧
    Machine.AtBottom c (Machine.stores k (Machine.start b)).length m := by
  have hstart : Machine.AtBottom c 0 (Machine.start b) := by
    refine ⟨[], c, rfl, rfl, ?_⟩
    rw [← h.main_eq]
    rfl
  have hstores := Machine.stores_of_steps h.safeAt hsteps (Machine.safe_start b h.main_eq) hstart
  rwa [Nat.zero_add] at hstores

/-- The name that is read, from the slot. Inside a function it is one that the function reads; at the
top level its definition is the latest so far. -/
theorem Compiled.exists_name (h : Compiled program b c) (hsteps : Steps k (Machine.start b) m)
    (hfetch : m.frame.code.fetch m.frame.ip = .instr (.getGlobal slot)) :
    ∃ x, (Program.definedNames program)[slot.toNat]? = some x ∧
      (m.callers ≠ [] → program.ReadsInFunction x slot.toNat) ∧
      (m.callers = [] → IsLatest ((Program.definedNames program).take
        (Machine.stores k (Machine.start b)).length) x slot.toNat) := by
  by_cases hcallers : m.callers = []
  · obtain ⟨scope, hemit⟩ := h.emit_eq
    obtain ⟨pre, rest, hsplit, hn, -⟩ := (h.stores hsteps).2.exists_split hcallers hfetch
    obtain ⟨x, hlatest⟩ := isLatest_of_emit hemit (Compiled.poolHas b) (Nat.zero_le _) hsplit
    rw [List.nil_append, List.length_nil, Nat.zero_add, hn] at hlatest
    refine ⟨x, ?_, fun hne => absurd hcallers hne, fun _ => hlatest⟩
    have hslot := hlatest.1
    rw [List.getElem?_take] at hslot
    split at hslot
    · exact hslot
    · cases hslot
  · have hsafe := (Machine.safe_start b h.main_eq).of_steps h.safeAt hsteps
    obtain ⟨is, hcode, hmem, -⟩ := hsafe.exists_block hcallers hfetch
    obtain ⟨i, hfun⟩ := (Machine.FromPool.of_steps hsteps).exists_of_callers_ne_nil hcallers
    rw [hcode] at hfun
    obtain ⟨x, hread⟩ := readsInFunction_of_represents h.represents hfun hmem
    exact ⟨x, hread.getElem?_definedNames, fun _ => hread, fun hnil => absurd hnil hcallers⟩

/-- The read finds the value that was stored in the slot. -/
theorem Compiled.exists_stored (h : Compiled program b c) (hsteps : Steps k (Machine.start b) m)
    (hfetch : m.frame.code.fetch m.frame.ip = .instr (.getGlobal slot)) :
    ∃ v, m.global? slot.toNat = some v ∧
      (Machine.stores k (Machine.start b))[slot.toNat]? = some (slot.toNat, v) := by
  have hsafe := (Machine.safe_start b h.main_eq).of_steps h.safeAt hsteps
  obtain ⟨v, hv⟩ := hsafe.exists_global h.safeAt hfetch
  have hunset : (Machine.start b).global? slot.toNat = none := by
    simp [Machine.start, Machine.global?]
  have hlatest := Machine.global?_of_steps hsteps slot.toNat
  rw [hv, hunset, Option.or_none] at hlatest
  exact ⟨v, hv, Machine.getElem?_of_latest? (h.stores hsteps).1 hlatest.symm⟩

/-- A definition that is carried out has its name from the program and its value from the slot that
was set. -/
theorem getElem?_executedDefines {j : Nat} {x : String} {v : Machine.Value} :
    (executedDefines program b k)[j]? = some (x, v) ↔
      (Program.definedNames program)[j]? = some x ∧
        ((stores k (Machine.start b)).map Prod.snd)[j]? = some v :=
  List.getElem?_zip_eq_some

/-- The names of the definitions that have been carried out. -/
theorem name?_executedDefines {j : Nat} {x : String}
    (h : ((executedDefines program b k)[j]?).map Prod.fst = some x) :
    ((Program.definedNames program).take (stores k (Machine.start b)).length)[j]? = some x := by
  obtain ⟨⟨y, v⟩, hj, rfl⟩ := Option.map_eq_some_iff.mp h
  obtain ⟨hname, hvalue⟩ := getElem?_executedDefines.mp hj
  have hlt := (List.getElem?_eq_some_iff.mp hvalue).1
  rw [List.length_map] at hlt
  rw [List.getElem?_take, if_pos hlt]
  exact hname

end reads

/-- **Which definition a global is read from.** When the machine is about to read a global, it
carries out the read, and what it gets is the value of one of the definitions carried out so far,
the one that the slot belongs to. At the top level, and wherever the name has not been defined again
since, this is the latest definition of the name. Inside a function it is the latest one in front of
the statement that the function is written in. In the evaluator a global always has the value of its
latest definition. -/
theorem globalReads_of_compile {program : Program} {b : Bytecode} (h : compile program = .ok b) :
    (∀ k m slot, Steps k (Machine.start b) m →
      m.frame.code.fetch m.frame.ip = .instr (.getGlobal slot) →
      ∃ x v, (executedDefines program b k)[slot.toNat]? = some (x, v) ∧
        m.step = .running { m.goto (m.frame.ip + 2) with stack := m.stack.push v } ∧
        (m.callers = [] ∨ (∀ j, slot.toNat < j →
            ((executedDefines program b k)[j]?).map Prod.fst ≠ some x) →
          latest? (executedDefines program b k) x = some v) ∧
        (m.callers ≠ [] → program.ReadsInFunction x slot.toNat)) ∧
    ∀ fuel before x,
      (Evaluator.runAtFuel fuel before .start).session.global? x
        = latest? (Evaluator.definesAtFuel fuel before .start) x := by
  constructor
  · intro k m slot hsteps hfetch
    obtain ⟨c, hcompiled⟩ := compiled_of_compile h
    obtain ⟨x, hname, hfunction, htop⟩ := hcompiled.exists_name hsteps hfetch
    obtain ⟨v, hv, hstored⟩ := hcompiled.exists_stored hsteps hfetch
    have hexecuted : (executedDefines program b k)[slot.toNat]? = some (x, v) := by
      rw [getElem?_executedDefines, List.getElem?_map, hstored]
      exact ⟨hname, rfl⟩
    refine ⟨x, v, hexecuted, ?_, fun hcase => ?_, hfunction⟩
    · exact Machine.step_eq_running_iff.mpr ⟨.getGlobal slot, hfetch, .getGlobal hv⟩
    · refine latest?_eq_some hexecuted fun j hj hlater => ?_
      rcases hcase with hcallers | hlast
      · exact (htop hcallers).2 j hj (name?_executedDefines hlater)
      · exact hlast j hj hlater
  · intro fuel before x
    rw [Evaluator.global?_runAtFuel]
    exact Option.or_none

/-- A global that a function reads, defined again before the function is called. -/
def redefinedGlobal : Program :=
  [.define default "x" (.integer default 1),
    .define default "f" (.lambda default "y" (.name default "x")),
    .define default "x" (.integer default 2),
    .puts default (.apply default (.name default "f") (.integer default 0))]

/-- The code of the function in `redefinedGlobal`. -/
def readsFirstCode : Code := .ofInstrs [.getGlobal 0, .return_]

/-- The bytecode of `redefinedGlobal`. -/
def redefinedGlobalCode : Bytecode :=
  ⟨.ofInstrs [.constant 0, .setGlobal 0, .constant 1, .setGlobal 1, .constant 2, .setGlobal 2,
      .constant 3, .getGlobal 1, .call, .pop],
    #[.integer 1, .function readsFirstCode, .integer 2, .integer 0]⟩

/-- The machine that runs `redefinedGlobal`, right after the function has been called. -/
def redefinedGlobalCalled : Machine where
  pool := redefinedGlobalCode.constants
  stack := #[.integer 0]
  globals := #[some (.integer 1), some (.function 1 readsFirstCode), some (.integer 2)]
  frame := ⟨readsFirstCode, 0, 0⟩
  callers := [⟨redefinedGlobalCode.main, 17, 0⟩]
  shown := #[]

/-- The function of `redefinedGlobal` is entered after nine steps. -/
theorem steps_redefinedGlobalCalled :
    Steps 9 (Machine.start redefinedGlobalCode) redefinedGlobalCalled :=
  Machine.steps_of_runAtFuel_outOfFuel (by decide +kernel)

/-- The read inside the function gets the first definition, by which the name is meant where the
function is written. -/
theorem globalReads_redefinedGlobal :
    compile redefinedGlobal = .ok redefinedGlobalCode ∧
    Steps 9 (Machine.start redefinedGlobalCode) redefinedGlobalCalled ∧
    ∃ x v, (executedDefines redefinedGlobal redefinedGlobalCode 9)[0]? = some (x, v) ∧
      redefinedGlobalCalled.step = .running
        { redefinedGlobalCalled.goto 2 with stack := redefinedGlobalCalled.stack.push v } ∧
      redefinedGlobal.ReadsInFunction x 0 := by
  have hcompile : compile redefinedGlobal = .ok redefinedGlobalCode := rfl
  refine ⟨hcompile, steps_redefinedGlobalCalled, ?_⟩
  obtain ⟨x, v, hexecuted, hstep, -, hfunction⟩ := (globalReads_of_compile hcompile).1 9
    redefinedGlobalCalled 0 steps_redefinedGlobalCalled (by decide +kernel)
  exact ⟨x, v, hexecuted, hstep, hfunction (by decide)⟩

/-- The latest definition that has been carried out is another one: the machine reads and shows 1,
where the latest value is 2, as in the evaluator. -/
theorem globalRead_ne_latest :
    compile redefinedGlobal = .ok redefinedGlobalCode ∧
    Steps 9 (Machine.start redefinedGlobalCode) redefinedGlobalCalled ∧
    redefinedGlobalCalled.step = .running
      { redefinedGlobalCalled.goto 2 with stack := #[.integer 0, .integer 1] } ∧
    latest? (executedDefines redefinedGlobal redefinedGlobalCode 9) "x" = some (.integer 2) ∧
    ((Machine.start redefinedGlobalCode).runAtFuel 13).state.shown = #[.integer 1] ∧
    (Evaluator.runAtFuel 2 redefinedGlobal .start).shown.map Evaluator.Value.outline
      = [.integer 2] := by
  refine ⟨rfl, steps_redefinedGlobalCalled, ?_, ?_, ?_, ?_⟩
  · decide +kernel
  · decide +kernel
  · decide +kernel
  · rfl

end Duet
