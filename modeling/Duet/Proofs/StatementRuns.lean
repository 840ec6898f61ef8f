import Duet.Proofs.AppendedStatements
import Duet.Proofs.GlobalReads
import Duet.Proofs.RawRuns

/-!
# Runs, statement by statement

The code of a statement is that of its value, and then one instruction that takes the value off the
stack: a definition stores it in the next slot, every other statement hands it over. A run that halts
goes through all statements in this way. Jumps do not lead out of a statement, and functions neither
store nor hand over anything; so nothing else is ever stored or handed over.

* `CarriesOut`: the machine goes through the statements of a program, and these are their values.
* `Evaluating`: a state while the value of a statement is computed. From there the machine comes to
  the instruction that ends the statement, if it comes to the end of the block at all
  (`Evaluating.exists_closing`).
* `carriesOut_of_emit`: what has become of the values of the statements when the block has ended.
* `finalState_of_compile`: the state in which the machine in memory halts.
-/

namespace Duet

/-! ## Statements and their values -/

/-- Whether a statement is a definition. The others hand over their values. -/
def Stmt.isDefinition (stmt : Stmt) : Bool :=
  stmt.definedName?.isSome

/-- Of the values of all statements, those of the definitions or, for `false`, of the others. -/
def Program.valuesOf (isDefinition : Bool) (program : Program) (values : List Machine.Value) :
    List Machine.Value :=
  ((program.zip values).filter fun p => p.1.isDefinition == isDefinition).map Prod.snd

/-- The values of one kind are those of the first statement and those of the rest. -/
theorem Program.valuesOf_cons (kind : Bool) (stmt : Stmt) (stmts : Program) (v : Machine.Value)
    (vs : List Machine.Value) :
    Program.valuesOf kind (stmt :: stmts) (v :: vs)
      = Program.valuesOf kind [stmt] [v] ++ Program.valuesOf kind stmts vs := by
  unfold Program.valuesOf
  rw [← List.map_append, ← List.filter_append]
  rfl

/-- There are as many values of one kind as there are statements of this kind. -/
theorem Program.length_valuesOf (kind : Bool) {program : Program} {values : List Machine.Value}
    (hlength : values.length = program.length) :
    (Program.valuesOf kind program values).length
      = program.countP fun stmt => stmt.isDefinition == kind := by
  induction program generalizing values with
  | nil => simp [Program.valuesOf]
  | cons stmt stmts ih =>
    obtain ⟨v, vs, rfl⟩ := List.exists_cons_of_length_eq_add_one hlength
    rw [Program.valuesOf_cons, List.length_append, ih (Nat.succ.inj hlength), List.countP_cons,
      Nat.add_comm]
    cases hkind : stmt.isDefinition == kind <;> simp [Program.valuesOf, hkind]

/-! ## The code of a value -/

/-- Whether an instruction ends a statement. -/
def Instr.closes : Instr → Bool
  | .pop | .setGlobal _ => true
  | _ => false

section balanced

variable {K : Array Constant} {slots locals o h h' count : Nat} {A c q r : List Instr} {i : Instr}

/-- Balanced code does not end a statement. -/
theorem Balanced.closes_eq_false (hb : Balanced K slots locals o h c h') (hi : i ∈ c) :
    i.closes = false := by
  induction hb with
  | @instr _ _ _ j hfit =>
    obtain rfl := List.mem_singleton.mp hi
    cases i with
    | pop | setGlobal _ => exact hfit.elim
    | _ => rfl
  | function _ _ _ =>
    obtain rfl := List.mem_singleton.mp hi
    rfl
  | append _ _ iha ihb =>
    rcases List.mem_append.mp hi with hi | hi
    · exact iha hi
    · exact ihb hi
  | branches _ _ _ _ _ _ iha ihb =>
    simp only [List.mem_cons, List.mem_append] at hi
    rcases hi with rfl | hi | rfl | hi
    · rfl
    · exact iha hi
    · rfl
    · exact ihb hi

/-- Jumps in the code of a value do not lead out of it. -/
theorem Balanced.exists_target (hb : Balanced K slots 0 o 0 c 1) (hA : Between A o count)
    (hcount : count ≤ slots) (hc : c = q ++ i :: r) {t : UInt16}
    (hi : i = .jump t ∨ i = .jumpIfNotTrue t) :
    ∃ q' r', c = q' ++ r' ∧ codeSize (A ++ q') = t.toNat := by
  obtain ⟨n, hn⟩ := Nat.exists_eq_add_of_le' hcount
  rw [← hA.setCount_eq] at hn
  obtain ⟨-, hsafe⟩ := hb.safeAt A [] (Nat.le_refl 0) hA.size_eq hA.height_eq hn q r i hc
  obtain ⟨h, pre, rest, hsplit, ht, hlt, -⟩ := hsafe.exists_target hi
  rw [List.append_nil] at hsplit
  rcases List.append_eq_append_iff.mp hsplit with ⟨q', rfl, hq'⟩ | ⟨gone, rfl, -⟩
  · exact ⟨q', rest, hq', ht⟩
  · -- a target inside the code before would lie behind the jump
    rw [codeSize_append, codeSize_append] at hlt
    omega

/-- The place behind a statement is one between statements. -/
theorem Between.closing {names : List String} (hA : Between A o names.length)
    (hb : Balanced K slots 0 o 0 c 1) (stmt : Stmt) :
    Between (A ++ c ++ [stmt.closing names.length])
      (o + codeSize (c ++ [stmt.closing names.length])) (stmt.namesAfter names).length := by
  rw [codeSize_append, ← Nat.add_assoc]
  cases stmt with
  | define span x value =>
    rw [Stmt.namesAfter, List.length_append]
    exact hA.setGlobal hb _
  | puts span value | expression value =>
    rw [Stmt.namesAfter, List.length_append]
    exact hA.pop hb

end balanced

/-- A function that is being defined sees no fewer names. -/
theorem Stmt.length_le_visibleNames (stmt : Stmt) (names : List String) :
    names.length ≤ (stmt.visibleNames names).length := by
  cases stmt with
  | define span x value =>
    rw [visibleNames]
    split
    · rw [List.length_append]
      exact Nat.le_add_right _ _
    · exact Nat.le_refl _
  | puts span value | expression value => exact Nat.le_refl _

namespace Machine

/-- The machine goes through the statements of a program, from one state to another. The value of a
statement is what stands on the stack, alone, when the code of the value has been carried out; the
next step ends the statement. -/
inductive CarriesOut : Program → Machine → List Value → Machine → Prop
  | nil {m : Machine} : CarriesOut [] m [] m
  | cons {stmt : Stmt} {stmts : Program} {k : Nat} {m m₁ m₂ last : Machine} {v : Value}
      {vs : List Value} :
      Steps k m m₁ → m₁.callers = [] → m₁.frame.ip = m.frame.ip + stmt.value.codeLength →
      m₁.stack = #[v] → m₁.step = .running m₂ → CarriesOut stmts m₂ vs last →
      CarriesOut (stmt :: stmts) m (v :: vs) last

/-- Every statement has one value. -/
theorem CarriesOut.length_eq {program : Program} {m last : Machine} {values : List Value}
    (h : CarriesOut program m values last) : values.length = program.length := by
  induction h with
  | nil => rfl
  | cons _ _ _ _ _ _ ih => rw [List.length_cons, List.length_cons, ih]

/-- Outside of all functions, the machine stands in the main block behind the given code. -/
def StandsBehind (main pre : List Instr) (m : Machine) : Prop :=
  m.callers = [] ∧ m.frame = ⟨.ofInstrs main, codeSize pre, 0⟩

/-- The machine stands at the offset behind the code. -/
theorem StandsBehind.ip_eq {main pre : List Instr} {m : Machine} (h : StandsBehind main pre m) :
    m.frame.ip = codeSize pre :=
  congrArg Frame.ip h.2

/-- At the end of the main block the machine halts. -/
theorem StandsBehind.step_eq {main : List Instr} {m : Machine} (h : StandsBehind main main m) :
    m.step = .halted m := by
  rw [step_at_end (congrArg Frame.code h.2) h.ip_eq, h.1]
  rfl

section evaluating

variable {K : Array Constant} {main A c rest : List Instr} {slots count k : Nat} {i : Instr}
  {m₀ m m' last : Machine}

/-- What an instruction of the main block does to the bottom frame: it may only jump. -/
theorem Executes.getLast?_of_bottom (hexec : Executes m i m') (hcallers : m.callers = []) :
    ∃ ip, (m'.frame :: m'.callers).getLast? = some ⟨m.frame.code, ip, m.frame.base⟩ ∧
      (ip = m.frame.ip ∨ ∃ t, (i = .jump t ∨ i = .jumpIfNotTrue t) ∧ ip = t.toNat) := by
  rcases hexec.frames with ⟨hframe, hcs⟩ | ⟨t, hi, hframe, hcs⟩ | ⟨-, hcs⟩ | ⟨-, hreturn⟩
  · refine ⟨m.frame.ip, ?_, .inl rfl⟩
    rw [hframe, hcs, hcallers]
    rfl
  · refine ⟨t.toNat, ?_, .inr ⟨t, hi, rfl⟩⟩
    rw [hframe, hcs, hcallers]
    rfl
  · refine ⟨m.frame.ip, ?_, .inl rfl⟩
    rw [hcs, hcallers]
    rfl
  · rw [hcallers] at hreturn
    cases hreturn

/-- An instruction inside a statement hands over nothing and stores nothing. -/
theorem Executes.keeps (hexec : Executes m i m') (hi : i.closes = false) :
    m'.shown = m.shown ∧ m'.globals = m.globals := by
  cases hexec with
  | pop _ | setGlobal _ => cases hi
  | _ => exact ⟨rfl, rfl⟩

/-- While the value of a statement is computed, whose code is `c` behind `A`: the bottom frame stands
in this code or at its end, and nothing has been handed over or stored since `m₀`. -/
structure Evaluating (main A c : List Instr) (m₀ m : Machine) : Prop where
  bottom : ∃ q r, c = q ++ r ∧
    (m.frame :: m.callers).getLast? = some ⟨.ofInstrs main, codeSize (A ++ q), 0⟩
  shown_eq : m.shown = m₀.shown
  globals_eq : m.globals = m₀.globals

/-- The evaluation of a value begins behind the code in front of it. -/
theorem Evaluating.start (hm : StandsBehind main A m) : Evaluating main A c m m := by
  obtain ⟨hcallers, hframe⟩ := hm
  refine ⟨⟨[], c, rfl, ?_⟩, rfl, rfl⟩
  rw [hcallers, hframe, List.append_nil]
  rfl

/-- At the top level, the machine stands in the code of the value. -/
theorem Evaluating.exists_standsBehind (h : Evaluating main A c m₀ m) (hcallers : m.callers = []) :
    ∃ q r, c = q ++ r ∧ StandsBehind main (A ++ q) m := by
  obtain ⟨⟨q, r, hc, hlast⟩, -, -⟩ := h
  rw [hcallers] at hlast
  exact ⟨q, r, hc, hcallers, Option.some.inj hlast⟩

section code

variable (hmain : ∀ pre rest i, main = pre ++ i :: rest → i.SafeAt K 0 0 main pre rest)
include hmain

/-- Functions do not end statements. -/
theorem Safe.closes_eq_false (hs : Safe K main m) (hcallers : m.callers ≠ [])
    (hfetch : m.frame.code.fetch m.frame.ip = .instr i) : i.closes = false := by
  rcases hs.safeAt_of_fetch hmain hfetch with rfl | ⟨_, locals, _, _, _, hlocals, -, hsafe⟩
  · rfl
  · have hone := hlocals hcallers
    cases i with
    | pop | setGlobal _ =>
      rw [hone] at hsafe
      exact absurd hsafe.1 Nat.one_ne_zero
    | _ => rfl

variable (hsplit : main = A ++ c ++ rest) (hb : Balanced K slots 0 (codeSize A) 0 c 1)
  (hA : Between A (codeSize A) count) (hcount : count ≤ slots)
include hsplit hb hA hcount

/-- A step goes on computing the value, unless the value has been computed. -/
theorem Evaluating.step (hs : Safe K main m) (h : Evaluating main A c m₀ m)
    (hstep : m.step = .running m') :
    Evaluating main A c m₀ m' ∨ StandsBehind main (A ++ c) m := by
  obtain ⟨i, hfetch, hexec⟩ := step_eq_running_iff.mp hstep
  by_cases hcallers : m.callers = []
  · obtain ⟨q, r, hc, hm⟩ := h.exists_standsBehind hcallers
    have hwhole : main = (A ++ q) ++ (r ++ rest) := by
      rw [hsplit, hc]
      simp only [List.append_assoc]
    rw [hm.2] at hfetch
    obtain ⟨rest', hrest'⟩ := Code.exists_cons_of_fetch hwhole hfetch
    cases r with
    | nil =>
      rw [List.append_nil] at hc
      exact .inr (hc ▸ hm)
    | cons j r =>
      obtain ⟨rfl, -⟩ := List.cons.inj hrest'
      refine .inl ?_
      have hcloses : j.closes = false := hb.closes_eq_false (hc ▸ by simp)
      obtain ⟨hshown, hglobals⟩ := hexec.keeps hcloses
      obtain ⟨ip, hlast, hip⟩ := hexec.getLast?_of_bottom hcallers
      obtain ⟨q', r', hc', hnext⟩ : ∃ q' r', c = q' ++ r' ∧ codeSize (A ++ q') = ip := by
        rcases hip with rfl | ⟨t, hj, rfl⟩
        · refine ⟨q ++ [j], r, by rw [hc]; simp, ?_⟩
          show codeSize (A ++ (q ++ [j])) = m.frame.ip + j.size
          rw [hm.ip_eq, ← List.append_assoc, codeSize_append]
          rfl
        · exact hb.exists_target hA hcount hc hj
      refine ⟨⟨q', r', hc', ?_⟩, hshown.trans h.shown_eq, hglobals.trans h.globals_eq⟩
      rw [hlast, hnext]
      show some (Frame.mk m.frame.code ip m.frame.base) = _
      rw [hm.2]
  · -- a function that is running leaves the bottom frame alone
    refine .inl ?_
    obtain ⟨hshown, hglobals⟩ := hexec.keeps (hs.closes_eq_false hmain hcallers hfetch)
    obtain ⟨q, r, hc, hlast⟩ := h.bottom
    refine ⟨⟨q, r, hc, ?_⟩, hshown.trans h.shown_eq, hglobals.trans h.globals_eq⟩
    obtain ⟨caller, callers, hcons⟩ := List.exists_cons_of_ne_nil hcallers
    rw [hcons, List.getLast?_cons_cons, ← hcons] at hlast
    exact (hexec.getLast?_frames hcallers).trans hlast

/-- A run that gets past the code of the value comes to its end first. -/
theorem Evaluating.exists_closing (hsteps : Steps k m last) (hs : Safe K main m)
    (h : Evaluating main A c m₀ m) (hlast : last.callers = [])
    (hpast : codeSize (A ++ c) < last.frame.ip) :
    ∃ j l m₁, Steps j m m₁ ∧ Steps l m₁ last ∧ Evaluating main A c m₀ m₁ ∧
      StandsBehind main (A ++ c) m₁ := by
  induction hsteps with
  | refl m =>
    obtain ⟨q, r, hc, hm⟩ := h.exists_standsBehind hlast
    rw [hm.ip_eq, hc, codeSize_append, codeSize_append, codeSize_append] at hpast
    omega
  | @cons k m m₁ last hstep hrest ih =>
    rcases h.step hmain hsplit hb hA hcount hs hstep with hnext | hstands
    · obtain ⟨j, l, m₂, hj, hl, hm₂⟩ := ih (hs.of_steps hmain (.one hstep)) hnext hlast hpast
      exact ⟨j + 1, l, m₂, .cons hstep hj, hl, hm₂⟩
    · exact ⟨0, k + 1, m, .refl m, .cons hstep hrest, h, hstands⟩

end code

/-! ## The end of a statement -/

/-- Behind the code of a value, the value stands on the stack alone. -/
theorem Safe.stack_eq_of_standsBehind (hsplit : main = A ++ c ++ rest)
    (hb : Balanced K slots 0 (codeSize A) 0 c 1) (hA : Between A (codeSize A) count)
    (hs : Safe K main m) (hm : StandsBehind main (A ++ c) m) : ∃ v, m.stack = #[v] := by
  obtain ⟨pre, rest', hsplit', hframe, hsize⟩ := hs.exists_split hm.1
  have hip : codeSize pre = codeSize (A ++ c) := by rw [← hm.ip_eq, hframe]
  obtain ⟨rfl, -⟩ := Code.boundary_inj (congrArg Code.ofInstrs (hsplit'.symm.trans hsplit)) hip
  rw [hA.height_append_of_balanced hb] at hsize
  exact Array.size_eq_one_iff.mp hsize

/-- Storing in the next slot adds a slot. -/
theorem setSlot_size (globals : Array (Option Value)) (v : Value) :
    setSlot globals globals.size v = globals.push (some v) := by
  unfold setSlot
  rw [if_neg (Nat.lt_irrefl _), Nat.sub_self, Array.replicate_zero, Array.append_empty]

/-- The instruction that ends a statement hands its value over or, for a definition, stores it in
the next slot. -/
theorem Executes.closing {stmt : Stmt} {v : Value} (hexec : Executes m (stmt.closing count) m')
    (hcount : m.globals.size = count) (hslot : stmt.definedName? ≠ none → count < maxSlots)
    (hstack : m.stack = #[v]) :
    m'.frame = m.frame ∧ m'.callers = m.callers ∧
      m'.shown.toList = m.shown.toList ++ Program.valuesOf false [stmt] [v] ∧
      m'.globals.toList = m.globals.toList ++ (Program.valuesOf true [stmt] [v]).map some := by
  have hpush (s : Array Value) (w : Value) (h : m.stack = s.push w) : w = v := by
    have heq : s.push w = (#[] : Array Value).push v := h.symm.trans hstack
    exact (Array.push_eq_push.mp heq).1
  cases stmt with
  | define span x value =>
    cases hexec with
    | @setGlobal _ s w hs =>
      obtain rfl := hpush s w hs
      rw [toNat_toUInt8 (hslot (by simp [Stmt.definedName?])), ← hcount, setSlot_size]
      simp [Program.valuesOf, Stmt.isDefinition, Stmt.definedName?]
  | puts span value | expression value =>
    cases hexec with
    | @pop s w hs =>
      obtain rfl := hpush s w hs
      simp [Program.valuesOf, Stmt.isDefinition, Stmt.definedName?]

/-- A run that comes to the end of the main block goes through the next statement: to the end of the
code of its value, by one step behind the statement, and on from there. -/
theorem Safe.exists_statement {stmt : Stmt}
    (hmain : ∀ pre rest i, main = pre ++ i :: rest → i.SafeAt K 0 0 main pre rest)
    (hsplit : main = A ++ c ++ stmt.closing count :: rest)
    (hb : Balanced K slots 0 (codeSize A) 0 c 1) (hA : Between A (codeSize A) count)
    (hcount : count ≤ slots) (hslot : stmt.definedName? ≠ none → count < maxSlots)
    (hs : Safe K main m) (hm : StandsBehind main A m) (hglobals : m.globals.size = count)
    (hsteps : Steps k m last) (hlast : StandsBehind main main last) :
    ∃ j l m₁ m₂ v, Steps j m m₁ ∧ StandsBehind main (A ++ c) m₁ ∧ m₁.stack = #[v] ∧
      m₁.step = .running m₂ ∧ StandsBehind main (A ++ c ++ [stmt.closing count]) m₂ ∧
      Steps l m₂ last ∧
      m₂.shown.toList = m.shown.toList ++ Program.valuesOf false [stmt] [v] ∧
      m₂.globals.toList = m.globals.toList ++ (Program.valuesOf true [stmt] [v]).map some := by
  -- the last state is behind the statement, so the run has to come by its closing instruction
  have hpast : codeSize (A ++ c) < last.frame.ip := by
    have hpos := (stmt.closing count).size_pos
    rw [hlast.ip_eq, hsplit, codeSize_append _ (_ :: _), codeSize_cons]
    omega
  obtain ⟨j, l, m₁, hj, hl, heval, hm₁⟩ := Evaluating.exists_closing hmain hsplit hb hA hcount hsteps
    hs (.start hm) hlast.1 hpast
  obtain ⟨v, hv⟩ := (hs.of_steps hmain hj).stack_eq_of_standsBehind hsplit hb hA hm₁
  cases hl with
  | refl =>
    rw [hm₁.ip_eq] at hpast
    exact absurd hpast (Nat.lt_irrefl _)
  | @cons l _ m₂ _ hstep hl =>
    obtain ⟨i, hfetch, hexec⟩ := step_eq_running_iff.mp hstep
    rw [hm₁.2, hsplit, Code.fetch_ofInstrs] at hfetch
    obtain rfl := Code.Fetch.instr.inj hfetch
    have hglobals₁ : m₁.globals.size = count := by rw [heval.globals_eq, hglobals]
    obtain ⟨hframe, hcallers, hshown, hstored⟩ := hexec.closing hglobals₁ hslot hv
    refine ⟨j, l, m₁, m₂, v, hj, hm₁, hv, hstep, ⟨hcallers.trans hm₁.1, ?_⟩, hl, ?_, ?_⟩
    · rw [hframe, codeSize_append _ [_]]
      show Frame.mk m₁.frame.code (m₁.frame.ip + _) m₁.frame.base = _
      rw [hm₁.2]
      rfl
    · rw [hshown, ← heval.shown_eq]
      rfl
    · rw [hstored, ← heval.globals_eq]
      rfl

end evaluating

/-! ## All statements -/

section statements

variable {K : Array Constant} {main : List Instr}

/-- **What becomes of the values of statements.** A run from the beginning of some statements to the
end of the main block goes through them one by one; the values of definitions are stored in new slots,
and the others are handed over, in order. -/
theorem carriesOut_of_emit
    (hmain : ∀ pre rest i, main = pre ++ i :: rest → i.SafeAt K 0 0 main pre rest)
    {program : Program} {names : List String} {o p n : Nat} {A c : List Instr} {k : List Constant}
    {σ : Scope} {m last : Machine}
    (hemit : Program.emit program (Scope.ofNames names) o p = (⟨c, k, none⟩, σ))
    (hK : PoolHas K p k) (hsplit : main = A ++ c) (hA : Between A o names.length)
    (hs : Safe K main m) (hm : StandsBehind main A m) (hglobals : m.globals.size = names.length)
    (hsteps : Steps n m last) (hlast : StandsBehind main main last) :
    ∃ values, CarriesOut program m values last ∧
      last.shown.toList = m.shown.toList ++ Program.valuesOf false program values ∧
      last.globals.toList = m.globals.toList ++ (Program.valuesOf true program values).map some := by
  induction program generalizing names o p n A c k m with
  | nil =>
    cases hemit
    rw [List.append_nil] at hsplit
    subst hsplit
    cases hsteps with
    | refl => exact ⟨[], .nil, (List.append_nil _).symm, (List.append_nil _).symm⟩
    -- a machine at the end of its main block halts and takes no step
    | cons hstep _ =>
      rw [hm.step_eq] at hstep
      cases hstep
  | cons stmt stmts ih =>
    obtain ⟨c₁, k₁, σ₁, c₂, k₂, hstmt, hrest, rfl, rfl⟩ := programEmit_cons_ok hemit
    obtain ⟨c₀, hvalue, hslot, rfl, rfl⟩ := Stmt.emit_eq_ok_iff.mp hstmt
    obtain rfl := hA.size_eq
    have he := emits_of_yields (Q := fun _ _ => True) [] hvalue hK.left fun _ _ => trivial
    have hb : Balanced K (stmt.visibleNames names).length 0 (codeSize A) 0 c₀ 1 := by
      have hbalanced := he.balanced (SlotTable.bounded_ofNames _) (by simp) (Nat.le_refl 0)
      rwa [SlotTable.count_ofNames] at hbalanced
    have hsplit' : main = A ++ c₀ ++ stmt.closing names.length :: c₂ := by
      rw [hsplit]
      simp only [List.append_assoc, List.singleton_append]
    obtain ⟨j, l, m₁, m₂, v, hj, hm₁, hv, hstep, hm₂, hl, hshown, hstored⟩ :=
      hs.exists_statement hmain hsplit' hb hA (stmt.length_le_visibleNames names) hslot hm hglobals
        hsteps hlast
    have hsafe₂ : Safe K main m₂ := (hs.of_steps hmain hj).of_steps hmain (.one hstep)
    have hglobals₂ : m₂.globals.size = (stmt.namesAfter names).length := by
      have hone : (Program.valuesOf true [stmt] [v]).length = stmt.definedName?.toList.length := by
        cases stmt <;> rfl
      rw [← Array.length_toList, hstored, List.length_append, List.length_map, hone,
        Array.length_toList, hglobals, Stmt.namesAfter, List.length_append]
    obtain ⟨vs, hcarries, hshown', hstored'⟩ := ih hrest hK.right (by rw [hsplit', ← List.append_cons])
      (hA.closing hb stmt) hsafe₂ hm₂ hglobals₂ hl
    refine ⟨v :: vs, .cons hj hm₁.1 ?_ hv hstep hcarries, ?_, ?_⟩
    · rw [hm₁.ip_eq, hm.ip_eq, codeSize_append, (stmt.value.measures_emit _ hvalue).1]
    · rw [hshown', hshown, Program.valuesOf_cons _ stmt stmts, List.append_assoc]
    · rw [hstored', hstored, Program.valuesOf_cons _ stmt stmts, List.map_append, List.append_assoc]

end statements

end Machine

/-! ## Accepted programs -/

/-- A run of an accepted program that halts has gone through all its statements. -/
theorem Compiled.carriesOut {program : Program} {b : Bytecode} {c : List Instr}
    (h : Compiled program b c) {fuel : Nat} {last : Machine}
    (hrun : (Machine.start b).runAtFuel fuel = .halted last) :
    last.stack = #[] ∧ last.callers = [] ∧
      ∃ values, Machine.CarriesOut program (Machine.start b) values last ∧
        last.shown.toList = Program.valuesOf false program values ∧
        last.globals.toList = (Program.valuesOf true program values).map some := by
  obtain ⟨k, hsteps, hhalt⟩ := Machine.steps_of_runAtFuel_halted hrun
  obtain ⟨hcallers, hframe, hsize⟩ := (h.safe hsteps).of_halted hhalt
  rw [h.emits.height_eq SlotTable.bounded_empty] at hsize
  obtain ⟨scope, hemit⟩ := h.emit_eq
  have hstart : Machine.StandsBehind c [] (Machine.start b) := by
    refine ⟨rfl, ?_⟩
    rw [← h.main_eq]
    rfl
  refine ⟨Array.eq_empty_of_size_eq_zero hsize, hcallers, ?_⟩
  exact Machine.carriesOut_of_emit h.safeAt hemit (Compiled.poolHas b) rfl ⟨rfl, rfl, rfl⟩
    (Machine.safe_start b h.main_eq) hstart rfl hsteps ⟨hcallers, hframe⟩

/-- **The state in which a run halts.** When the machine in memory has halted on an accepted program,
its stack is empty and there is one frame. It has gone through the statements one by one. The values
of those that are no definitions have been handed over, once each and in order, and the last of them
is the value that was discarded last; the values of the definitions are in the globals, in order, and
there are no other globals. -/
theorem finalState_of_compile {program : Program} {b : Bytecode} (hcompile : compile program = .ok b)
    {fuel : Nat} {m : RawMachine} {handed : Array Machine.Value}
    (hrun : (RawMachine.start b).runAtFuel fuel #[] = ⟨m, .halted, handed⟩) :
    m.stack = #[] ∧ m.frames.size = 1 ∧
    ∃ values last, Machine.CarriesOut program (Machine.start b) values last ∧ m = last.toRaw ∧
      handed.toList = Program.valuesOf false program values ∧
      handed.size = program.countP (fun stmt => !stmt.isDefinition) ∧
      m.lastPopped = (Program.valuesOf false program values).getLast? ∧
      m.globals.toList = (Program.valuesOf true program values).map some ∧
      m.globals.size = program.countP (fun stmt => stmt.isDefinition) := by
  obtain ⟨c, hcompiled⟩ := compiled_of_compile hcompile
  have hraw := (Machine.runAtFuel_toRaw fuel (Machine.start b)).symm.trans hrun
  cases hmachine : (Machine.start b).runAtFuel fuel with
  | failed e last | outOfFuel last =>
    rw [hmachine] at hraw
    cases hraw
  | halted last =>
    rw [hmachine] at hraw
    cases hraw
    obtain ⟨hstack, hcallers, values, hcarries, hshown, hstored⟩ := hcompiled.carriesOut hmachine
    have hlength (kind : Bool) := Program.length_valuesOf kind hcarries.length_eq
    refine ⟨hstack, ?_, values, last, hcarries, rfl, hshown, ?_, ?_, hstored, ?_⟩
    · rw [Machine.size_frames_toRaw, hcallers]
      rfl
    · rw [← Array.length_toList, hshown, hlength]
      simp
    · rw [← hshown, Array.getLast?_toList]
      rfl
    · rw [← Array.length_toList]
      show last.globals.toList.length = _
      rw [hstored, List.length_map, hlength]
      simp

/-- Definitions, one of them with a call and one of a name that is defined already, and between them
statements that hand over a value; one of these has two branches. -/
def mixedStatements : Program :=
  [.define default "f" (.lambda default "x"
      (.binary default (.arith .multiply) (.name default "x") (.integer default 2))),
    .puts default (.apply default (.name default "f") (.integer default 3)),
    .define default "x" (.apply default (.name default "f") (.integer default 4)),
    .expression (.ifThen default (.binary default .equals (.name default "x") (.integer default 8))
      (.binary default (.arith .subtract) (.name default "x") (.integer default 1))),
    .define default "f" (.boolean default true)]

/-- The bytecode of `mixedStatements`. -/
def mixedStatementsCode : Bytecode :=
  ⟨.ofInstrs [.constant 1, .setGlobal 0, .constant 2, .getGlobal 0, .call, .pop, .constant 3,
      .getGlobal 0, .call, .setGlobal 1, .getGlobal 1, .constant 4, .equal, .jumpIfNotTrue 33,
      .getGlobal 1, .constant 5, .arith .subtract, .jump 34, .nil, .pop, .boolean true, .setGlobal 2],
    #[.integer 2, .function (.ofInstrs [.getLocal 0, .constant 0, .arith .multiply, .return_]),
      .integer 3, .integer 4, .integer 8, .integer 1]⟩

/-- The run of `mixedStatements` hands over the two values of its statements, and its globals hold
those of its definitions. -/
theorem finalState_mixedStatements :
    compile mixedStatements = .ok mixedStatementsCode ∧
    ∃ m, (RawMachine.start mixedStatementsCode).runAtFuel 30 #[]
        = ⟨m, .halted, #[.integer 6, .integer 7]⟩ ∧
      m.stack = #[] ∧ m.frames.size = 1 ∧
      ∃ values last, Machine.CarriesOut mixedStatements (Machine.start mixedStatementsCode) values last ∧
        m = last.toRaw ∧ Program.valuesOf false mixedStatements values = [.integer 6, .integer 7] ∧
        m.lastPopped = some (.integer 7) ∧
        m.globals.toList = (Program.valuesOf true mixedStatements values).map some ∧
        m.globals.size = 3 := by
  have hcompile : compile mixedStatements = .ok mixedStatementsCode := rfl
  have hrun : (RawMachine.start mixedStatementsCode).runAtFuel 30 #[]
      = ⟨((RawMachine.start mixedStatementsCode).runAtFuel 30 #[]).state, .halted,
        #[.integer 6, .integer 7]⟩ := by decide +kernel
  obtain ⟨hstack, hframes, values, last, hcarries, hlast, hhanded, -, hpopped, hstored, hsize⟩ :=
    finalState_of_compile hcompile hrun
  rw [← hhanded] at hpopped
  exact ⟨hcompile, _, hrun, hstack, hframes, values, last, hcarries, hlast, hhanded.symm, hpopped,
    hstored, hsize⟩

end Duet
