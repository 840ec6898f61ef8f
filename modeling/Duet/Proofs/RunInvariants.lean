import Duet.Proofs.InstructionRules
import Duet.Proofs.StackHeights
import Mathlib.Data.List.Basic

/-!
# What every run keeps, whatever its bytecode

Facts about the machine that do not depend on how its bytecode came about.

* `FromPool`: the machine makes no functions. Every function that it holds, and the code of every
  frame but the bottom one, is in the pool; the bottom frame runs the main block.
* `Framed`: the bottom frame is that of the main block, no frame is past the end of its block, and
  there are no more globals than one byte can tell apart.
* `stores`: what a run has stored in globals so far, in order. A global holds the latest that was
  stored in its slot (`global?_of_steps`).

Each is proved for one step, by cases on the rules of instructions, and from there for every run.
`state_runAtFuel` is the form for runs that may end in an error.
-/

namespace Duet

/-! ## The latest of some entries -/

/-- What stands beside the latest entry of a key, in a list with the latest entry at its end. -/
def latest? {κ α : Type} [BEq κ] (entries : List (κ × α)) (key : κ) : Option α :=
  entries.reverse.lookup key

/-- The latest entry of two lists in a row is that of the second, or else that of the first. -/
theorem latest?_append {κ α : Type} [BEq κ] (l l' : List (κ × α)) (key : κ) :
    latest? (l ++ l') key = (latest? l' key).or (latest? l key) := by
  unfold latest?
  rw [List.reverse_append, List.lookup_append]

/-- An entry is the latest of its key if the key does not occur behind it. -/
theorem latest?_eq_some {κ α : Type} [BEq κ] [LawfulBEq κ] {entries : List (κ × α)} {key : κ}
    {v : α} {i : Nat} (hi : entries[i]? = some (key, v))
    (hlast : ∀ j, i < j → (entries[j]?).map Prod.fst ≠ some key) :
    latest? entries key = some v := by
  obtain ⟨hlt, hget⟩ := List.getElem?_eq_some_iff.mp hi
  have hbehind : latest? (entries.drop (i + 1)) key = none := by
    unfold latest?
    rw [List.lookup_eq_none_iff]
    intro p hp
    obtain ⟨j, hj⟩ := List.mem_iff_getElem?.mp (List.mem_reverse.mp hp)
    rw [List.getElem?_drop] at hj
    have hne := hlast (i + 1 + j) (by omega)
    rw [hj] at hne
    exact bne_iff_ne.mpr fun heq => hne (congrArg some heq.symm)
  have hself : latest? [entries[i]] key = some v := by
    rw [hget]
    exact List.lookup_cons_self
  calc latest? entries key
    _ = latest? (entries.take i ++ ([entries[i]] ++ entries.drop (i + 1))) key := by
        rw [List.singleton_append, List.getElem_cons_drop, List.take_append_drop]
    _ = some v := by
        rw [latest?_append, latest?_append, hbehind, hself]
        rfl

namespace Machine

/-! ## Where a run ends -/

/-- A machine halts in the state that it is in. -/
theorem eq_of_step_halted {m m' : Machine} (h : m.step = .halted m') : m' = m := by
  unfold step at h
  split at h
  · split at h
    · exact (Step.halted.inj h).symm
    · cases h
  · cases h
  · cases h
  · split at h <;> cases h

/-- What every step keeps, also one that fails, holds wherever a run ends. -/
theorem state_runAtFuel {P : Machine → Prop}
    (hstep : ∀ m m', P m → m.step = .running m' → P m')
    (hfail : ∀ m e m', P m → m.step = .failed e m' → P m') (n : Nat) {m : Machine} (hm : P m) :
    P (m.runAtFuel n).state := by
  induction n generalizing m with
  | zero => exact hm
  | succ n ih =>
    unfold runAtFuel
    split
    · next m' h => exact ih (hstep m m' hm h)
    · next m' h => exact eq_of_step_halted h ▸ hm
    · next e m' h => exact hfail m e m' hm h

/-! ## Functions come from the pool -/

/-- The value, if it is a function, is the one at its place of the pool. -/
def Value.FromPool (K : Array Constant) : Value → Prop
  | .function i code => K[i]? = some (.function code)
  | .integer _ | .boolean _ | .nil => True

/-- A constant that is loaded comes from its place of the pool. -/
theorem Value.fromPool_ofConstant {K : Array Constant} {i : Nat} {c : Constant}
    (h : K[i]? = some c) : (Value.ofConstant i c).FromPool K := by
  cases c with
  | function code => exact h
  | _ => trivial

/-- The code of all frames, that of the one that runs first. -/
def codes (m : Machine) : List Code :=
  m.frame.code :: m.callers.map Frame.code

/-- All functions in the machine come from the pool of the bytecode that it runs. -/
structure FromPool (b : Bytecode) (m : Machine) : Prop where
  pool_eq : m.pool = b.constants
  stack : ∀ v ∈ m.stack, v.FromPool b.constants
  globals : ∀ slot v, m.global? slot = some v → v.FromPool b.constants
  shown : ∀ v ∈ m.shown, v.FromPool b.constants
  codes : ∃ calls, m.codes = calls ++ [b.main] ∧
    ∀ code ∈ calls, ∃ i : Nat, b.constants[i]? = some (.function code)

namespace FromPool

variable {b : Bytecode} {m m' : Machine}

/-- At the start there is no function but the main block. -/
theorem start (b : Bytecode) : FromPool b (Machine.start b) where
  pool_eq := rfl
  stack v hv := by simp [Machine.start] at hv
  globals slot v hv := by simp [Machine.start, global?] at hv
  shown v hv := by simp [Machine.start] at hv
  codes := ⟨[], rfl, nofun⟩

/-- To go to another offset brings in no function. -/
theorem goto (h : FromPool b m) (ip : Nat) : FromPool b (m.goto ip) :=
  ⟨h.pool_eq, h.stack, h.globals, h.shown, h.codes⟩

/-- A stack of values from the pool may take the place of the one that is there. -/
theorem withStack (h : FromPool b m) {s : Array Value} (hs : ∀ v ∈ s, v.FromPool b.constants) :
    FromPool b { m with stack := s } :=
  ⟨h.pool_eq, hs, h.globals, h.shown, h.codes⟩

/-- A value from the pool may be pushed. -/
theorem push (h : FromPool b m) {s : Array Value} {v : Value}
    (hs : ∀ w ∈ s, w.FromPool b.constants) (hv : v.FromPool b.constants) :
    FromPool b { m with stack := s.push v } :=
  h.withStack (Array.forall_mem_push.mpr ⟨hv, hs⟩)

/-- The value on top and those below come from the pool. -/
theorem top (h : FromPool b m) {s : Array Value} {v : Value} (hs : m.stack = s.push v) :
    v.FromPool b.constants ∧ ∀ w ∈ s, w.FromPool b.constants :=
  Array.forall_mem_push.mp (hs ▸ h.stack)

/-- The values below the two on top come from the pool. -/
theorem below (h : FromPool b m) {s : Array Value} {l r : Value} (hs : m.stack = (s.push l).push r) :
    ∀ w ∈ s, w.FromPool b.constants :=
  (Array.forall_mem_push.mp (h.top hs).2).2

/-- An instruction that succeeds brings in no functions but those of the pool. -/
theorem executes {i : Instr} (h : FromPool b m) (hexec : Executes m i m') : FromPool b m' := by
  cases hexec with
  | constant hc =>
    rw [h.pool_eq] at hc
    exact h.push h.stack (Value.fromPool_ofConstant hc)
  | boolean => exact h.push h.stack trivial
  | nil => exact h.push h.stack trivial
  | @arith op s l r w hs _ => exact h.push (h.below hs) (by cases w <;> trivial)
  | equal hs => exact h.push (h.below hs) trivial
  | notEqual hs => exact h.push (h.below hs) trivial
  | not hs => exact h.push (h.top hs).2 trivial
  | negate hs => exact h.push (h.top hs).2 trivial
  | pop hs =>
    obtain ⟨hv, hrest⟩ := h.top hs
    exact ⟨h.pool_eq, hrest, h.globals, Array.forall_mem_push.mpr ⟨hv, h.shown⟩, h.codes⟩
  | passes hs _ => exact h.withStack (h.top hs).2
  | branches hs _ _ => exact (h.goto _).withStack (h.top hs).2
  | jump _ => exact h.goto _
  | @setGlobal slot s v hs =>
    obtain ⟨hv, hrest⟩ := h.top hs
    refine ⟨h.pool_eq, hrest, fun j w hw => ?_, h.shown, h.codes⟩
    by_cases hj : j = slot.toNat
    · subst hj
      obtain rfl : v = w := Option.some.inj ((global?_setSlot_self m _ v).symm.trans hw)
      exact hv
    · exact h.globals j w ((global?_setSlot_of_ne m v hj).symm.trans hw)
  | getGlobal hv => exact h.push h.stack (h.globals _ _ hv)
  | getLocal hv => exact h.push h.stack (h.stack _ (Array.mem_of_getElem? hv))
  | @call s v i code hs =>
    obtain ⟨hcode, hrest⟩ := h.top hs
    obtain ⟨calls, hcodes, hcalls⟩ := h.codes
    refine ⟨h.pool_eq, hrest, h.globals, h.shown, code :: calls, ?_, ?_⟩
    · exact congrArg (code :: ·) hcodes
    · intro c hc
      rcases List.mem_cons.mp hc with rfl | hc
      · exact ⟨i, hcode⟩
      · exact hcalls c hc
  | @return_ s v caller callers hcallers hs =>
    obtain ⟨hv, hrest⟩ := h.top hs
    obtain ⟨calls, hcodes, hcalls⟩ := h.codes
    refine ⟨h.pool_eq, ?_, h.globals, h.shown, ?_⟩
    · refine Array.forall_mem_push.mpr ⟨hv, fun w hw => hrest w ?_⟩
      rw [Array.mem_def, Array.toList_shrink] at hw
      exact Array.mem_def.mpr (List.mem_of_mem_take hw)
    · -- the frame that returns is not the bottom one, so its code is among the calls
      unfold Machine.codes at hcodes
      rw [hcallers] at hcodes
      cases calls with
      | nil => simp at hcodes
      | cons c calls =>
        obtain ⟨-, hrest⟩ := List.cons.inj hcodes
        exact ⟨calls, hrest, fun c' hc' => hcalls c' (List.mem_cons_of_mem c hc')⟩

/-- A step brings in no functions but those of the pool. -/
theorem step (h : FromPool b m) (hstep : m.step = .running m') : FromPool b m' := by
  obtain ⟨i, -, hexec⟩ := step_eq_running_iff.mp hstep
  exact (h.goto _).executes hexec

/-- A failing step brings in no functions but those of the pool. -/
theorem failed {e : Error} (h : FromPool b m) (hfail : m.step = .failed e m') : FromPool b m' := by
  rcases step_eq_failed hfail with rfl | ⟨i, -, s, rfl, hprefix, -⟩
  · exact h
  · refine (h.goto _).withStack fun v hv => h.stack v ?_
    rw [Array.mem_def] at hv ⊢
    exact hprefix.subset hv

/-- In every state of a run, all functions come from the pool. -/
theorem of_steps {k : Nat} (hsteps : Steps k (Machine.start b) m) : FromPool b m :=
  hsteps.preserves (fun _ _ h hstep => h.step hstep) (start b)

/-- Inside a function, the code that runs is that of a function of the pool. -/
theorem exists_of_callers_ne_nil (h : FromPool b m) (hcallers : m.callers ≠ []) :
    ∃ i : Nat, b.constants[i]? = some (.function m.frame.code) := by
  obtain ⟨calls, hcodes, hcalls⟩ := h.codes
  unfold Machine.codes at hcodes
  cases calls with
  | nil =>
    obtain ⟨-, hnil⟩ := List.cons.inj hcodes
    exact absurd (List.map_eq_nil_iff.mp hnil) hcallers
  | cons c calls =>
    obtain ⟨rfl, -⟩ := List.cons.inj hcodes
    exact hcalls _ List.mem_cons_self

end FromPool

/-! ## Frames and globals -/

/-- The frames and the globals of a machine that runs the given bytecode; see the head of this
file. -/
structure Framed (b : Bytecode) (m : Machine) : Prop where
  bottom : ∃ ip, (m.frame :: m.callers).getLast? = some ⟨b.main, ip, 0⟩
  ip_le : ∀ f ∈ m.frame :: m.callers, f.ip ≤ f.code.size
  globals_size : m.globals.size ≤ maxSlots

/-- Setting a slot keeps the globals within their bound. -/
theorem size_setSlot_le {globals : Array (Option Value)} (h : globals.size ≤ maxSlots)
    (slot : UInt8) (v : Value) : (setSlot globals slot.toNat v).size ≤ maxSlots := by
  have hslot : slot.toNat < maxSlots := slot.toNat_lt
  unfold setSlot
  split
  · rwa [Array.size_setIfInBounds]
  · rw [Array.size_push, Array.size_append, Array.size_replicate]
    omega

namespace Framed

variable {b : Bytecode} {m m' : Machine} {i : Instr}

/-- The first frame and the empty globals are as they should be. -/
theorem start (b : Bytecode) : Framed b (Machine.start b) where
  bottom := ⟨0, rfl⟩
  ip_le f hf := by
    rw [List.mem_singleton.mp hf]
    exact Nat.zero_le _
  globals_size := Nat.zero_le _

/-- The frame that runs may be moved anywhere in its block. -/
theorem goto (h : Framed b m) {ip : Nat} (hip : ip ≤ m.frame.code.size) :
    Framed b (m.goto ip) where
  bottom := by
    obtain ⟨ip', hlast⟩ := h.bottom
    cases hcallers : m.callers with
    | nil =>
      rw [hcallers, List.getLast?_singleton, Option.some.injEq] at hlast
      refine ⟨ip, ?_⟩
      simp only [Machine.goto, hcallers, hlast, List.getLast?_singleton]
    | cons caller callers =>
      rw [hcallers, List.getLast?_cons_cons] at hlast
      refine ⟨ip', ?_⟩
      rw [← hlast]
      simp only [Machine.goto, hcallers, List.getLast?_cons_cons]
  ip_le := by
    intro f hf
    rcases List.mem_cons.mp hf with rfl | hf
    · exact hip
    · exact h.ip_le f (List.mem_cons_of_mem _ hf)
  globals_size := h.globals_size

/-- An instruction that succeeds keeps the frames and globals as they should be. -/
theorem executes (h : Framed b m) (hexec : Executes m i m') : Framed b m' := by
  cases hexec with
  | jump hle => exact h.goto hle
  | branches _ _ hle =>
    have hgoto := h.goto hle
    exact ⟨hgoto.bottom, hgoto.ip_le, hgoto.globals_size⟩
  | setGlobal _ => exact ⟨h.bottom, h.ip_le, size_setSlot_le h.globals_size _ _⟩
  | @call s v j code _ =>
    refine ⟨h.bottom, fun f hf => ?_, h.globals_size⟩
    rcases List.mem_cons.mp hf with rfl | hf
    · exact Nat.zero_le _
    · exact h.ip_le f hf
  | @return_ s v caller callers hcallers _ =>
    obtain ⟨ip, hlast⟩ := h.bottom
    refine ⟨⟨ip, ?_⟩, fun f hf => h.ip_le f ?_, h.globals_size⟩
    · rw [hcallers, List.getLast?_cons_cons] at hlast
      exact hlast
    · rw [hcallers]
      exact List.mem_cons_of_mem _ hf
  | _ => exact ⟨h.bottom, h.ip_le, h.globals_size⟩

/-- An instruction that was fetched ends inside its block, so the frame may move behind it. -/
theorem advance (h : Framed b m) (hfetch : m.frame.code.fetch m.frame.ip = .instr i) :
    Framed b (m.goto (m.frame.ip + i.size)) :=
  h.goto (Code.add_size_le_of_fetch hfetch)

/-- A step keeps the frames and globals as they should be. -/
theorem step (h : Framed b m) (hstep : m.step = .running m') : Framed b m' := by
  obtain ⟨i, hfetch, hexec⟩ := step_eq_running_iff.mp hstep
  exact (h.advance hfetch).executes hexec

/-- A failing step keeps the frames and globals as they should be. -/
theorem failed {e : Error} (h : Framed b m) (hfail : m.step = .failed e m') : Framed b m' := by
  rcases step_eq_failed hfail with rfl | ⟨i, hfetch, s, rfl, -, -⟩
  · exact h
  · have hadvance := h.advance hfetch
    exact ⟨hadvance.bottom, hadvance.ip_le, hadvance.globals_size⟩

end Framed

/-! ## What has been stored -/

/-- What the next step stores in a global: the slot and the value. -/
def storing? (m : Machine) : Option (Nat × Value) :=
  match m.frame.code.fetch m.frame.ip with
  | .instr (.setGlobal slot) => m.stack.back?.map (slot.toNat, ·)
  | _ => none

/-- What the first steps of a run store in globals, in order. -/
def stores : Nat → Machine → List (Nat × Value)
  | 0, _ => []
  | k + 1, m =>
    match m.step with
    | .running m' => m.storing?.toList ++ stores k m'
    | .halted _ | .failed .. => []

section stores

variable {m m' : Machine} {i : Instr}

/-- An instruction that sets no global stores nothing. -/
theorem storing?_of_fetch (hfetch : m.frame.code.fetch m.frame.ip = .instr i)
    (hi : i.setsGlobal = false) : m.storing? = none := by
  unfold storing?
  rw [hfetch]
  cases i with
  | setGlobal slot => cases hi
  | _ => rfl

/-- An instruction that sets a global stores the value on top of the stack. -/
theorem storing?_of_setGlobal {slot : UInt8} {s : Array Value} {v : Value}
    (hfetch : m.frame.code.fetch m.frame.ip = .instr (.setGlobal slot)) (hs : m.stack = s.push v) :
    m.storing? = some (slot.toNat, v) := by
  unfold storing?
  rw [hfetch]
  show m.stack.back?.map (slot.toNat, ·) = _
  rw [hs, Array.back?_push]
  rfl

/-- An instruction that sets no global leaves all globals as they are. -/
theorem Executes.globals_eq (hexec : Executes m i m') (hi : i.setsGlobal = false) :
    m'.globals = m.globals := by
  cases hexec with
  | setGlobal _ => cases hi
  | _ => rfl

/-- A step changes the globals only by what it stores. -/
theorem global?_step (hstep : m.step = .running m') (slot : Nat) :
    m'.global? slot = (latest? m.storing?.toList slot).or (m.global? slot) := by
  obtain ⟨i, hfetch, hexec⟩ := step_eq_running_iff.mp hstep
  cases hset : i.setsGlobal with
  | false =>
    rw [storing?_of_fetch hfetch hset]
    unfold global?
    rw [hexec.globals_eq hset]
    rfl
  | true =>
    cases hexec with
    | @setGlobal j s v hs =>
      rw [storing?_of_setGlobal hfetch hs]
      show _ = ([(j.toNat, v)].lookup slot).or (m.global? slot)
      by_cases hj : slot = j.toNat
      · subst hj
        rw [List.lookup_cons_self]
        exact global?_setSlot_self _ _ v
      · rw [List.lookup_cons, beq_false_of_ne hj]
        exact global?_setSlot_of_ne _ v hj
    | _ => cases hset

/-- What a run stores is what its first step stores and what the rest does. -/
theorem stores_succ (hstep : m.step = .running m') (k : Nat) :
    stores (k + 1) m = m.storing?.toList ++ stores k m' := by
  rw [stores, hstep]

/-- **A global holds the latest that was stored in its slot.** -/
theorem global?_of_steps {k : Nat} (hsteps : Steps k m m') (slot : Nat) :
    m'.global? slot = (latest? (stores k m) slot).or (m.global? slot) := by
  induction hsteps with
  | refl m => rfl
  | @cons k m m₁ m₂ hstep _ ih =>
    rw [ih, global?_step hstep, stores_succ hstep, latest?_append, Option.or_assoc]

end stores

end Machine

end Duet
