import Arishem.Tracer.RecordSteps

/-!
# What the tracer records

The calls of an instruction append their operands, one after the other, to the record that is built.
Behind them the record has the first operands of each kind, it is written once, and the next
instruction starts with an empty one, until the sample is full.
-/

namespace Arishem

namespace Recorder

open Filling

/-! ## The operands of an execution -/

/-- The bytes of the registers that are seen: a register whose byte is 0 is none. -/
def regBytes (regs : List Reg) : List UInt8 :=
  (regs.map fun reg => reg.fullRegName.toUInt8).filter (· ≠ 0)

/-- The loads of a memory operand. -/
def opLoads (e : Execution) (o : MemOp × ℕ) : List Load :=
  if o.1.isRead then [⟨e.addr o.2, o.1.size⟩] else []

/-- The stores of a memory operand. -/
def opStores (e : Execution) (o : MemOp × ℕ) : List Store :=
  if o.1.isWritten then [⟨some o.2, e.addr o.2, o.1.size⟩] else []

/-- The loads of a lane. -/
def laneLoads (lane : Lane) : List Load :=
  if lane.maskOn && lane.isLoad then [⟨lane.memoryAddress, lane.bytesAccessed⟩] else []

/-- The stores of a lane. -/
def laneStores (lane : Lane) : List Store :=
  if lane.maskOn && !lane.isLoad then [⟨none, lane.memoryAddress, lane.bytesAccessed⟩] else []

/-- The loads of an execution, in the order of the operands. -/
def Execution.loads (ins : Ins) (e : Execution) : List Load :=
  if !e.executing then []
  else if ins.hasScattered then e.lanes.flatMap laneLoads
  else ins.memOps.zipIdx.flatMap (opLoads e)

/-- The stores of an execution, in the order of the operands. -/
def Execution.stores (ins : Ins) (e : Execution) : List Store :=
  if !e.executing then []
  else if ins.hasScattered then e.lanes.flatMap laneStores
  else ins.memOps.zipIdx.flatMap (opStores e)

/-- What a store leaves: behind an instruction that falls through the memory, behind a call the return
address. -/
def Execution.written (ins : Ins) (e : Execution) (s : Store) : MemValue :=
  if ins.hasFallThrough then memValue e.after s.addr s.size
  else copyOver (fun _ => 0) (wordBytes ins.nextAddress)

/-- The value of a store in a record. -/
def Execution.storeValue (captureValues : Bool) (ins : Ins) (e : Execution) (s : Store) : MemValue :=
  match s.op with
  | none => fun _ => 0
  | some op =>
    if ins.fillStoreValues captureValues ∧ op < maxWriteOps then e.written ins s else fun _ => 0

/-- The record of an execution. -/
def recordOf (captureValues : Bool) (ins : Ins) (e : Execution) : TraceInstr :=
  { built e.before captureValues (regBytes (tracedRegs ins.regR)) (regBytes (tracedRegs ins.regW))
      (e.loads ins) (e.stores ins) (e.storeValue captureValues ins) with
    ip := ins.address
    isBranch := ins.isBranch.toUInt8
    branchTaken := (ins.isBranch && e.taken).toUInt8
    instrType := classifyInstr ins.category }

/-- A thread in a sample that has room for some records, with nothing of the next instruction. -/
structure Ready (n : ℕ) (r : Recorder) : Prop where
  tracing : r.thread.phase = .tracing
  sampleOpen : r.thread.sampleOpen = true
  room : n ≤ r.thread.counter.toNat
  instr : r.currInstr = .zero
  pending : ∀ op, r.pendingStoreSlot op = none

/-- The operands of an execution are in memory, and a branch does not store: PIN runs no call behind a
branch that is taken. -/
structure Execution.Proper (captureValues : Bool) (ins : Ins) (e : Execution) : Prop where
  loads : ∀ l ∈ e.loads ins, l.addr ≠ 0
  stores : ∀ s ∈ e.stores ins, s.addr ≠ 0
  branch : ins.isBranch = true → ins.postCalls captureValues = false

/-! ## Runs of calls -/

section
variable {e : Execution} {m : Memory} {r r' : Recorder} {calls : List AnalysisCall}

theorem runCalls_append (h : r.runCalls e m calls = (r', [])) (rest : List AnalysisCall) :
    r.runCalls e m (calls ++ rest) = r'.runCalls e m rest := by
  induction calls generalizing r with
  | nil =>
    obtain rfl : r = r' := congrArg Prod.fst h
    rfl
  | cons call calls ih =>
    rw [runCalls] at h
    rw [List.cons_append, runCalls]
    generalize r.runCall e m call = p at h ⊢
    obtain ⟨r₁, out⟩ := p
    obtain ⟨hfst, hsnd⟩ := Prod.mk.inj h
    obtain ⟨rfl, hout'⟩ := List.append_eq_nil_iff.1 hsnd
    dsimp only
    rw [ih (Prod.ext hfst hout'), List.nil_append]

/-- A loop over operands, whose body keeps what is known of the operands so far. -/
theorem runCalls_flatMap {α : Type*} {P : List α → Recorder → Prop} {c : α → List AnalysisCall}
    (l : List α) (h : P [] r)
    (step : ∀ l₁ a l₂ r, l = l₁ ++ a :: l₂ → P l₁ r →
      ∃ r', r.runCalls e m (c a) = (r', []) ∧ P (l₁ ++ [a]) r') :
    ∃ r', r.runCalls e m (l.flatMap c) = (r', []) ∧ P l r' := by
  suffices hsuff : ∀ l₂ l₁ r, l = l₁ ++ l₂ → P l₁ r →
      ∃ r', r.runCalls e m (l₂.flatMap c) = (r', []) ∧ P l r' from hsuff l [] r rfl h
  intro l₂
  induction l₂ with
  | nil =>
    intro l₁ r hl hP
    rw [List.append_nil] at hl
    exact ⟨r, rfl, hl ▸ hP⟩
  | cons a l₂ ih =>
    intro l₁ r hl hP
    obtain ⟨r₁, hr₁, hP₁⟩ := step l₁ a l₂ r hl hP
    obtain ⟨r', hr', hP'⟩ := ih (l₁ ++ [a]) r₁ (by rw [hl, List.append_assoc]; rfl) hP₁
    exact ⟨r', by rw [List.flatMap_cons, runCalls_append hr₁, hr'], hP'⟩

/-- The same for a loop with one call in its body. -/
theorem runCalls_map {α : Type*} {P : List α → Recorder → Prop} {c : α → AnalysisCall}
    (l : List α) (h : P [] r)
    (step : ∀ l₁ a l₂ r, l = l₁ ++ a :: l₂ → P l₁ r →
      ∃ r', r.runCall e m (c a) = (r', []) ∧ P (l₁ ++ [a]) r') :
    ∃ r', r.runCalls e m (l.map c) = (r', []) ∧ P l r' := by
  rw [List.map_eq_flatMap]
  refine runCalls_flatMap l h fun l₁ a l₂ r hl hP => ?_
  obtain ⟨r', hr', hP'⟩ := step l₁ a l₂ r hl hP
  exact ⟨r', by rw [runCalls, hr']; rfl, hP'⟩

end

section
variable {m m' : Memory} {captureValues fillStoreValues : Bool} {regsR regsW : List UInt8}
  {loads : List Load} {stores : List Store} {g : Store → MemValue} {done : List ℕ}
  {r₀ r : Recorder} {e : Execution}

theorem regBytes_append (regs : List Reg) (reg : Reg) :
    regBytes (regs ++ [reg]) = regBytes regs ++ [reg.fullRegName.toUInt8].filter (· ≠ 0) := by
  rw [regBytes, regBytes, List.map_append, List.filter_append]
  rfl

theorem regBytes_ne {regs : List Reg} {reg : UInt8} (h : reg ∈ regBytes regs) : reg ≠ 0 := by
  simpa using (List.mem_filter.1 h).2

/-- The registers that are read. -/
theorem Building.regReads
    (h : Building m captureValues fillStoreValues [] regsW loads stores g done r₀ r)
    (regs : List Reg) :
    ∃ r', r.runCalls e m (regs.map fun reg => .regRead reg.fullRegName) = (r', []) ∧
      Building m captureValues fillStoreValues (regBytes regs) regsW loads stores g done r₀ r' := by
  refine runCalls_map (P := fun regs r =>
    Building m captureValues fillStoreValues (regBytes regs) regsW loads stores g done r₀ r)
    regs h fun regs reg _ r _ h => ⟨_, rfl, ?_⟩
  rw [regBytes_append]
  exact h.regRead (fun _ hreg => regBytes_ne hreg) reg.fullRegName

/-- The registers that are written. -/
theorem Building.regWrites
    (h : Building m captureValues fillStoreValues regsR [] loads stores g done r₀ r)
    (regs : List Reg) :
    ∃ r', r.runCalls e m (regs.map fun reg => .regWrite reg.fullRegName) = (r', []) ∧
      Building m captureValues fillStoreValues regsR (regBytes regs) loads stores g done r₀ r' := by
  refine runCalls_map (P := fun regs r =>
    Building m captureValues fillStoreValues regsR (regBytes regs) loads stores g done r₀ r)
    regs h fun regs reg _ r _ h => ⟨_, rfl, ?_⟩
  rw [regBytes_append]
  exact h.regWrite (fun _ hreg => regBytes_ne hreg) reg.fullRegName

/-- The calls of a memory operand. -/
theorem Building.memOp
    (h : Building m captureValues fillStoreValues regsR regsW loads stores g [] r₀ r)
    (hloads : ∀ l ∈ loads, l.addr ≠ 0) (hstores : ∀ s ∈ stores, s.addr ≠ 0) (o : MemOp × ℕ)
    (hnew : ∀ s ∈ stores, s.op ≠ some o.2) :
    ∃ r', r.runCalls e m (memOpCalls captureValues fillStoreValues o) = (r', []) ∧
      Building m captureValues fillStoreValues regsR regsW (loads ++ opLoads e o)
        (stores ++ opStores e o) g [] r₀ r' := by
  obtain ⟨r₁, hr₁, h₁⟩ : ∃ r', r.runCalls e m
      (if o.1.isRead then [.memRead o.2 o.1.size captureValues] else []) = (r', []) ∧
      Building m captureValues fillStoreValues regsR regsW (loads ++ opLoads e o) stores g [] r₀ r' := by
    rw [opLoads]
    cases o.1.isRead with
    | true => exact ⟨_, rfl, h.memRead hloads ⟨e.addr o.2, o.1.size⟩⟩
    | false => exact ⟨r, rfl, by simpa using h⟩
  rw [memOpCalls, runCalls_append hr₁, opStores]
  cases o.1.isWritten with
  | true => exact ⟨_, rfl, h₁.memWrite hstores List.not_mem_nil hnew (e.addr o.2) o.1.size⟩
  | false => exact ⟨r₁, rfl, by simpa using h₁⟩

/-- The calls of the memory operands. -/
theorem Building.memOps
    (h : Building m captureValues fillStoreValues regsR regsW [] [] g [] r₀ r) (os : List (MemOp × ℕ))
    (hos : (os.map Prod.snd).Nodup) (hloads : ∀ l ∈ os.flatMap (opLoads e), l.addr ≠ 0)
    (hstores : ∀ s ∈ os.flatMap (opStores e), s.addr ≠ 0) :
    ∃ r', r.runCalls e m (os.flatMap (memOpCalls captureValues fillStoreValues)) = (r', []) ∧
      Building m captureValues fillStoreValues regsR regsW (os.flatMap (opLoads e))
        (os.flatMap (opStores e)) g [] r₀ r' := by
  refine runCalls_flatMap (P := fun os r => Building m captureValues fillStoreValues regsR regsW
    (os.flatMap (opLoads e)) (os.flatMap (opStores e)) g [] r₀ r) os h fun os₁ o os₂ r hos₁ h => ?_
  subst hos₁
  rw [List.flatMap_append] at hloads hstores
  have hnew : ∀ s ∈ os₁.flatMap (opStores e), s.op ≠ some o.2 := by
    intro s hs hop
    obtain ⟨o', ho', hs⟩ := List.mem_flatMap.1 hs
    rw [opStores] at hs
    split at hs
    · obtain rfl := List.mem_singleton.1 hs
      rw [List.map_append, List.map_cons] at hos
      exact List.disjoint_of_nodup_append hos (List.mem_map_of_mem ho')
        (by rw [Option.some.inj hop]; exact List.mem_cons_self ..)
    · exact absurd hs List.not_mem_nil
  obtain ⟨r', hr', h'⟩ := h.memOp (e := e) (fun l hl => hloads l (List.mem_append_left _ hl))
    (fun s hs => hstores s (List.mem_append_left _ hs)) o hnew
  refine ⟨r', hr', ?_⟩
  rwa [List.flatMap_append, List.flatMap_append, List.flatMap_singleton, List.flatMap_singleton]

/-- A lane of a gather or scatter. -/
theorem Building.lane
    (h : Building m captureValues fillStoreValues regsR regsW loads stores g done r₀ r)
    (hloads : ∀ l ∈ loads, l.addr ≠ 0) (hstores : ∀ s ∈ stores, s.addr ≠ 0) (lane : Lane) :
    Building m captureValues fillStoreValues regsR regsW (loads ++ laneLoads lane)
      (stores ++ laneStores lane) g done r₀ (r.recordLane m captureValues lane) := by
  rw [recordLane, laneLoads, laneStores]
  cases hmask : lane.maskOn with
  | false => simpa using h
  | true =>
    cases hload : lane.isLoad with
    | false => simpa using h.scatterStore hstores lane
    | true => simpa using h.memRead hloads ⟨lane.memoryAddress, lane.bytesAccessed⟩

/-- The lanes of a gather or scatter, one after the other. -/
theorem Building.lanes
    (h : Building m captureValues fillStoreValues regsR regsW loads stores g done r₀ r)
    (lanes : List Lane) (hloads : ∀ l ∈ loads ++ lanes.flatMap laneLoads, l.addr ≠ 0)
    (hstores : ∀ s ∈ stores ++ lanes.flatMap laneStores, s.addr ≠ 0) :
    Building m captureValues fillStoreValues regsR regsW (loads ++ lanes.flatMap laneLoads)
      (stores ++ lanes.flatMap laneStores) g done r₀
      (lanes.foldl (recordLane m captureValues) r) := by
  induction lanes generalizing loads stores r with
  | nil => simpa using h
  | cons lane lanes ih =>
    have h' := h.lane (fun l hl => hloads l (List.mem_append_left _ hl))
      (fun s hs => hstores s (List.mem_append_left _ hs)) lane
    rw [List.flatMap_cons, ← List.append_assoc] at hloads hstores ⊢
    rw [List.flatMap_cons, ← List.append_assoc]
    exact ih h' hloads hstores

/-- The values of the stores are filled in, one after the other. -/
theorem Building.values {c : ℕ → AnalysisCall}
    (h : Building m captureValues true regsR regsW loads stores g [] r₀ r) {ops : List ℕ}
    (hops : ops.Nodup)
    (step : ∀ op done r, op ∉ done →
      Building m captureValues true regsR regsW loads stores g done r₀ r →
      ∃ r', r.runCall e m' (c op) = (r', []) ∧
        Building m captureValues true regsR regsW loads stores g (done ++ [op]) r₀ r') :
    ∃ r', r.runCalls e m' (ops.map c) = (r', []) ∧
      Building m captureValues true regsR regsW loads stores g ops r₀ r' := by
  refine runCalls_map (P := fun done r =>
    Building m captureValues true regsR regsW loads stores g done r₀ r) ops h
    fun done op rest r hsplit h => step op done r (fun hmem => ?_) h
  rw [hsplit] at hops
  exact List.disjoint_of_nodup_append hops hmem (List.mem_cons_self ..)

end

/-! ## An instruction -/

section
variable {captureValues : Bool} {ins : Ins} {e : Execution} {r₀ r : Recorder} {n : ℕ}

theorem firing_append (isAfter : Bool) (e : Execution) (l l' : List Inserted) :
    firing isAfter e (l ++ l') = firing isAfter e l ++ firing isAfter e l' := by
  rw [firing, List.filter_append, List.map_append]
  rfl

/-- The calls of one point fire together. -/
theorem firing_map (isAfter isAfter' isPredicated : Bool) {α : Type*} (call : α → AnalysisCall)
    (l : List α) :
    firing isAfter e (l.map fun a => ⟨isAfter', isPredicated, call a⟩) =
      if isAfter' = isAfter ∧ (isPredicated = true → e.executing = true) then l.map call else [] := by
  rw [firing, List.filter_map, List.map_map]
  split
  · rename_i h
    rw [List.filter_eq_self.2 fun a _ => ?_]
    · rfl
    · rcases h with ⟨rfl, h⟩
      cases isPredicated <;> simp_all
  · rename_i h
    rw [List.filter_eq_nil_iff.2 fun a _ => ?_]
    · rfl
    · cases isPredicated <;> simp_all

theorem firing_calls (isAfter isAfter' isPredicated : Bool) (calls : List AnalysisCall) :
    firing isAfter e (calls.map fun call => ⟨isAfter', isPredicated, call⟩) =
      if isAfter' = isAfter ∧ (isPredicated = true → e.executing = true) then calls else [] := by
  simpa using firing_map isAfter isAfter' isPredicated id calls

/-- The calls that fire before the instruction. -/
theorem firing_before (captureValues : Bool) (ins : Ins) (e : Execution) :
    firing false e (insertFullAnalysis captureValues ins) =
      (tracedRegs ins.regR).map (fun reg => .regRead reg.fullRegName) ++
      ((tracedRegs ins.regW).map (fun reg => .regWrite reg.fullRegName) ++
      ((if e.executing then memCalls captureValues ins else []) ++
      ((if e.executing then storeCalls captureValues ins else []) ++
      if ins.postCalls captureValues then []
      else [.instrCommit ins.address ins.isBranch (classifyInstr ins.category)]))) := by
  have hpost : firing false e (if ins.postCalls captureValues then
      ins.writtenOps.map fun op => ⟨true, true, .memWriteValue op⟩ else []) = [] := by
    split
    · rw [firing_map, if_neg (by simp)]
    · rfl
  have hcommit := firing_map (e := e) false (ins.postCalls captureValues) false
    (fun _ => .instrCommit ins.address ins.isBranch (classifyInstr ins.category)) [()]
  rw [List.map_singleton] at hcommit
  rw [insertFullAnalysis, firing_append, firing_append, firing_append, firing_append, firing_append,
    firing_map, firing_map, firing_calls, firing_calls, hpost, hcommit, if_pos (by simp),
    if_pos (by simp)]
  cases ins.postCalls captureValues <;> simp

/-- The calls that fire behind the instruction. -/
theorem firing_after (captureValues : Bool) (ins : Ins) (e : Execution) :
    firing true e (insertFullAnalysis captureValues ins) =
      if ins.postCalls captureValues then
        (if e.executing then ins.writtenOps.map .memWriteValue else []) ++
        [.instrCommit ins.address ins.isBranch (classifyInstr ins.category)]
      else [] := by
  have hcommit := firing_map (e := e) true (ins.postCalls captureValues) false
    (fun _ => .instrCommit ins.address ins.isBranch (classifyInstr ins.category)) [()]
  rw [List.map_singleton] at hcommit
  rw [insertFullAnalysis, firing_append, firing_append, firing_append, firing_append, firing_append,
    firing_map, firing_map, firing_calls, firing_calls, hcommit, if_neg (by simp), if_neg (by simp),
    if_neg (by simp), if_neg (by simp)]
  cases ins.postCalls captureValues with
  | true => simp [firing_map]
  | false => simp [firing]

theorem writtenOps_nodup (ins : Ins) : ins.writtenOps.Nodup := by
  have hsub : ins.writtenOps.Sublist (ins.memOps.zipIdx.map Prod.snd) := List.filter_sublist.map Prod.snd
  rw [List.zipIdx_map_snd] at hsub
  exact hsub.nodup List.nodup_range'

theorem zipIdx_nodup (ins : Ins) : (ins.memOps.zipIdx.map Prod.snd).Nodup := by
  rw [List.zipIdx_map_snd]
  exact List.nodup_range'

theorem Ready.building (h : Ready n r) (captureValues : Bool) (m : Memory) (fillStoreValues : Bool)
    (g : Store → MemValue) : Building m captureValues fillStoreValues [] [] [] [] g [] r r where
  tracing := h.tracing
  thread := rfl
  instr := h.instr
  pending := ⟨fun op k => by simp [h.pending op], fun op k s hslot => by simp [h.pending op] at hslot⟩
  distinct := fun i j s t op hs => by simp at hs
  overflowedSrc := rfl
  overflowedDst := rfl

section
variable {m : Memory} {regsR regsW : List UInt8} {loads : List Load} {stores : List Store}
  {g : Store → MemValue} {done : List ℕ}

/-- The calls for the memory operands. -/
theorem Building.memCalls
    (h : Building e.before captureValues (ins.fillStoreValues captureValues) regsR regsW [] [] g [] r₀ r)
    (hp : e.Proper captureValues ins) :
    ∃ r', r.runCalls e e.before (if e.executing then Recorder.memCalls captureValues ins else []) =
        (r', []) ∧
      Building e.before captureValues (ins.fillStoreValues captureValues) regsR regsW (e.loads ins)
        (e.stores ins) g [] r₀ r' := by
  obtain ⟨hloads, hstores, -⟩ := hp
  rw [Execution.loads] at hloads ⊢
  rw [Execution.stores] at hstores ⊢
  cases hexec : e.executing with
  | false => exact ⟨r, rfl, h⟩
  | true =>
    simp only [hexec, if_true, Bool.not_true, Bool.false_eq_true, if_false, Recorder.memCalls]
      at hloads hstores ⊢
    cases hscat : ins.hasScattered with
    | false =>
      simp only [hscat, Bool.false_eq_true, if_false] at hloads hstores ⊢
      exact h.memOps ins.memOps.zipIdx (zipIdx_nodup ins) hloads hstores
    | true =>
      simp only [hscat, if_true] at hloads hstores ⊢
      refine ⟨_, rfl, ?_⟩
      rw [recordScatteredMemAccess, if_neg (by simp [h.tracing])]
      have hseen : Building e.before captureValues (ins.fillStoreValues captureValues) regsR regsW []
          [] g [] r₀ { r with warnings := { r.warnings with
            scatteredInstrsSeen := r.warnings.scatteredInstrsSeen + 1 } } := { h with }
      exact hseen.lanes e.lanes hloads hstores

/-- The operands whose values are filled in before the instruction: those of a call. -/
def callOps (captureValues : Bool) (ins : Ins) : List ℕ :=
  if ins.isCallNoFt && captureValues && !ins.hasScattered then ins.writtenOps else []

/-- The calls for the values of stores before the instruction. -/
theorem Building.storeCalls
    (h : Building m captureValues (ins.fillStoreValues captureValues) regsR regsW loads stores
      (e.written ins) [] r₀ r) :
    ∃ r', r.runCalls e m (Recorder.storeCalls captureValues ins) = (r', []) ∧
      Building m captureValues (ins.fillStoreValues captureValues) regsR regsW loads stores
        (e.written ins) (callOps captureValues ins) r₀ r' := by
  rw [Recorder.storeCalls, callOps]
  cases hcall : ins.isCallNoFt && captureValues && !ins.hasScattered with
  | true =>
    obtain ⟨⟨hcallNoFt, rfl⟩, hscat⟩ : (ins.isCallNoFt = true ∧ captureValues = true) ∧
      (!ins.hasScattered) = true := by simpa using hcall
    have hfill : ins.fillStoreValues true = true := by simp [Ins.fillStoreValues, hcallNoFt, hscat]
    have hft : ins.hasFallThrough = false := by
      simpa using (Bool.and_eq_true_iff.1 hcallNoFt).2
    rw [hfill] at h ⊢
    rw [if_pos rfl, if_neg (by simp [hcallNoFt]), List.append_nil]
    exact h.values (writtenOps_nodup ins) fun op done r hdone h =>
      ⟨_, rfl, h.callRetAddrValue hdone fun s => by simp [Execution.written, hft]⟩
  | false =>
    simp only [Bool.false_eq_true, if_false, List.nil_append]
    split
    · exact runCalls_map (P := fun _ r => Building m captureValues (ins.fillStoreValues captureValues)
        regsR regsW loads stores (e.written ins) [] r₀ r) (c := fun _ => .noteMissedStoreValue) _ h
        fun _ _ _ r _ h => ⟨r.noteMissedStoreValue, rfl, { h with }⟩
    · exact ⟨r, rfl, h⟩

/-- A sample that has room for more goes on behind a commit. -/
theorem Ready.commit (h : Ready (n + 1) r₀) (hn : 0 < n) (hthread : r.thread = r₀.thread) (opens : Bool)
    (ip : UInt64) (isBranch branchTaken instrType : UInt8) :
    Ready n (r.recordInstrCommit opens ip isBranch branchTaken instrType).1 := by
  have hroom := h.room
  have hcount : (r.thread.counter - 1).toNat = r.thread.counter.toNat - 1 := by
    rw [UInt64.toNat_sub_of_le]
    · rfl
    · rw [UInt64.le_iff_toNat_le, hthread]
      exact Nat.le_trans (Nat.le_add_left ..) hroom
  have hne : r.thread.counter - 1 ≠ 0 := by
    intro hzero
    rw [hzero, hthread, UInt64.toNat_zero] at hcount
    omega
  rw [recordInstrCommit, if_neg (by simp [hthread, h.tracing])]
  dsimp only
  rw [if_neg hne]
  refine ⟨by rw [hthread]; exact h.tracing, by rw [hthread]; exact h.sampleOpen, ?_, rfl, fun _ => rfl⟩
  rw [hcount, hthread]
  omega

/-- The record is written, and the next instruction starts with an empty one. -/
theorem Building.commit {fillStoreValues : Bool}
    (h : Building m captureValues fillStoreValues regsR regsW loads stores g done r₀ r)
    (hready : Ready (n + 1) r₀) (e : Execution) (m' : Memory) (ip : UInt64) (isBranch : Bool)
    (instrType : UInt8) :
    ∃ r', r.runCalls e m' [.instrCommit ip isBranch instrType] =
        (r', [{ built m captureValues regsR regsW loads stores (filled g done) with
          ip := ip
          isBranch := isBranch.toUInt8
          branchTaken := (isBranch && e.taken).toUInt8
          instrType := instrType }]) ∧
      (0 < n → Ready n r') ∧
      r'.warnings.overflowedSrcMemops =
        r₀.warnings.overflowedSrcMemops + (loads.length - numInstrSources) ∧
      r'.warnings.overflowedDstMemops =
        r₀.warnings.overflowedDstMemops + (stores.length - numInstrDestinations) := by
  refine ⟨_, ?_, fun hn => hready.commit hn h.thread e.opens ip isBranch.toUInt8
    (isBranch && e.taken).toUInt8 instrType, ?_⟩
  · rw [runCalls, runCall]
    refine Prod.ext rfl ?_
    rw [recordInstrCommit, if_neg (by simp [h.tracing]), h.instr, h.thread, hready.sampleOpen]
    rfl
  · rw [recordInstrCommit, if_neg (by simp [h.tracing])]
    exact ⟨h.overflowedSrc, h.overflowedDst⟩

end

theorem any_isWritten_of_mem {op : ℕ} (h : op ∈ ins.writtenOps) :
    ins.memOps.any (·.isWritten) = true := by
  obtain ⟨o, ho, -⟩ := List.mem_map.1 h
  obtain ⟨ho, hwritten⟩ := List.mem_filter.1 ho
  exact List.any_eq_true.2 ⟨o.1, (List.mem_zipIdx' ho).2 ▸ List.getElem_mem _, hwritten⟩

/-- Where no call is inserted behind the instruction, all values are filled in before it. -/
theorem mem_callOps {op : ℕ} (hpost : ins.postCalls captureValues = false) :
    op ∈ callOps captureValues ins ↔
      op ∈ ins.writtenOps ∧ ins.fillStoreValues captureValues = true := by
  rw [callOps]
  constructor
  · intro h
    split at h
    · rename_i hcall
      simp only [Bool.and_eq_true] at hcall
      exact ⟨h, by simp [Ins.fillStoreValues, hcall]⟩
    · exact absurd h List.not_mem_nil
  · rintro ⟨h, hfill⟩
    have hany := any_isWritten_of_mem h
    simp only [Ins.fillStoreValues, Bool.and_eq_true, Bool.or_eq_true, Bool.not_eq_true'] at hfill
    obtain ⟨⟨rfl, hft | hcall⟩, hscat⟩ := hfill
    · simp [Ins.postCalls, Ins.hasStore, hft, hscat, hany] at hpost
    · simpa [hcall, hscat] using h

/-- The operand of a store is among those that are written. -/
theorem mem_writtenOps {s : Store} {op : ℕ} (hs : s ∈ e.stores ins) (hop : s.op = some op) :
    e.executing = true ∧ op ∈ ins.writtenOps := by
  rw [Execution.stores] at hs
  split at hs
  · exact absurd hs List.not_mem_nil
  · rename_i hexec
    refine ⟨by simpa using hexec, ?_⟩
    split at hs
    · obtain ⟨lane, -, hlane⟩ := List.mem_flatMap.1 hs
      rw [laneStores] at hlane
      split at hlane
      · obtain rfl := List.mem_singleton.1 hlane
        exact absurd hop (by simp)
      · exact absurd hlane List.not_mem_nil
    · obtain ⟨o, ho, hstore⟩ := List.mem_flatMap.1 hs
      rw [opStores] at hstore
      split at hstore
      · rename_i hwritten
        obtain rfl := List.mem_singleton.1 hstore
        obtain rfl := Option.some.inj hop
        exact List.mem_map.2 ⟨o, List.mem_filter.2 ⟨ho, hwritten⟩, rfl⟩
      · exact absurd hstore List.not_mem_nil

/-- When the values of all operands are filled in that are to be, each store has its value. -/
theorem filled_eq {done : List ℕ}
    (hdone : e.executing = true → ∀ op, op ∈ done ↔
      op ∈ ins.writtenOps ∧ ins.fillStoreValues captureValues = true) {s : Store}
    (hs : s ∈ e.stores ins) :
    filled (e.written ins) done s = e.storeValue captureValues ins s := by
  rw [Execution.storeValue]
  cases hop : s.op with
  | none => exact filled_of_notMem fun op _ => by simp [hop]
  | some op =>
    obtain ⟨hexec, hmem⟩ := mem_writtenOps hs hop
    have hiff : (∃ op' ∈ done, s.op = some op' ∧ op' < maxWriteOps) ↔
        ins.fillStoreValues captureValues = true ∧ op < maxWriteOps := by
      simp only [hdone hexec, hop, Option.some_inj]
      constructor
      · rintro ⟨op', ⟨-, hfill⟩, rfl, hlt⟩
        exact ⟨hfill, hlt⟩
      · rintro ⟨hfill, hlt⟩
        exact ⟨op, ⟨hmem, hfill⟩, rfl, hlt⟩
    rw [filled]
    simp only [hiff]

theorem built_congr {m : Memory} {regsR regsW : List UInt8} {loads : List Load} {stores : List Store}
    {value value' : Store → MemValue} (h : ∀ s ∈ stores, value s = value' s) :
    built m captureValues regsR regsW loads stores value =
      built m captureValues regsR regsW loads stores value' := by
  rw [built, built, fill_congr h]

/-- What is known behind an instruction. -/
structure Recorded (captureValues : Bool) (ins : Ins) (e : Execution) (n : ℕ) (r : Recorder)
    (p : Recorder × List TraceInstr) : Prop where
  written : p.2 = [recordOf captureValues ins e]
  ready : 0 < n → Ready n p.1
  overflowedSrc : p.1.warnings.overflowedSrcMemops =
    r.warnings.overflowedSrcMemops + ((e.loads ins).length - numInstrSources)
  overflowedDst : p.1.warnings.overflowedDstMemops =
    r.warnings.overflowedDstMemops + ((e.stores ins).length - numInstrDestinations)

/-- The commit of what the calls of an instruction have built. -/
theorem Building.recorded {fillStoreValues : Bool} {done : List ℕ}
    (h : Building e.before captureValues fillStoreValues (regBytes (tracedRegs ins.regR))
      (regBytes (tracedRegs ins.regW)) (e.loads ins) (e.stores ins) (e.written ins) done
      r₀ r)
    (hready : Ready (n + 1) r₀)
    (hdone : e.executing = true → ∀ op, op ∈ done ↔
      op ∈ ins.writtenOps ∧ ins.fillStoreValues captureValues = true) (m : Memory) :
    Recorded captureValues ins e n r₀
      (r.runCalls e m [.instrCommit ins.address ins.isBranch (classifyInstr ins.category)]) := by
  obtain ⟨r', hr', hnext, hsrc, hdst⟩ := h.commit hready e m ins.address ins.isBranch
    (classifyInstr ins.category)
  rw [hr', built_congr fun s => filled_eq hdone]
  exact ⟨rfl, hnext, hsrc, hdst⟩

/-- The calls before an instruction, up to the commit. -/
theorem Ready.before (h : Ready n r) (hp : e.Proper captureValues ins) :
    ∃ r', r.runCalls e e.before (firing false e (insertFullAnalysis captureValues ins)) =
        r'.runCalls e e.before (if ins.postCalls captureValues then []
          else [.instrCommit ins.address ins.isBranch (classifyInstr ins.category)]) ∧
      Building e.before captureValues (ins.fillStoreValues captureValues)
        (regBytes (tracedRegs ins.regR)) (regBytes (tracedRegs ins.regW)) (e.loads ins) (e.stores ins)
        (e.written ins) (if e.executing then callOps captureValues ins else []) r r' := by
  have h₀ := h.building captureValues e.before (ins.fillStoreValues captureValues) (e.written ins)
  obtain ⟨r₁, hr₁, h₁⟩ := h₀.regReads (e := e) (tracedRegs ins.regR)
  obtain ⟨r₂, hr₂, h₂⟩ := h₁.regWrites (e := e) (tracedRegs ins.regW)
  obtain ⟨r₃, hr₃, h₃⟩ := h₂.memCalls hp
  have h₄ : ∃ r', r₃.runCalls e e.before (if e.executing then storeCalls captureValues ins else []) =
      (r', []) ∧
      Building e.before captureValues (ins.fillStoreValues captureValues)
        (regBytes (tracedRegs ins.regR)) (regBytes (tracedRegs ins.regW)) (e.loads ins) (e.stores ins)
        (e.written ins) (if e.executing then callOps captureValues ins else []) r r' := by
    cases e.executing with
    | true => exact h₃.storeCalls
    | false => exact ⟨r₃, rfl, h₃⟩
  obtain ⟨r₄, hr₄, h₄⟩ := h₄
  refine ⟨r₄, ?_, h₄⟩
  rw [firing_before, runCalls_append hr₁, runCalls_append hr₂, runCalls_append hr₃,
    runCalls_append hr₄]

/-- An instruction is recorded once, with its own operands. -/
theorem Ready.execute (h : Ready (n + 1) r) (hp : e.Proper captureValues ins) :
    Recorded captureValues ins e n r (r.execute captureValues ins e) := by
  obtain ⟨r₁, hr₁, h₁⟩ := h.before hp
  rw [Recorder.execute, hr₁, firing_after]
  cases hpost : ins.postCalls captureValues with
  | false =>
    have hrec := h₁.recorded h (fun hexec op => by rw [if_pos hexec]; exact mem_callOps hpost) e.before
    simp only [Bool.false_eq_true, if_false]
    split
    · exact hrec
    · rw [runCalls, List.append_nil]
      exact hrec
  | true =>
    obtain ⟨⟨⟨rfl, hft⟩, hscat⟩, -⟩ : ((captureValues = true ∧ ins.hasFallThrough = true) ∧
      ins.hasScattered = false) ∧ ins.hasStore = true := by simpa [Ins.postCalls] using hpost
    have hfill : ins.fillStoreValues true = true := by simp [Ins.fillStoreValues, hft, hscat]
    have hnone : callOps true ins = [] := if_neg (by simp [Ins.isCallNoFt, hft])
    have hbranch : ins.isBranch = false := by
      by_contra hne
      rw [hp.branch (by simpa using hne)] at hpost
      exact absurd hpost (by simp)
    rw [hnone, ite_self, hfill] at h₁
    have h₂ : ∃ r', r₁.runCalls e e.after
        (if e.executing then ins.writtenOps.map .memWriteValue else []) = (r', []) ∧
        Building e.before true true (regBytes (tracedRegs ins.regR))
          (regBytes (tracedRegs ins.regW)) (e.loads ins) (e.stores ins) (e.written ins)
          (if e.executing then ins.writtenOps else []) r r' := by
      cases e.executing with
      | false => exact ⟨r₁, rfl, h₁⟩
      | true =>
        exact h₁.values (writtenOps_nodup ins) fun op done r hdone h =>
          ⟨_, rfl, h.memWriteValue hdone fun s => by simp [Execution.written, hft]⟩
    obtain ⟨r₂, hr₂, h₂⟩ := h₂
    have hdone : e.executing = true → ∀ op, op ∈ (if e.executing then ins.writtenOps else []) ↔
        op ∈ ins.writtenOps ∧ ins.fillStoreValues true = true := fun hexec op => by simp [hexec, hfill]
    have hrec := h₂.recorded h hdone e.after
    have hnil : r₁.runCalls e e.before [] = (r₁, []) := rfl
    rw [if_pos rfl, if_pos rfl, hnil]
    dsimp only
    rw [runCalls_append hr₂]
    simp only [hbranch, Bool.false_and, Bool.false_eq_true, if_false, List.nil_append] at hrec ⊢
    exact hrec

/-- Everything that is written in a run of a thread, and the counters of lost operands behind it. -/
theorem Ready.executeAll {run : List (Ins × Execution)} (h : Ready run.length r)
    (hp : ∀ i ∈ run, i.2.Proper captureValues i.1) :
    (r.executeAll captureValues run).2 = run.map (fun i => recordOf captureValues i.1 i.2) ∧
    (r.executeAll captureValues run).1.warnings.overflowedSrcMemops =
      r.warnings.overflowedSrcMemops +
        (run.map fun i => (i.2.loads i.1).length - numInstrSources).sum ∧
    (r.executeAll captureValues run).1.warnings.overflowedDstMemops =
      r.warnings.overflowedDstMemops +
        (run.map fun i => (i.2.stores i.1).length - numInstrDestinations).sum := by
  induction run generalizing r with
  | nil => exact ⟨rfl, rfl, rfl⟩
  | cons i run ih =>
    obtain ⟨ins, e⟩ := i
    have hstep := Ready.execute h (hp _ (List.mem_cons_self ..))
    have hp' : ∀ i ∈ run, i.2.Proper captureValues i.1 := fun i hi => hp i (List.mem_cons_of_mem _ hi)
    rw [Recorder.executeAll]
    dsimp only
    rw [hstep.written, List.map_cons, List.map_cons, List.map_cons, List.sum_cons, List.sum_cons,
      ← Nat.add_assoc, ← Nat.add_assoc, ← hstep.overflowedSrc, ← hstep.overflowedDst]
    rcases Nat.eq_zero_or_pos run.length with hzero | hpos
    · obtain rfl := List.length_eq_zero_iff.1 hzero
      exact ⟨rfl, rfl, rfl⟩
    · obtain ⟨hout, hcounts⟩ := ih (hstep.ready hpos) hp'
      exact ⟨congrArg (recordOf captureValues ins e :: ·) hout, hcounts⟩

end

/-! ## Runs of a thread -/

/-- A record has in its slots the first loads and the first stores of an instruction, with their sizes
and their values. -/
structure Describes (captureValues : Bool) (i : Ins × Execution) (record : TraceInstr) : Prop where
  ip : record.ip = i.1.address
  loads : ∀ (k : Fin numInstrSources) (l : Load), (i.2.loads i.1)[(k : ℕ)]? = some l →
    record.sourceMemory k = l.addr ∧ record.sourceMemorySize k = byteSize l.size ∧
    record.sourceMemoryValue k = loadValue i.2.before captureValues l
  stores : ∀ (k : Fin numInstrDestinations) (s : Store), (i.2.stores i.1)[(k : ℕ)]? = some s →
    record.destinationMemory k = s.addr ∧ record.destinationMemorySize k = byteSize s.size ∧
    record.destinationMemoryValue k = i.2.storeValue captureValues i.1 s

theorem recordOf_describes (captureValues : Bool) (i : Ins × Execution) :
    Describes captureValues i (recordOf captureValues i.1 i.2) where
  ip := rfl
  loads _ _ hl := ⟨fill_apply hl, fill_apply hl, fill_apply hl⟩
  stores _ _ hs := ⟨fill_apply hs, fill_apply hs, fill_apply hs⟩

/-- A thread in a sample writes one record for each instruction, in their order, as far as the sample
has room, and each record has the operands of its own instruction. The operands that found no slot are
counted, each once. -/
theorem operands_recorded {captureValues : Bool} {r : Recorder} {run : List (Ins × Execution)}
    (h : Ready run.length r) (hp : ∀ i ∈ run, i.2.Proper captureValues i.1) :
    List.Forall₂ (Describes captureValues) run (r.executeAll captureValues run).2 ∧
    (r.executeAll captureValues run).1.warnings.overflowedSrcMemops =
      r.warnings.overflowedSrcMemops +
        (run.map fun i => (i.2.loads i.1).length - numInstrSources).sum ∧
    (r.executeAll captureValues run).1.warnings.overflowedDstMemops =
      r.warnings.overflowedDstMemops +
        (run.map fun i => (i.2.stores i.1).length - numInstrDestinations).sum := by
  obtain ⟨hout, hcounts⟩ := h.executeAll hp
  refine ⟨?_, hcounts⟩
  rw [hout, List.forall₂_map_right_iff]
  exact List.forall₂_same.2 fun i _ => recordOf_describes captureValues i

/-- A thread at the start of a sample of ten instructions. -/
def fresh : Recorder where
  thread := ⟨.tracing, 10, 0, 1, true, false, false, 0, 10, true, false⟩
  currInstr := .zero
  pendingStoreSlot := fun _ => none
  pendingStoreAddr := fun _ => 0
  pendingStoreSize := fun _ => 0
  warnings := ⟨0, 0, 0, 0, 0, 0, 0, 0⟩

/-- An addition to a word in memory. -/
def addToMemory : Ins where
  address := 4096
  nextAddress := 4099
  category := "BINARY"
  regR := [⟨true, false, false, 7⟩, ⟨true, false, false, 10⟩]
  regW := [⟨true, true, false, 25⟩]
  memOps := [⟨true, true, 8⟩]
  hasScattered := false
  hasFallThrough := true
  isCall := false
  isBranch := false

/-- Its execution on a word that is 5, which becomes 8. -/
def addition : Execution where
  executing := true
  addr := fun _ => 65536
  lanes := []
  taken := false
  before := fun addr => some (if addr = 65536 then 5 else 0)
  after := fun addr => some (if addr = 65536 then 8 else 0)
  opens := true

theorem fresh_ready : Ready [(addToMemory, addition)].length fresh :=
  ⟨rfl, rfl, by decide, rfl, fun _ => rfl⟩

theorem addition_proper : ∀ i ∈ [(addToMemory, addition)], i.2.Proper true i.1 := by
  intro i hi
  obtain rfl := List.mem_singleton.1 hi
  refine ⟨fun l hl => ?_, fun s hs => ?_, fun hbranch => absurd hbranch (by decide)⟩
  · obtain rfl := List.mem_singleton.1 hl
    decide
  · obtain rfl := List.mem_singleton.1 hs
    decide

/-- The word that is stored is 8. -/
theorem operands_recorded_addition :
    ∃ record, (fresh.executeAll true [(addToMemory, addition)]).2 = [record] ∧
      record.destinationMemory ⟨0, by decide⟩ = 65536 ∧
      record.destinationMemoryValue ⟨0, by decide⟩ ⟨0, by decide⟩ = 8 ∧
      record.sourceMemoryValue 0 ⟨0, by decide⟩ = 5 := by
  obtain ⟨hrecords, -⟩ := operands_recorded fresh_ready addition_proper
  obtain ⟨record, rest, hrecord, hnil, hout⟩ := List.forall₂_cons_left_iff.1 hrecords
  obtain rfl := List.forall₂_nil_left_iff.1 hnil
  obtain ⟨-, -, hload⟩ := hrecord.loads 0 ⟨65536, 8⟩ rfl
  obtain ⟨haddr, -, hvalue⟩ := hrecord.stores ⟨0, by decide⟩ ⟨some 0, 65536, 8⟩ rfl
  refine ⟨record, hout, haddr, ?_, ?_⟩
  · rw [hvalue]
    decide
  · rw [hload]
    decide

end Recorder

end Arishem
