import Arishem.Core.Branches
import Arishem.Lib.Filling
import Arishem.Tracer.Callbacks

/-!
# The records of the tracer

The calls that `insert_full_analysis` puts around an instruction, what each of them does to the record
that a thread builds, and the bytes of a record. An operand goes to the first slot whose address is 0;
the value of a store is copied behind the instruction, or, where a call is not followed by anything, is
its return address.
-/

namespace Arishem

namespace Recorder

open Filling

/-- `MAX_MEM_VALUE_SIZE`. -/
def maxMemValueSize : ℕ := 64

/-- `MAX_WRITE_OPS`. -/
def maxWriteOps : ℕ := 8

/-- A memory value of a record. -/
abbrev MemValue := Fin maxMemValueSize → UInt8

/-- The memory, as far as it can be read. -/
abbrev Memory := UInt64 → Option UInt8

/-- `PIN_SafeCopy`: the bytes up to the first that cannot be read. -/
def safeCopy (m : Memory) (addr : UInt64) : ℕ → List UInt8
  | 0 => []
  | n + 1 =>
    match m addr with
    | none => []
    | some byte => byte :: safeCopy m (addr + 1) n

/-- Bytes are copied over the first ones of a value. -/
def copyOver (value : MemValue) (bytes : List UInt8) : MemValue := fun i => bytes.getD i (value i)

/-- The bytes of a word, the lowest first. -/
def wordBytes (word : UInt64) : List UInt8 :=
  (List.range 8).map fun i => (word >>> (8 * i.toUInt64)).toUInt8

/-- `trace_instr_v2_t`. The physical addresses and the reserved bytes are left out: they stay zero. -/
structure TraceInstr where
  ip : UInt64
  isBranch : UInt8
  branchTaken : UInt8
  destinationRegisters : Fin numInstrDestinations → UInt8
  sourceRegisters : Fin numInstrSources → UInt8
  destinationMemory : Fin numInstrDestinations → UInt64
  sourceMemory : Fin numInstrSources → UInt64
  sourceMemorySize : Fin numInstrSources → UInt8
  destinationMemorySize : Fin numInstrDestinations → UInt8
  privilege : UInt8
  instrType : UInt8
  sourceMemoryValue : Fin numInstrSources → MemValue
  destinationMemoryValue : Fin numInstrDestinations → MemValue

/-- The record after `reset_instr`. -/
def TraceInstr.zero : TraceInstr where
  ip := 0
  isBranch := 0
  branchTaken := 0
  destinationRegisters := fun _ => 0
  sourceRegisters := fun _ => 0
  destinationMemory := fun _ => 0
  sourceMemory := fun _ => 0
  sourceMemorySize := fun _ => 0
  destinationMemorySize := fun _ => 0
  privilege := 0
  instrType := 0
  sourceMemoryValue := fun _ _ => 0
  destinationMemoryValue := fun _ _ => 0

/-- The bytes of a record. -/
def TraceInstr.bytes (r : TraceInstr) : List UInt8 :=
  wordBytes r.ip ++ [r.isBranch, r.branchTaken] ++ List.ofFn r.destinationRegisters ++
  List.ofFn r.sourceRegisters ++ (List.ofFn r.destinationMemory).flatMap wordBytes ++
  (List.ofFn r.sourceMemory).flatMap wordBytes ++
  List.replicate 48 0 ++ List.ofFn r.sourceMemorySize ++ List.ofFn r.destinationMemorySize ++
  [r.privilege, r.instrType] ++ List.replicate 8 0 ++
  (List.ofFn r.sourceMemoryValue).flatMap (fun value => List.ofFn value) ++
  (List.ofFn r.destinationMemoryValue).flatMap (fun value => List.ofFn value)

/-- The counters that are printed at the end. -/
structure Warnings where
  overflowedSrcMemops : ℕ
  overflowedDstMemops : ℕ
  missedStoreValues : ℕ
  callStoreValuesFilled : ℕ
  truncatedValues : ℕ
  safecopyShortReads : ℕ
  scatteredInstrsSeen : ℕ
  scatterMissedStoreValues : ℕ

/-- `clamp_value_size`. -/
def clampValueSize (size : UInt32) (w : Warnings) : ℕ × Warnings :=
  if maxMemValueSize < size.toNat then
    (maxMemValueSize, { w with truncatedValues := w.truncatedValues + 1 })
  else (size.toNat, w)

/-- `safe_copy_value`. -/
def safeCopyValue (m : Memory) (dst : MemValue) (addr : UInt64) (size : ℕ) (w : Warnings) :
    MemValue × Warnings :=
  let bytes := safeCopy m addr size
  (copyOver dst bytes,
    if bytes.length < size then { w with safecopyShortReads := w.safecopyShortReads + 1 } else w)

/-- A size in a record. -/
def byteSize (size : UInt32) : UInt8 := (min size 255).toUInt8

end Recorder

/-- What `leave_tracing` makes of the thread. -/
def ThreadState.leaveTracing (opens : Bool) (ts : ThreadState) : ThreadState :=
  let ts := ts.sampleClosed
  if 0 < ts.sampleLimit ∧ ts.sampleLimit ≤ ts.samplesCollected then
    { ts with phase := .done, everReachedDone := true }
  else if 0 < ts.interSampleSkip then { ts with phase := .interSkip, counter := ts.interSampleSkip }
  else ts.startWindow.openNextSample opens

/-- A thread with the record that is being built, and the counters. -/
structure Recorder where
  thread : ThreadState
  currInstr : Recorder.TraceInstr
  pendingStoreSlot : Fin Recorder.maxWriteOps → Option (Fin numInstrDestinations)
  pendingStoreAddr : Fin Recorder.maxWriteOps → UInt64
  pendingStoreSize : Fin Recorder.maxWriteOps → UInt32
  warnings : Recorder.Warnings

namespace Recorder

open Filling

/-! ## The analysis calls -/

/-- `RecordMemRead`. -/
def recordMemRead (m : Memory) (addr : UInt64) (size : UInt32) (wantValue : Bool) (r : Recorder) :
    Recorder :=
  if r.thread.phase ≠ .tracing then r
  else
    match firstFree 0 r.currInstr.sourceMemory with
    | none =>
      { r with warnings := { r.warnings with
          overflowedSrcMemops := r.warnings.overflowedSrcMemops + 1 } }
    | some i =>
      let instr := { r.currInstr with
        sourceMemory := Function.update r.currInstr.sourceMemory i addr
        sourceMemorySize := Function.update r.currInstr.sourceMemorySize i (byteSize size) }
      if wantValue then
        let (csz, w) := clampValueSize size r.warnings
        let (value, w) := safeCopyValue m (instr.sourceMemoryValue i) addr csz w
        { r with
          currInstr := { instr with
            sourceMemoryValue := Function.update instr.sourceMemoryValue i value }
          warnings := w }
      else { r with currInstr := instr }

/-- `RecordMemWrite`. -/
def recordMemWrite (addr : UInt64) (size : UInt32) (opIdx : ℕ) (willCaptureValue : Bool)
    (r : Recorder) : Recorder :=
  if r.thread.phase ≠ .tracing then r
  else
    match firstFree 0 r.currInstr.destinationMemory with
    | none =>
      { r with warnings := { r.warnings with
          overflowedDstMemops := r.warnings.overflowedDstMemops + 1 } }
    | some k =>
      let r := { r with currInstr := { r.currInstr with
        destinationMemory := Function.update r.currInstr.destinationMemory k addr
        destinationMemorySize :=
          Function.update r.currInstr.destinationMemorySize k (byteSize size) } }
      if h : willCaptureValue = true ∧ opIdx < maxWriteOps then
        { r with
          pendingStoreSlot := Function.update r.pendingStoreSlot ⟨opIdx, h.2⟩ (some k)
          pendingStoreAddr := Function.update r.pendingStoreAddr ⟨opIdx, h.2⟩ addr
          pendingStoreSize := Function.update r.pendingStoreSize ⟨opIdx, h.2⟩ size }
      else r

/-- A lane of a gather or scatter instruction (`PIN_MEM_ACCESS_INFO`). -/
structure Lane where
  maskOn : Bool
  isLoad : Bool
  memoryAddress : UInt64
  bytesAccessed : UInt32

/-- The body of the loop of `RecordScatteredMemAccess` for a lane that is on and stores. -/
def recordScatterStore (lane : Lane) (r : Recorder) : Recorder :=
  let r :=
    match firstFree 0 r.currInstr.destinationMemory with
    | none =>
      { r with warnings := { r.warnings with
          overflowedDstMemops := r.warnings.overflowedDstMemops + 1 } }
    | some k =>
      { r with currInstr := { r.currInstr with
          destinationMemory := Function.update r.currInstr.destinationMemory k lane.memoryAddress
          destinationMemorySize :=
            Function.update r.currInstr.destinationMemorySize k (byteSize lane.bytesAccessed) } }
  { r with warnings := { r.warnings with
      missedStoreValues := r.warnings.missedStoreValues + 1
      scatterMissedStoreValues := r.warnings.scatterMissedStoreValues + 1 } }

/-- The body of the loop of `RecordScatteredMemAccess`. -/
def recordLane (m : Memory) (wantLoadValue : Bool) (r : Recorder) (lane : Lane) : Recorder :=
  if lane.maskOn = false then r
  else if lane.isLoad then
    r.recordMemRead m lane.memoryAddress lane.bytesAccessed wantLoadValue
  else r.recordScatterStore lane

/-- `RecordScatteredMemAccess`. -/
def recordScatteredMemAccess (m : Memory) (lanes : List Lane) (wantLoadValue : Bool) (r : Recorder) :
    Recorder :=
  if r.thread.phase ≠ .tracing then r
  else
    lanes.foldl (recordLane m wantLoadValue) { r with warnings := { r.warnings with
      scatteredInstrsSeen := r.warnings.scatteredInstrsSeen + 1 } }

/-- `RecordMemWriteValue`. -/
def recordMemWriteValue (m : Memory) (opIdx : ℕ) (r : Recorder) : Recorder :=
  if r.thread.phase ≠ .tracing then r
  else if h : opIdx < maxWriteOps then
    match r.pendingStoreSlot ⟨opIdx, h⟩ with
    | none => r
    | some k =>
      let (size, w) := clampValueSize (r.pendingStoreSize ⟨opIdx, h⟩) r.warnings
      let (value, w) := safeCopyValue m (r.currInstr.destinationMemoryValue k)
        (r.pendingStoreAddr ⟨opIdx, h⟩) size w
      { r with
        currInstr := { r.currInstr with
          destinationMemoryValue := Function.update r.currInstr.destinationMemoryValue k value }
        pendingStoreSlot := Function.update r.pendingStoreSlot ⟨opIdx, h⟩ none
        warnings := w }
  else r

/-- `NoteMissedStoreValue`. -/
def noteMissedStoreValue (r : Recorder) : Recorder :=
  { r with warnings := { r.warnings with missedStoreValues := r.warnings.missedStoreValues + 1 } }

/-- `RecordCallRetAddrValue`. -/
def recordCallRetAddrValue (opIdx : ℕ) (retAddr : UInt64) (r : Recorder) : Recorder :=
  if r.thread.phase ≠ .tracing then r
  else if h : opIdx < maxWriteOps then
    match r.pendingStoreSlot ⟨opIdx, h⟩ with
    | none => r
    | some k =>
      { r with
        currInstr := { r.currInstr with
          destinationMemoryValue := Function.update r.currInstr.destinationMemoryValue k
            (copyOver (r.currInstr.destinationMemoryValue k) (wordBytes retAddr)) }
        pendingStoreSlot := Function.update r.pendingStoreSlot ⟨opIdx, h⟩ none
        warnings := { r.warnings with
          callStoreValuesFilled := r.warnings.callStoreValuesFilled + 1 } }
  else r

/-- `RecordRegRead`. -/
def recordRegRead (reg : UInt32) (r : Recorder) : Recorder :=
  if r.thread.phase ≠ .tracing then r
  else
    match firstFree 0 r.currInstr.sourceRegisters with
    | none => r
    | some i =>
      { r with currInstr := { r.currInstr with
          sourceRegisters := Function.update r.currInstr.sourceRegisters i reg.toUInt8 } }

/-- `RecordRegWrite`. -/
def recordRegWrite (reg : UInt32) (r : Recorder) : Recorder :=
  if r.thread.phase ≠ .tracing then r
  else
    match firstFree 0 r.currInstr.destinationRegisters with
    | none => r
    | some i =>
      { r with currInstr := { r.currInstr with
          destinationRegisters := Function.update r.currInstr.destinationRegisters i reg.toUInt8 } }

/-- `reset_instr` and `reset_pending_stores`. -/
def reset (r : Recorder) : Recorder :=
  { r with
    currInstr := .zero
    pendingStoreSlot := fun _ => none
    pendingStoreAddr := fun _ => 0
    pendingStoreSize := fun _ => 0 }

/-- `RecordInstrCommit`, with the record that it writes. `opens` says whether the file of the next
sample could be opened. -/
def recordInstrCommit (opens : Bool) (ip : UInt64) (isBranch branchTaken instrType : UInt8)
    (r : Recorder) : Recorder × List TraceInstr :=
  if r.thread.phase ≠ .tracing then (r, [])
  else
    let record := { r.currInstr with
      ip := ip
      isBranch := isBranch
      branchTaken := branchTaken
      privilege := 0
      instrType := instrType }
    let ts := { r.thread with counter := r.thread.counter - 1 }
    ({ r.reset with thread := if ts.counter = 0 then ts.leaveTracing opens else ts },
      if r.thread.sampleOpen then [record] else [])

/-! ## The thread -/

/-- `leave_tracing` writes no record and no other thread. -/
theorem leaveTracing_thread (kn : Knobs) (opens : Bool) (tid : ℕ) (ts : ThreadState) (s : Tracer) :
    (s.leaveTracing kn opens tid ts).thread = ts.leaveTracing opens ∧
      (s.leaveTracing kn opens tid ts).tracer.threadStates = s.threadStates ∧
      .record tid ∉ (s.leaveTracing kn opens tid ts).outputs := by
  by_cases hquota : 0 < ts.sampleClosed.sampleLimit ∧
      ts.sampleClosed.sampleLimit ≤ ts.sampleClosed.samplesCollected
  · simp only [Tracer.leaveTracing, Tracer.finishSample, ThreadState.leaveTracing, if_pos hquota]
    cases hdone : ts.everReachedDone with
    | true =>
      simp [Tracer.markReachedDone, ThreadState.sampleClosed, ThreadState.closeSample, hdone,
        Tracer.deactivate, Tracer.removeInstrumentation]
    | false =>
      simp only [Tracer.markReachedDone, ThreadState.sampleClosed, ThreadState.closeSample, hdone,
        Tracer.deactivate, Tracer.removeInstrumentation, Tracer.maybeExitOnDone, Bool.false_eq_true,
        if_false]
      split <;> simp
  · by_cases hskip : 0 < ts.sampleClosed.interSampleSkip
    · simp only [Tracer.leaveTracing, Tracer.finishSample, ThreadState.leaveTracing, if_neg hquota,
        if_pos hskip]
      exact ⟨trivial, rfl, List.not_mem_nil⟩
    · simp only [Tracer.leaveTracing, Tracer.finishSample, ThreadState.leaveTracing, if_neg hquota,
        if_neg hskip]
      cases opens <;> simp [ThreadState.openOutputs]

/-- The tool takes the thread through the same steps, and writes a record where one is built: what is
proved of the samples and of the phases of a thread is about the threads that record here. -/
theorem recordInstrCommit_thread {kn : Knobs} {opens : Bool} {tid : ℕ} {s : Tracer} {r : Recorder}
    (h : s.getState tid = some r.thread) (ip : UInt64) (isBranch branchTaken instrType : UInt8) :
    (s.recordInstrCommit kn opens tid).1.getState tid =
        some (r.recordInstrCommit opens ip isBranch branchTaken instrType).1.thread ∧
      (.record tid ∈ (s.recordInstrCommit kn opens tid).2 ↔
        (r.recordInstrCommit opens ip isBranch branchTaken instrType).2 ≠ []) := by
  obtain ⟨hi, -⟩ := Tracer.getState_some h
  have hwritten : ∀ (isOpen : Bool) (os : List Output) (record : TraceInstr), .record tid ∉ os →
      (.record tid ∈ (if isOpen then [Output.record tid] else []) ++ os ↔
        (if isOpen then [record] else []) ≠ []) := by
    intro isOpen os record hos
    cases isOpen <;> simp [hos]
  rw [Tracer.recordInstrCommit, recordInstrCommit, h]
  dsimp only
  by_cases hphase : r.thread.phase = .tracing
  · rw [if_neg (not_not.2 hphase), if_neg (not_not.2 hphase)]
    by_cases hquota : r.thread.counter - 1 = 0
    · obtain ⟨hthread, hstates, hout⟩ := leaveTracing_thread kn opens tid
        { r.thread with counter := r.thread.counter - 1 } s
      rw [if_pos hquota, if_pos hquota, Tracer.store, Tracer.getState_setState (hstates ▸ hi),
        if_pos rfl, hthread]
      exact ⟨rfl, hwritten _ _ _ hout⟩
    · rw [if_neg hquota, if_neg hquota, Tracer.getState_setState hi, if_pos rfl]
      refine ⟨rfl, ?_⟩
      rw [← List.append_nil (if r.thread.sampleOpen then [Output.record tid] else [])]
      exact hwritten _ _ _ List.not_mem_nil
  · rw [if_pos hphase, if_pos hphase]
    exact ⟨h, by simp⟩

/-! ## Instrumentation -/

/-- A register operand. -/
structure Reg where
  valid : Bool
  isFlags : Bool
  isSeg : Bool
  fullRegName : UInt32

/-- A memory operand. -/
structure MemOp where
  isRead : Bool
  isWritten : Bool
  size : UInt32

/-- An instruction. -/
structure Ins where
  address : UInt64
  nextAddress : UInt64
  category : String
  regR : List Reg
  regW : List Reg
  memOps : List MemOp
  hasScattered : Bool
  hasFallThrough : Bool
  isCall : Bool
  isBranch : Bool

/-- `classify_instr`: integer, floating point or vector. -/
def classifyInstr (cat : String) : UInt8 :=
  if cat = "X87_ALU" then 1
  else if cat.startsWith "SSE" || cat.startsWith "AVX" then 2
  else if cat ∈ ["MMX", "AES", "PCLMULQDQ", "FMA4", "VFMA", "GFNI", "VAES", "VPCLMULQDQ", "SHA",
    "3DNOW", "XOP"] then 2
  else 0

/-- A call to an analysis function. -/
inductive AnalysisCall where
  | regRead (reg : UInt32)
  | regWrite (reg : UInt32)
  | memRead (op : ℕ) (size : UInt32) (wantValue : Bool)
  | memWrite (op : ℕ) (size : UInt32) (willCaptureValue : Bool)
  | scatteredMemAccess (wantLoadValue : Bool)
  | callRetAddrValue (op : ℕ) (retAddr : UInt64)
  | noteMissedStoreValue
  | memWriteValue (op : ℕ)
  | instrCommit (ip : UInt64) (isBranch : Bool) (instrType : UInt8)

/-- A call that is inserted at `IPOINT_BEFORE` or `IPOINT_AFTER`, and whether it is predicated. -/
structure Inserted where
  isAfter : Bool
  isPredicated : Bool
  call : AnalysisCall

/-- The registers whose calls are inserted. -/
def tracedRegs (regs : List Reg) : List Reg :=
  regs.filter fun reg => reg.valid && !reg.isFlags && !reg.isSeg

/-- The numbers of the memory operands that are written. -/
def Ins.writtenOps (ins : Ins) : List ℕ :=
  (ins.memOps.zipIdx.filter fun o => o.1.isWritten).map Prod.snd

/-- `is_call_no_ft`. -/
def Ins.isCallNoFt (ins : Ins) : Bool := ins.isCall && !ins.hasFallThrough

/-- `fill_store_values`. -/
def Ins.fillStoreValues (captureValues : Bool) (ins : Ins) : Bool :=
  captureValues && (ins.hasFallThrough || ins.isCallNoFt) && !ins.hasScattered

/-- `has_store`. -/
def Ins.hasStore (ins : Ins) : Bool := !ins.hasScattered && ins.memOps.any (·.isWritten)

/-- `post_calls_ok && has_store`. -/
def Ins.postCalls (captureValues : Bool) (ins : Ins) : Bool :=
  captureValues && ins.hasFallThrough && !ins.hasScattered && ins.hasStore

/-- The calls for a memory operand. -/
def memOpCalls (captureValues fillStoreValues : Bool) (o : MemOp × ℕ) : List AnalysisCall :=
  (if o.1.isRead then [.memRead o.2 o.1.size captureValues] else []) ++
  if o.1.isWritten then [.memWrite o.2 o.1.size fillStoreValues] else []

/-- The calls for the memory operands. -/
def memCalls (captureValues : Bool) (ins : Ins) : List AnalysisCall :=
  if ins.hasScattered then [.scatteredMemAccess captureValues]
  else ins.memOps.zipIdx.flatMap (memOpCalls captureValues (ins.fillStoreValues captureValues))

/-- The calls for the values of stores before the instruction. -/
def storeCalls (captureValues : Bool) (ins : Ins) : List AnalysisCall :=
  (if ins.isCallNoFt && captureValues && !ins.hasScattered then
    ins.writtenOps.map fun op => .callRetAddrValue op ins.nextAddress else []) ++
  if ins.hasStore && captureValues && !ins.hasFallThrough && !ins.isCallNoFt && !ins.hasScattered then
    ins.writtenOps.map fun _ => .noteMissedStoreValue else []

/-- `insert_full_analysis`. -/
def insertFullAnalysis (captureValues : Bool) (ins : Ins) : List Inserted :=
  (tracedRegs ins.regR).map (fun reg => ⟨false, false, .regRead reg.fullRegName⟩) ++
  (tracedRegs ins.regW).map (fun reg => ⟨false, false, .regWrite reg.fullRegName⟩) ++
  (memCalls captureValues ins).map (fun call => ⟨false, true, call⟩) ++
  (storeCalls captureValues ins).map (fun call => ⟨false, true, call⟩) ++
  (if ins.postCalls captureValues then
    ins.writtenOps.map fun op => ⟨true, true, .memWriteValue op⟩ else []) ++
  [⟨ins.postCalls captureValues, false,
    .instrCommit ins.address ins.isBranch (classifyInstr ins.category)⟩]

/-! ## Execution -/

/-- An execution of an instruction: whether its predicate holds, the addresses of its operands, the
lanes of a gather or scatter, whether a branch is taken, the memory before and behind it, and whether
the file of the next sample could be opened. -/
structure Execution where
  executing : Bool
  addr : ℕ → UInt64
  lanes : List Lane
  taken : Bool
  before : Memory
  after : Memory
  opens : Bool

/-- A call in an execution, with the record that it writes. -/
def runCall (e : Execution) (m : Memory) (r : Recorder) : AnalysisCall → Recorder × List TraceInstr
  | .regRead reg => (r.recordRegRead reg, [])
  | .regWrite reg => (r.recordRegWrite reg, [])
  | .memRead op size wantValue => (r.recordMemRead m (e.addr op) size wantValue, [])
  | .memWrite op size willCaptureValue => (r.recordMemWrite (e.addr op) size op willCaptureValue, [])
  | .scatteredMemAccess wantLoadValue => (r.recordScatteredMemAccess m e.lanes wantLoadValue, [])
  | .callRetAddrValue op retAddr => (r.recordCallRetAddrValue op retAddr, [])
  | .noteMissedStoreValue => (r.noteMissedStoreValue, [])
  | .memWriteValue op => (r.recordMemWriteValue m op, [])
  | .instrCommit ip isBranch instrType =>
    r.recordInstrCommit e.opens ip isBranch.toUInt8 (isBranch && e.taken).toUInt8 instrType

/-- Calls one after the other. -/
def runCalls (e : Execution) (m : Memory) (r : Recorder) :
    List AnalysisCall → Recorder × List TraceInstr
  | [] => (r, [])
  | call :: calls =>
    let (r, out) := r.runCall e m call
    let (r, out') := runCalls e m r calls
    (r, out ++ out')

/-- The calls at a point that PIN runs: a predicated call runs where the instruction executes. -/
def firing (isAfter : Bool) (e : Execution) (calls : List Inserted) : List AnalysisCall :=
  (calls.filter fun c => c.isAfter == isAfter && (!c.isPredicated || e.executing)).map (·.call)

/-- An instrumented instruction is executed. The calls behind it run when it falls through. -/
def execute (captureValues : Bool) (ins : Ins) (e : Execution) (r : Recorder) :
    Recorder × List TraceInstr :=
  let calls := insertFullAnalysis captureValues ins
  let (r, out) := r.runCalls e e.before (firing false e calls)
  if ins.isBranch && e.taken then (r, out)
  else
    let (r, out') := r.runCalls e e.after (firing true e calls)
    (r, out ++ out')

/-- Instructions of a thread, with the records that are written. -/
def executeAll (captureValues : Bool) (r : Recorder) :
    List (Ins × Execution) → Recorder × List TraceInstr
  | [] => (r, [])
  | (ins, e) :: rest =>
    let (r, out) := r.execute captureValues ins e
    let (r, out') := executeAll captureValues r rest
    (r, out ++ out')

end Recorder

end Arishem
