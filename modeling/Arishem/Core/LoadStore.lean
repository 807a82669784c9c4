import Arishem.Core.Execution

/-!
# Loads and stores

`schedule_memory_instruction` moves the operands of memory instructions into the load and the store
queue. A load whose address an older store writes waits for that store, and `execute_store` forwards
to it; the other loads go through RTL0, the DTLB, RTL1 and the L1D. A store goes through RTS0, the
DTLB and RTS1. Stores enter the store queue in the order of the STA.
-/

namespace Arishem

/-- Addresses inside a page or a block: the offset of one in the frame of the other. -/
def withOffset (log2 : UInt64) (frame offset : Addr) : Addr :=
  (frame &&& ~~~((1 <<< log2) - 1)) ||| (offset &&& ((1 <<< log2) - 1))

/-- An answer of the DTLB or the L1D, with the requests that were merged with it. -/
structure DataPacket where
  type : AccessType
  robIndex : ℕ
  instrId : ℕ
  sqIndex : ℕ
  lqIndex : ℕ
  dataPa : UInt64
  eventCycle : Cycle
  storeMerged : Bool
  loadMerged : Bool
  sqIndexDependOnMe : Finset ℕ
  lqIndexDependOnMe : Finset ℕ

namespace O3Cpu

variable (cfg : CoreConfig)

/-! ## The operands of an instruction -/

/-- A memory operand of the instruction is done. -/
def finishMemOp (i : ℕ) (cycle : Cycle) (s : O3Cpu) : Except CoreFault O3Cpu :=
  let s := s.modifyRob i fun e => { e with numMemOps := e.numMemOps - 1, eventCycle := cycle }
  if (s.rob.entry i).numMemOps < 0 then .error .numMemOps
  else if (s.rob.entry i).numMemOps = 0 then
    .ok { s with inflightMemExecutions := s.inflightMemExecutions + 1 }
  else .ok s

/-- `release_load_queue`. -/
def releaseLoadQueue (lqIndex : ℕ) (s : O3Cpu) : O3Cpu :=
  let s := s.modifyLq lqIndex fun _ => .empty
  { s with lq := { s.lq with occupancy := s.lq.occupancy - 1 } }

/-- `mem_RAW_dependency`. -/
def memRawDependency (prior current : ℕ) (j : Fin numInstrSources) (lqIndex : ℕ) (s : O3Cpu) :
    O3Cpu :=
  if ∃ d, (s.rob.entry prior).destinationMemory d ≠ 0 ∧
      (s.rob.entry prior).destinationMemory d = (s.rob.entry current).sourceMemory j then
    let s := s.modifyRob prior fun e =>
      { e with
        memoryInstrsDependOnMe := insert current e.memoryInstrsDependOnMe
        isProducer := true }
    s.modifyLq lqIndex fun l =>
      { l with producerId := some (s.rob.entry prior).instrId, translated := .inflight }
  else s

/-- The loop of `add_load_queue` over the older instructions, up to the first producer. -/
def memDependency (robIndex : ℕ) (j : Fin numInstrSources) (lqIndex : ℕ) (s : O3Cpu) : O3Cpu :=
  (s.priors cfg robIndex).foldl (fun s i =>
    if (s.lq.entry lqIndex).producerId = none then s.memRawDependency i robIndex j lqIndex
    else s) s

/-- The store from which the load can be forwarded. -/
def forwardingIndex (robIndex lqIndex : ℕ) (s : O3Cpu) : Option ℕ :=
  (List.range cfg.sqSize).find? fun i =>
    (s.sq.entry i).virtualAddress ≠ 0 ∧
      (s.sq.entry i).virtualAddress = (s.lq.entry lqIndex).virtualAddress ∧
      robIndex ≠ s.rob.head ∧ (s.lq.entry lqIndex).producerId = some (s.sq.entry i).instrId

/-- A younger store to the address is in the store queue, and no older one writes it. -/
def seesWar (lqIndex : ℕ) (s : O3Cpu) : Prop :=
  (s.lq.entry lqIndex).producerId = none ∧ ∃ i < cfg.sqSize,
    (s.sq.entry i).virtualAddress ≠ 0 ∧
      (s.sq.entry i).virtualAddress = (s.lq.entry lqIndex).virtualAddress ∧
      (s.lq.entry lqIndex).instrId ≤ (s.sq.entry i).instrId

instance decidableSeesWar (lqIndex : ℕ) (s : O3Cpu) : Decidable (s.seesWar cfg lqIndex) :=
  inferInstanceAs (Decidable (_ ∧ _))

/-- Forward the data of an executed store to the load, which is then done. -/
def forwardLoad (sqIndex lqIndex : ℕ) (s : O3Cpu) : Except CoreFault O3Cpu := do
  let s := s.modifyLq lqIndex fun l =>
    { l with
      physicalAddress :=
        withOffset log2BlockSize (s.sq.entry sqIndex).physicalAddress l.virtualAddress
      translated := .completed
      fetched := .completed }
  let s ← s.finishMemOp (s.lq.entry lqIndex).robIndex s.currentCoreCycle
  .ok (s.releaseLoadQueue lqIndex)

/-- The first free slot of the load queue. -/
def freeLq (s : O3Cpu) : Option ℕ :=
  (List.range cfg.lqSize).find? fun i => (s.lq.entry i).virtualAddress = 0

/-- Write the load of a source into its slot. -/
def fillLq (robIndex : ℕ) (j : Fin numInstrSources) (lqIndex : ℕ) (s : O3Cpu) : O3Cpu :=
  let s := s.modifyRob robIndex fun e =>
    { e with lqIndex := Function.update e.lqIndex j (some lqIndex) }
  let s := s.modifyLq lqIndex fun l =>
    { l with
      instrId := (s.rob.entry robIndex).instrId
      virtualAddress := (s.rob.entry robIndex).sourceMemory j
      ip := (s.rob.entry robIndex).ip
      dataIndex := j
      robIndex := robIndex
      eventCycle := s.currentCoreCycle + cfg.schedulingLatency }
  { s with lq := { s.lq with occupancy := s.lq.occupancy + 1 } }

/-- A load is not forwarded from a younger store that came first: it reads the cache. -/
def obeyWar (lqIndex : ℕ) (s : O3Cpu) : O3Cpu :=
  if s.seesWar cfg lqIndex then
    s.modifyLq lqIndex fun l =>
      { l with physicalAddress := 0, translated := .none, fetched := .none }
  else s

/-- Forward to the load at once when its producer is executed; otherwise `execute_store` will. -/
def tryForward (robIndex lqIndex : ℕ) (s : O3Cpu) : Except CoreFault O3Cpu :=
  match s.forwardingIndex cfg robIndex lqIndex with
  | none => .ok s
  | some i =>
    if (s.sq.entry i).fetched = .completed ∧
        (s.sq.entry i).eventCycle ≤ s.currentCoreCycle then
      s.forwardLoad i lqIndex
    else .ok s

/-- The end of `add_load_queue`: a load that is neither released nor waits for a store is ready. -/
def finishLq (robIndex : ℕ) (j : Fin numInstrSources) (lqIndex : ℕ) (s : O3Cpu) : O3Cpu :=
  let s := s.modifyRob robIndex fun e =>
    { e with sourceAdded := Function.update e.sourceAdded j true }
  if (s.lq.entry lqIndex).virtualAddress ≠ 0 ∧ (s.lq.entry lqIndex).producerId = none then
    { s with rtl0 := s.rtl0.push cfg.lqSize lqIndex }
  else s

/-- `add_load_queue`. -/
def addLoadQueue (robIndex : ℕ) (j : Fin numInstrSources) (s : O3Cpu) : Except CoreFault O3Cpu :=
  match s.freeLq cfg with
  | none => .error .lqFull
  | some lqIndex => do
    let s := (s.fillLq cfg robIndex j lqIndex).memDependency cfg robIndex j lqIndex
    let s ← (s.obeyWar cfg lqIndex).tryForward cfg robIndex lqIndex
    .ok (s.finishLq cfg robIndex j lqIndex)

/-- `add_store_queue`. -/
def addStoreQueue (robIndex : ℕ) (d : Fin numInstrDestinationsSparc) (s : O3Cpu) :
    Except CoreFault O3Cpu :=
  let sqIndex := s.sq.tail
  if (s.sq.entry sqIndex).virtualAddress ≠ 0 then .error .sqTail
  else
    let s := s.modifySq sqIndex fun l =>
      { l with
        instrId := (s.rob.entry robIndex).instrId
        virtualAddress := (s.rob.entry robIndex).destinationMemory d
        ip := (s.rob.entry robIndex).ip
        dataIndex := d
        robIndex := robIndex
        eventCycle := s.currentCoreCycle + cfg.schedulingLatency }
    let s := s.modifyRob robIndex fun e =>
      { e with
        sqIndex := Function.update e.sqIndex d (some sqIndex)
        destinationAdded := Function.update e.destinationAdded d true }
    .ok
      { s with
        sq := { s.sq with occupancy := s.sq.occupancy + 1, tail := Ring.next cfg.sqSize s.sq.tail }
        sta := s.sta.pop cfg.staSize
        rts0 := s.rts0.push cfg.sqSize sqIndex }

/-! ## `schedule_memory_instruction` -/

/-- The body of `check_and_add_lsq` for a source. -/
def addSource (robIndex : ℕ) (s : O3Cpu) (j : Fin numInstrSources) : Except CoreFault O3Cpu :=
  if (s.rob.entry robIndex).sourceMemory j ≠ 0 ∧
      (s.rob.entry robIndex).sourceAdded j = false ∧ s.lq.occupancy < cfg.lqSize then
    s.addLoadQueue cfg robIndex j
  else .ok s

/-- The body of `check_and_add_lsq` for a destination. -/
def addDestination (robIndex : ℕ) (s : O3Cpu) (d : Fin numInstrDestinationsSparc) :
    Except CoreFault O3Cpu :=
  if (s.rob.entry robIndex).destinationMemory d ≠ 0 ∧
      (s.rob.entry robIndex).destinationAdded d = false ∧ s.sq.occupancy < cfg.sqSize ∧
      s.sta.slots s.sta.head = some (s.rob.entry robIndex).instrId then
    s.addStoreQueue cfg robIndex d
  else .ok s

/-- All memory operands of the instruction are added: the two counts of `check_and_add_lsq` are the
same, as it counts a used operand as added exactly when its flag is set in the end. -/
def allAdded (robIndex : ℕ) (s : O3Cpu) : Prop :=
  (∀ j, (s.rob.entry robIndex).sourceMemory j ≠ 0 →
      (s.rob.entry robIndex).sourceAdded j = true) ∧
    ∀ d, (s.rob.entry robIndex).destinationMemory d ≠ 0 →
      (s.rob.entry robIndex).destinationAdded d = true

instance decidableAllAdded (robIndex : ℕ) (s : O3Cpu) : Decidable (s.allAdded robIndex) :=
  inferInstanceAs (Decidable (_ ∧ _))

/-- `check_and_add_lsq`: the operands that are not added yet, as long as there is room. -/
def checkAndAddLsq (robIndex : ℕ) (s : O3Cpu) : Except CoreFault O3Cpu := do
  let s ← (List.finRange numInstrSources).foldlM (addSource cfg robIndex) s
  (List.finRange numInstrDestinationsSparc).foldlM (addDestination cfg robIndex) s

/-- A memory instruction is scheduled, and waits for its operands from now on. -/
def markScheduled (robIndex : ℕ) (s : O3Cpu) : O3Cpu :=
  s.modifyRob robIndex fun e =>
    { e with
      scheduled := .completed
      executed := if e.executed = .none then .inflight else e.executed }

/-- `do_memory_scheduling`. -/
def doMemoryScheduling (robIndex : ℕ) (s : O3Cpu) : Except CoreFault O3Cpu := do
  let s ← s.checkAndAddLsq cfg robIndex
  let s := if s.allAdded robIndex then s.markScheduled robIndex else s
  .ok { s with numSearched := s.numSearched + 1 }

/-- A loop of `schedule_memory_instruction`, over the indices it visits. -/
def scheduleMemoryFrom : List ℕ → O3Cpu → Except CoreFault O3Cpu
  | [], s => .ok s
  | i :: is, s =>
    if (s.rob.entry i).isMemory = false then scheduleMemoryFrom is s
    else if s.stopsAt cfg i then .ok s
    else if (s.rob.entry i).regReady = true ∧ (s.rob.entry i).scheduled = .inflight then do
      let s ← s.doMemoryScheduling cfg i
      scheduleMemoryFrom is s
    else scheduleMemoryFrom is s

/-- `schedule_memory_instruction`. The second loop runs although the first one stopped early. -/
def scheduleMemoryInstruction (s : O3Cpu) : Except CoreFault O3Cpu :=
  if s.rob.head = s.rob.tail ∧ s.rob.occupancy = 0 then .ok s
  else
    let limit := s.rob.nextSchedule
    let s := { s with numSearched := 0 }
    if s.rob.head < limit then
      s.scheduleMemoryFrom cfg (List.range' s.rob.head (limit - s.rob.head))
    else do
      let s ← s.scheduleMemoryFrom cfg (List.range' s.rob.head (cfg.robSize - s.rob.head))
      s.scheduleMemoryFrom cfg (List.range limit)

/-! ## `operate_lsq` -/

/-- The checks and the effect of `execute_store` for a source of a dependent instruction. -/
def forwardTo (sqIndex dependent : ℕ) (s : O3Cpu) (j : Fin numInstrSources) :
    Except CoreFault O3Cpu :=
  if (s.rob.entry dependent).sourceMemory j ≠ 0 ∧
      (s.rob.entry dependent).sourceAdded j = true ∧
      (s.rob.entry dependent).sourceMemory j = (s.sq.entry sqIndex).virtualAddress then
    match (s.rob.entry dependent).lqIndex j with
    | none => .error .producer
    | some lqIndex =>
      if (s.lq.entry lqIndex).producerId ≠ some (s.sq.entry sqIndex).instrId then
        .error .producer
      else
        (s.modifyLq lqIndex fun l =>
          { l with eventCycle := s.currentCoreCycle }).forwardLoad sqIndex lqIndex
  else .ok s

/-- `execute_store`. The set of dependent instructions is read before the loop, and inserting one of
them again changes nothing. -/
def executeStore (robIndex sqIndex : ℕ) (s : O3Cpu) : Except CoreFault O3Cpu := do
  let s := s.modifySq sqIndex fun l =>
    { l with fetched := .completed, eventCycle := s.currentCoreCycle }
  let s ← s.finishMemOp robIndex s.currentCoreCycle
  if (s.rob.entry robIndex).isProducer then
    (expand cfg.robSize (s.rob.entry robIndex).memoryInstrsDependOnMe).foldlM (fun s i =>
      (List.finRange numInstrSources).foldlM (forwardTo sqIndex i) s) s
  else .ok s

/-- The store at the head of RTS0 is sent to the DTLB. -/
def sendStore (i : ℕ) (s : O3Cpu) : O3Cpu :=
  let s := s.modifySq i fun l => { l with translated := .inflight }
  { s with rts0 := s.rts0.pop cfg.sqSize }

/-- The load at the head of RTL0 is sent to the DTLB. -/
def sendLoad (i : ℕ) (s : O3Cpu) : O3Cpu :=
  let s := s.modifyLq i fun l => { l with translated := .inflight }
  { s with rtl0 := s.rtl0.pop cfg.lqSize }

/-- The load at the head of RTL1 is sent to the L1D (`execute_load`). -/
def executeLoad (i : ℕ) (s : O3Cpu) : O3Cpu :=
  let s := s.modifyLq i fun l => { l with fetched := .inflight }
  { s with rtl1 := s.rtl1.pop cfg.lqSize }

/-- The first loop of `operate_lsq`: stores to the DTLB, which stops it after a number of requests;
with the number of issued stores and the slots of the accepted requests. -/
def issueStores : ℕ → ℕ → ℕ → O3Cpu → O3Cpu × ℕ × List ℕ
  | 0, issued, _, s => (s, issued, [])
  | k + 1, issued, accepts, s =>
    if cfg.sqWidth ≤ issued then (s, issued, [])
    else
      match s.rts0.slots s.rts0.head with
      | none => (s, issued, [])
      | some i =>
        if (s.sq.entry i).eventCycle ≤ s.currentCoreCycle then
          match accepts with
          | 0 => (s, issued, [])
          | a + 1 =>
            let r := issueStores k (issued + 1) a (s.sendStore cfg i)
            (r.1, r.2.1, i :: r.2.2)
        else issueStores k issued accepts s

/-- The second loop of `operate_lsq`: executed stores. -/
def executeStores : ℕ → ℕ → O3Cpu → Except CoreFault O3Cpu
  | 0, _, s => .ok s
  | k + 1, issued, s =>
    if cfg.sqWidth ≤ issued then .ok s
    else
      match s.rts1.slots s.rts1.head with
      | none => .ok s
      | some i =>
        if (s.sq.entry i).eventCycle ≤ s.currentCoreCycle then do
          let s ← s.executeStore cfg (s.sq.entry i).robIndex i
          executeStores k (issued + 1) { s with rts1 := s.rts1.pop cfg.sqSize }
        else executeStores k issued s

/-- The third loop of `operate_lsq`: loads to the DTLB. -/
def issueLoads : ℕ → ℕ → ℕ → O3Cpu → O3Cpu × ℕ × List ℕ
  | 0, issued, _, s => (s, issued, [])
  | k + 1, issued, accepts, s =>
    if cfg.lqWidth ≤ issued then (s, issued, [])
    else
      match s.rtl0.slots s.rtl0.head with
      | none => (s, issued, [])
      | some i =>
        if (s.lq.entry i).eventCycle ≤ s.currentCoreCycle then
          match accepts with
          | 0 => (s, issued, [])
          | a + 1 =>
            let r := issueLoads k (issued + 1) a (s.sendLoad cfg i)
            (r.1, r.2.1, i :: r.2.2)
        else issueLoads k issued accepts s

/-- The fourth loop of `operate_lsq`: `execute_load` sends loads to the L1D, and a refused load is
tried again. -/
def executeLoads : ℕ → ℕ → ℕ → O3Cpu → O3Cpu × List ℕ
  | 0, _, _, s => (s, [])
  | k + 1, issued, accepts, s =>
    if cfg.lqWidth ≤ issued then (s, [])
    else
      match s.rtl1.slots s.rtl1.head with
      | none => (s, [])
      | some i =>
        if (s.lq.entry i).eventCycle ≤ s.currentCoreCycle then
          match accepts with
          | 0 => executeLoads k issued 0 s
          | a + 1 =>
            let r := executeLoads k (issued + 1) a (s.executeLoad cfg i)
            (r.1, i :: r.2)
        else executeLoads k issued accepts s

/-- The requests that `operate_lsq` has the DTLB and the L1D accept. -/
structure LsqRequests where
  dtlbStores : List ℕ
  dtlbLoads : List ℕ
  l1dLoads : List ℕ

/-- How often a loop of `operate_lsq` comes by at most: until its 32-bit counter of turns is one less
than the size of the queue. -/
def lsqTurns (size : ℕ) : ℕ := if size = 1 then 2 ^ 32 else size - 1

/-- `operate_lsq`. -/
def operateLsq (dtlbStores dtlbLoads l1dLoads : ℕ) (s : O3Cpu) :
    Except CoreFault (O3Cpu × LsqRequests) := do
  let r₀ := s.issueStores cfg (lsqTurns cfg.sqSize) 0 dtlbStores
  let s₁ ← r₀.1.executeStores cfg (lsqTurns cfg.sqSize) r₀.2.1
  let r₂ := s₁.issueLoads cfg (lsqTurns cfg.lqSize) 0 dtlbLoads
  let r₃ := r₂.1.executeLoads cfg (lsqTurns cfg.lqSize) r₂.2.1 l1dLoads
  .ok (r₃.1, ⟨r₀.2.2, r₂.2.2, r₃.2⟩)

/-! ## Answers of the data caches -/

/-- A store is translated. -/
def translateStore (dataPa : UInt64) (i : ℕ) (s : O3Cpu) : O3Cpu :=
  let s := s.modifySq i fun l =>
    { l with
      physicalAddress := withOffset log2PageSize (dataPa <<< log2PageSize) l.virtualAddress
      translated := .completed
      eventCycle := s.currentCoreCycle }
  { s with rts1 := s.rts1.push cfg.sqSize i }

/-- A load is translated. -/
def translateLoad (dataPa : UInt64) (i : ℕ) (s : O3Cpu) : O3Cpu :=
  let s := s.modifyLq i fun l =>
    { l with
      physicalAddress := withOffset log2PageSize (dataPa <<< log2PageSize) l.virtualAddress
      translated := .completed
      eventCycle := s.currentCoreCycle }
  { s with rtl1 := s.rtl1.push cfg.lqSize i }

/-- The merged stores of `handle_merged_translation`. -/
def translateMergedStores (p : DataPacket) (s : O3Cpu) : O3Cpu :=
  if p.storeMerged then
    (expand cfg.sqSize p.sqIndexDependOnMe).foldl (fun s i => s.translateStore cfg p.dataPa i) s
  else s

/-- The merged loads of `handle_merged_translation`. -/
def translateMergedLoads (p : DataPacket) (s : O3Cpu) : O3Cpu :=
  if p.loadMerged then
    (expand cfg.lqSize p.lqIndexDependOnMe).foldl (fun s i => s.translateLoad cfg p.dataPa i) s
  else s

/-- `handle_merged_translation`. -/
def handleMergedTranslation (p : DataPacket) (s : O3Cpu) : O3Cpu :=
  (s.translateMergedStores cfg p).translateMergedLoads cfg p

/-- A load is done. -/
def finishLoad (i robIndex : ℕ) (cycle : Cycle) (s : O3Cpu) : Except CoreFault O3Cpu := do
  let s := s.modifyLq i fun l =>
    { l with fetched := .completed, eventCycle := s.currentCoreCycle }
  let s ← s.finishMemOp robIndex cycle
  .ok (s.releaseLoadQueue i)

/-- `handle_merged_load`. -/
def handleMergedLoad (p : DataPacket) (s : O3Cpu) : Except CoreFault O3Cpu :=
  (expand cfg.lqSize p.lqIndexDependOnMe).foldlM (fun s i =>
    s.finishLoad i (s.lq.entry i).robIndex s.currentCoreCycle) s

/-- `complete_data_fetch`, with its first check. -/
def completeDataFetch (isItTlb : Bool) (p : DataPacket) (s : O3Cpu) : Except CoreFault O3Cpu :=
  if p.type ≠ .rfo ∧ s.checkRob cfg p.instrId ≠ some p.robIndex then .error .checkRob
  else if isItTlb then
    let s :=
      if p.type = .rfo then s.translateStore cfg p.dataPa p.sqIndex
      else s.translateLoad cfg p.dataPa p.lqIndex
    let s := s.handleMergedTranslation cfg p
    .ok (s.modifyRob p.robIndex fun e => { e with eventCycle := p.eventCycle })
  else if p.type = .rfo then s.handleMergedLoad cfg p
  else if p.storeMerged then .error .storeMerged
  else do
    let s ← s.finishLoad p.lqIndex p.robIndex p.eventCycle
    s.handleMergedLoad cfg p

end O3Cpu

end Arishem
