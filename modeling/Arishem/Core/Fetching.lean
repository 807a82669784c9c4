import Arishem.Core.Scheduling

/-!
# Reading and fetching instructions

`handle_branch` reads an instruction of the trace into the reorder buffer, `fetch_instruction` sends
the instructions to the ITLB and the L1I, and `complete_instr_fetch` takes their answers. The fetch
unit of a core is the state that the other stages do not use; what the branch predictor says is an
input, and so is the number of requests that a cache accepts before it refuses one. An `assert` that
fails is a fault, which ends the run. The requests and answers keep the fields by which they are
matched; the physical address of an instruction is left out.
-/

namespace Arishem

/-- The sizes and latencies of a core and its fetch unit. The STA has room for all destinations of
all instructions in the reorder buffer. -/
structure PipelineConfig extends CoreConfig where
  fetchWidth : ℕ
  branchMispredictPenalty : Cycle
  robSize_gt : 1 < robSize
  lqSize_pos : 0 < lqSize
  sqSize_pos : 0 < sqSize
  staSize_eq : staSize = robSize * numInstrDestinationsSparc

/-- The checks that end the simulation when they fail. -/
inductive CoreFault
  /-- `add_to_rob`: the slot at the tail is not empty. -/
  | robNotEmpty
  /-- `add_to_rob`: the instruction has no address. -/
  | ipZero
  /-- `handle_branch`: the slot at the tail of the STA is taken. -/
  | sta
  /-- `check_rob`: an answer is not for the instruction in its slot. -/
  | checkRob
  /-- `fetch_instruction`, first loop. -/
  | itlbOrder
  /-- `fetch_instruction`, second loop. -/
  | l1iOrder
  /-- `reg_RAW_release`: the slot at the tail of RTE0 is taken. -/
  | rte0
  /-- `do_scheduling`: the slot at the tail of RTE1 is taken. -/
  | rte1
  /-- `add_load_queue`: no slot is free. -/
  | lqFull
  /-- `add_store_queue`: the slot at the tail is taken. -/
  | sqTail
  /-- `num_mem_ops` is negative. -/
  | numMemOps
  /-- `execute_store`: the load does not wait for the store. -/
  | producer
  /-- `complete_data_fetch`: a load of the L1D has merged stores. -/
  | storeMerged
  deriving DecidableEq, Repr

/-- A record of the trace (`input_instr`). -/
structure InputInstr where
  ip : Addr
  destinationRegisters : Fin numInstrDestinationsSparc → UInt8
  destinationMemory : Fin numInstrDestinationsSparc → Addr
  sourceRegisters : Fin numInstrSources → UInt8
  sourceMemory : Fin numInstrSources → Addr

/-- The state of the fetch unit. -/
structure FetchUnit where
  lastRead : ℕ
  lastFetch : ℕ
  fetchStall : Bool
  fetchResumeCycle : Cycle

/-- A core with its fetch unit. -/
structure Core where
  cpu : O3Cpu
  fetch : FetchUnit

/-- A request to the ITLB or the L1I. -/
structure FetchRequest where
  robIndex : ℕ
  instrId : ℕ
  deriving DecidableEq, Repr

/-- The values below `n` in the set, in increasing order (`ITERATE_SET`). -/
def expand (n : ℕ) (a : Finset ℕ) : List ℕ := (List.range n).filter (· ∈ a)

/-- The number of memory operands of a record. -/
def InputInstr.numMemOps (r : InputInstr) : ℕ :=
  (List.finRange numInstrDestinationsSparc).countP (r.destinationMemory · ≠ 0) +
    (List.finRange numInstrSources).countP (r.sourceMemory · ≠ 0)

/-- The instruction that `handle_branch` builds from a record. -/
def InputInstr.archInstr (r : InputInstr) (instrId : ℕ) : RobEntry :=
  { RobEntry.empty with
    instrId := instrId
    ip := r.ip
    isMemory := 0 < r.numMemOps
    sourceRegisters := r.sourceRegisters
    destinationRegisters := r.destinationRegisters
    sourceMemory := r.sourceMemory
    destinationMemory := r.destinationMemory
    numMemOps := r.numMemOps }

namespace O3Cpu

variable (cfg : CoreConfig)

/-- Remember a store of the instruction in the STA. -/
def pushSta (instrId : ℕ) (s : O3Cpu) : Except CoreFault O3Cpu :=
  if (s.sta.slots s.sta.tail).isSome ∧ s.sta.head ≠ s.sta.tail then .error .sta
  else .ok { s with sta := s.sta.push cfg.staSize instrId }

/-- `add_to_rob`. -/
def addToRob (e : RobEntry) (s : O3Cpu) : Except CoreFault O3Cpu :=
  if (s.rob.entry s.rob.tail).instrId ≠ 0 then .error .robNotEmpty
  else if e.ip = 0 then .error .ipZero
  else .ok
    { s with
      rob :=
        { s.rob with
          entry := Function.update s.rob.entry s.rob.tail
            { e with eventCycle := s.currentCoreCycle }
          occupancy := s.rob.occupancy + 1
          tail := Ring.next cfg.robSize s.rob.tail } }

/-- `handle_branch`, for one record. -/
def handleBranch (r : InputInstr) (s : O3Cpu) : Except CoreFault O3Cpu := do
  let s ← (List.finRange numInstrDestinationsSparc).foldlM (fun s d =>
    if r.destinationMemory d ≠ 0 then s.pushSta cfg s.instrUniqueId else .ok s) s
  let s ← s.addToRob cfg (r.archInstr s.instrUniqueId)
  .ok { s with instrUniqueId := s.instrUniqueId + 1 }

/-- The slots from the head to the tail, as the loops over the whole buffer visit them. -/
def robSlots (s : O3Cpu) : List ℕ := Ring.scan cfg.robSize s.rob.head s.rob.tail

/-- `check_rob`: the slot of an instruction, if there is one. -/
def checkRob (instrId : ℕ) (s : O3Cpu) : Option ℕ :=
  if s.rob.head = s.rob.tail ∧ s.rob.occupancy = 0 then none
  else (s.robSlots cfg).find? fun i => (s.rob.entry i).instrId = instrId

/-- Mark an instruction as translated or fetched. -/
def completeFetch (isItTlb : Bool) (cycle : Cycle) (i : ℕ) (s : O3Cpu) : O3Cpu :=
  s.modifyRob i fun e =>
    if isItTlb then { e with translated := .completed, eventCycle := cycle }
    else { e with fetched := .completed, eventCycle := cycle }

/-- `complete_instr_fetch`: the answer to a request and to those that were merged with it. -/
def completeInstrFetch (fetchWidth : ℕ) (isItTlb : Bool) (request : FetchRequest)
    (merged : Finset ℕ) (s : O3Cpu) : Except CoreFault O3Cpu :=
  if s.checkRob cfg request.instrId ≠ some request.robIndex then .error .checkRob
  else
    let s := s.completeFetch isItTlb s.currentCoreCycle request.robIndex
    .ok ((expand cfg.robSize merged).zipIdx.foldl (fun s i =>
      s.completeFetch isItTlb
        (s.currentCoreCycle + UInt64.ofNat ((i.2 + 1) / fetchWidth)) i.1) s)

end O3Cpu

namespace Core

variable (cfg : PipelineConfig)

/-- `handle_branch`, for one record and the outcome of its prediction. -/
def handleBranch (r : InputInstr) (mispredicted : Bool) (c : Core) : Except CoreFault Core := do
  let cpu ← c.cpu.handleBranch cfg.toCoreConfig r
  if mispredicted then
    .ok
      { cpu := cpu.modifyRob c.cpu.rob.tail fun e => { e with branchMispredicted := true }
        fetch := { c.fetch with fetchStall := true } }
  else .ok { c with cpu := cpu }

/-- Turn fetching back on after the penalty of a mispredicted branch. -/
def resumeFetch (c : Core) : Core :=
  if c.fetch.fetchStall ∧ c.fetch.fetchResumeCycle ≤ c.cpu.currentCoreCycle ∧
      c.fetch.fetchResumeCycle ≠ 0 then
    { c with fetch := { c.fetch with fetchStall := false, fetchResumeCycle := 0 } }
  else c

/-- The first loop of `fetch_instruction`, which the ITLB stops after a number of requests; with the
requests it accepts. -/
def sendItlb : ℕ → ℕ → Core → Except CoreFault (Core × List FetchRequest)
  | 0, _, c => .ok (c, [])
  | k + 1, accepts, c =>
    let i := Ring.next cfg.robSize c.fetch.lastRead
    if (c.cpu.rob.entry i).ip = 0 then .ok (c, [])
    else if (c.cpu.rob.entry i).translated ≠ .none then
      if i = c.cpu.rob.head then .ok (c, []) else .error .itlbOrder
    else
      match accepts with
      | 0 => .ok (c, [])
      | a + 1 => do
        let r ← sendItlb k a { c with fetch := { c.fetch with lastRead := i } }
        .ok (r.1, ⟨i, (c.cpu.rob.entry i).instrId⟩ :: r.2)

/-- The second loop of `fetch_instruction`, which the L1I stops after a number of requests. -/
def sendL1i : ℕ → ℕ → Core → Except CoreFault (Core × List FetchRequest)
  | 0, _, c => .ok (c, [])
  | k + 1, accepts, c =>
    let i := Ring.next cfg.robSize c.fetch.lastFetch
    if (c.cpu.rob.entry i).translated ≠ .completed ∨
        c.cpu.currentCoreCycle < (c.cpu.rob.entry i).eventCycle then .ok (c, [])
    else if (c.cpu.rob.entry i).fetched ≠ .none then
      if i = c.cpu.rob.head then .ok (c, []) else .error .l1iOrder
    else
      match accepts with
      | 0 => .ok (c, [])
      | a + 1 => do
        let r ← sendL1i k a
          { cpu := c.cpu.modifyRob i fun e => { e with fetched := .inflight }
            fetch := { c.fetch with lastFetch := i } }
        .ok (r.1, ⟨i, (c.cpu.rob.entry i).instrId⟩ :: r.2)

/-- `fetch_instruction`, with the requests that the ITLB and the L1I accept. -/
def fetchInstruction (itlb l1i : ℕ) (c : Core) :
    Except CoreFault (Core × List FetchRequest × List FetchRequest) := do
  let r ← c.resumeFetch.sendItlb cfg cfg.fetchWidth itlb
  let r' ← r.1.sendL1i cfg cfg.fetchWidth l1i
  .ok (r'.1, r.2, r'.2)

end Core

end Arishem
