import Arishem.Core.Fetching

/-!
# Executing instructions

The instructions whose registers are ready wait in two arrays: `do_scheduling` puts an instruction
that depends on none into RTE1, and `reg_RAW_release` puts one into RTE0 when its last producer
completes. `execute_instruction` takes them out. Both puts check that the slot is free.
-/

namespace Arishem

/-- The arrays of instructions that are ready to execute. -/
inductive ReadyToExecute
  | rte0
  | rte1
  deriving DecidableEq, Repr

namespace O3Cpu

variable (cfg : CoreConfig)

/-- The instruction goes to RTE1 at the end of `do_scheduling`. -/
def goesToRte1 (i : ℕ) (s : O3Cpu) : Prop :=
  ((s.doScheduling cfg i).rob.entry i).isMemory = false ∧
    ((s.doScheduling cfg i).rob.entry i).regReady = true

instance decidableGoesToRte1 (i : ℕ) (s : O3Cpu) : Decidable (s.goesToRte1 cfg i) :=
  inferInstanceAs (Decidable (_ ∧ _))

/-- `do_scheduling`, with its check of the slot in RTE1. -/
def checkedScheduling (i : ℕ) (s : O3Cpu) : Except CoreFault O3Cpu :=
  if s.goesToRte1 cfg i ∧ (s.rte1.slots s.rte1.tail).isSome then .error .rte1
  else .ok (s.doScheduling cfg i)

/-- The loops of `schedule_instruction` with the check; with the calls of `do_scheduling` that put
an instruction into RTE1. -/
def checkedFrom : List ℕ → O3Cpu → Except CoreFault (O3Cpu × List ℕ)
  | [], s => .ok (s, [])
  | i :: is, s =>
    if s.stopsAt cfg i then .ok (s, [])
    else
      if (s.rob.entry i).scheduled = .none then do
        let s' ← s.checkedScheduling cfg i
        let r ← checkedFrom is { s' with numSearched := s'.numSearched + 1 }
        .ok (r.1, if s.goesToRte1 cfg i then i :: r.2 else r.2)
      else checkedFrom is { s with numSearched := s.numSearched + 1 }

/-- `schedule_instruction` with the check. -/
def checkedScheduleInstruction (s : O3Cpu) : Except CoreFault (O3Cpu × List ℕ) :=
  if s.rob.head = s.rob.tail ∧ s.rob.occupancy = 0 then .ok (s, [])
  else
    { s with numSearched := 0 }.checkedFrom cfg (Ring.scan cfg.robSize s.rob.head s.rob.nextFetch)

/-- One of the two arrays. -/
def readyArray (s : O3Cpu) : ReadyToExecute → ReadyArray
  | .rte0 => s.rte0
  | .rte1 => s.rte1

/-- Replace one of the two arrays. -/
def setReadyArray (a : ReadyArray) (s : O3Cpu) : ReadyToExecute → O3Cpu
  | .rte0 => { s with rte0 := a }
  | .rte1 => { s with rte1 := a }

/-- `do_execution`. -/
def doExecution (i : ℕ) (s : O3Cpu) : O3Cpu :=
  let s := s.modifyRob i fun e =>
    { e with
      executed := .inflight
      eventCycle :=
        if e.eventCycle < s.currentCoreCycle then s.currentCoreCycle + cfg.execLatency
        else e.eventCycle + cfg.execLatency }
  { s with inflightRegExecutions := s.inflightRegExecutions + 1 }

/-- A loop of `execute_instruction` over one of the arrays; with the number of instructions that
have been issued. -/
def executeReady (r : ReadyToExecute) : ℕ → ℕ → O3Cpu → O3Cpu × ℕ
  | 0, issued, s => (s, issued)
  | k + 1, issued, s =>
    if cfg.execWidth ≤ issued then (s, issued)
    else
      match (s.readyArray r).slots (s.readyArray r).head with
      | none => (s, issued)
      | some i =>
        if (s.rob.entry i).eventCycle ≤ s.currentCoreCycle then
          executeReady r k (issued + 1)
            ((s.doExecution cfg i).setReadyArray ((s.readyArray r).pop cfg.robSize) r)
        else executeReady r k issued s

/-- `execute_instruction`. -/
def executeInstruction (s : O3Cpu) : O3Cpu :=
  if s.rob.head = s.rob.tail ∧ s.rob.occupancy = 0 then s
  else
    let r := s.executeReady cfg .rte0 (cfg.robSize - 1) 0
    (r.1.executeReady cfg .rte1 (cfg.robSize - 1) r.2).1

/-- The body of `reg_RAW_release` for a source of a dependent instruction; with the instruction when
it goes to RTE0. -/
def releaseSource (i : ℕ) (s : O3Cpu) : Except CoreFault (O3Cpu × List ℕ) :=
  let s := s.modifyRob i fun e => { e with numRegDependent := e.numRegDependent - 1 }
  if (s.rob.entry i).numRegDependent = 0 then
    if (s.rob.entry i).isMemory then
      .ok (s.modifyRob i fun e => { e with regReady := true, scheduled := .inflight }, [])
    else if (s.rte0.slots s.rte0.tail).isSome then .error .rte0
    else
      let s := s.modifyRob i fun e => { e with regReady := true, scheduled := .completed }
      .ok ({ s with rte0 := s.rte0.push cfg.robSize i }, [i])
  else .ok (s, [])

/-- The dependent instructions and their sources, as `reg_RAW_release` visits them. -/
def dependents (p : ℕ) (s : O3Cpu) : List (ℕ × Fin numInstrSources) :=
  (expand cfg.robSize (s.rob.entry p).registersInstrsDependOnMe).flatMap fun i =>
    ((List.finRange numInstrSources).filter fun j =>
      i ∈ (s.rob.entry p).registersIndexDependOnMe j).map fun j => (i, j)

/-- `reg_RAW_release`; with the instructions that go to RTE0. -/
def regRawRelease (p : ℕ) (s : O3Cpu) : Except CoreFault (O3Cpu × List ℕ) :=
  (s.dependents cfg p).foldlM (fun r x => do
    let r' ← r.1.releaseSource cfg x.1
    .ok (r'.1, r.2 ++ r'.2)) (s, [])

/-- The guards of `complete_execution`. -/
def completes (i : ℕ) (s : O3Cpu) : Prop :=
  ((s.rob.entry i).isMemory = true → (s.rob.entry i).numMemOps = 0) ∧
    (s.rob.entry i).executed = .inflight ∧ (s.rob.entry i).eventCycle ≤ s.currentCoreCycle

instance decidableCompletes (i : ℕ) (s : O3Cpu) : Decidable (s.completes i) :=
  inferInstanceAs (Decidable (_ ∧ _))

/-- Mark an instruction as completed and uncount its execution. -/
def markCompleted (i : ℕ) (s : O3Cpu) : O3Cpu :=
  let s := s.modifyRob i fun e => { e with executed := .completed }
  if (s.rob.entry i).isMemory then
    { s with inflightMemExecutions := s.inflightMemExecutions - 1 }
  else { s with inflightRegExecutions := s.inflightRegExecutions - 1 }

/-- `complete_execution`; with the instructions that go to RTE0. -/
def completeExecution (i : ℕ) (s : O3Cpu) : Except CoreFault (O3Cpu × List ℕ) :=
  if s.completes i then
    let s := s.markCompleted i
    if (s.rob.entry i).regRawProducer then s.regRawRelease cfg i else .ok (s, [])
  else .ok (s, [])

end O3Cpu

namespace Core

variable (cfg : PipelineConfig)

/-- `complete_execution`, which has the fetch unit resumed after a mispredicted branch. -/
def completeExecution (i : ℕ) (c : Core) : Except CoreFault (Core × List ℕ) := do
  let r ← c.cpu.completeExecution cfg.toCoreConfig i
  if c.cpu.completes i ∧ (c.cpu.rob.entry i).branchMispredicted then
    .ok
      ({ cpu := r.1
         fetch :=
          { c.fetch with
            fetchResumeCycle := c.cpu.currentCoreCycle + cfg.branchMispredictPenalty } }, r.2)
  else .ok ({ c with cpu := r.1 }, r.2)

/-- The part of `update_rob` that completes executions; with the instructions that go to RTE0. -/
def completeExecutions (c : Core) : Except CoreFault (Core × List ℕ) :=
  if 0 < c.cpu.inflightRegExecutions ∨ 0 < c.cpu.inflightMemExecutions then
    (c.cpu.robSlots cfg.toCoreConfig).foldlM (fun r i => do
      let r' ← r.1.completeExecution cfg i
      .ok (r'.1, r.2 ++ r'.2)) (c, [])
  else .ok (c, [])

end Core

end Arishem
