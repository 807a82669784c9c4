import Arishem.Core.State

/-!
# Scheduling

`schedule_instruction`: from the head of the reorder buffer on, each instruction that is not yet
scheduled gets its register dependences and is scheduled.
-/

namespace Arishem

namespace O3Cpu

variable (cfg : CoreConfig)

/-- The source is used and its producer is not known yet. -/
def needsProducer (current : ℕ) (j : Fin numInstrSources) (s : O3Cpu) : Prop :=
  (s.rob.entry current).sourceRegisters j ≠ 0 ∧ (s.rob.entry current).regRawChecked j = false

instance (current : ℕ) (j : Fin numInstrSources) (s : O3Cpu) :
    Decidable (s.needsProducer current j) := by
  unfold needsProducer
  infer_instance

/-- The body of `reg_RAW_dependency` for the destination that produces the source. -/
def markRegRaw (prior current : ℕ) (j : Fin numInstrSources) (s : O3Cpu) : O3Cpu :=
  let s := s.modifyRob prior fun e =>
    { e with
      registersInstrsDependOnMe := insert current e.registersInstrsDependOnMe
      registersIndexDependOnMe := Function.update e.registersIndexDependOnMe j
        (insert current (e.registersIndexDependOnMe j))
      regRawProducer := true }
  s.modifyRob current fun e =>
    { e with
      regReady := false
      producerId := (s.rob.entry prior).instrId
      numRegDependent := e.numRegDependent + 1
      regRawChecked := Function.update e.regRawChecked j true }

/-- `reg_RAW_dependency`. -/
def regRawDependency (prior current : ℕ) (j : Fin numInstrSources) (s : O3Cpu) : O3Cpu :=
  if ∃ i, (s.rob.entry prior).destinationRegisters i ≠ 0 ∧
      (s.rob.entry prior).destinationRegisters i = (s.rob.entry current).sourceRegisters j then
    s.markRegRaw prior current j
  else s

/-- The instructions before another one, the youngest first: the order in which `reg_dependency` and
`add_load_queue` look for producers. -/
def priors (robIndex : ℕ) (s : O3Cpu) : List ℕ :=
  let prior := if robIndex = 0 then cfg.robSize - 1 else robIndex - 1
  if robIndex = s.rob.head then []
  else if s.rob.head ≤ prior then (List.range' s.rob.head (prior + 1 - s.rob.head)).reverse
  else (List.range (prior + 1)).reverse ++
    (List.range' s.rob.head (cfg.robSize - s.rob.head)).reverse

/-- `reg_dependency`. -/
def regDependency (robIndex : ℕ) (s : O3Cpu) : O3Cpu :=
  (s.priors cfg robIndex).foldl (fun s i =>
    if (s.rob.entry i).executed ≠ .completed then
      (List.finRange numInstrSources).foldl (fun s j =>
        if s.needsProducer robIndex j then s.regRawDependency i robIndex j else s) s
    else s) s

/-- `do_scheduling`. -/
def doScheduling (robIndex : ℕ) (s : O3Cpu) : O3Cpu :=
  let s := s.modifyRob robIndex fun e => { e with regReady := true }
  let s := s.regDependency cfg robIndex
  let s := { s with rob := { s.rob with
    nextSchedule := if robIndex = cfg.robSize - 1 then 0 else robIndex + 1 } }
  if (s.rob.entry robIndex).isMemory then
    s.modifyRob robIndex fun e => { e with scheduled := .inflight }
  else
    let s := s.modifyRob robIndex fun e =>
      { e with
        scheduled := .completed
        eventCycle :=
          if e.eventCycle < s.currentCoreCycle then s.currentCoreCycle + cfg.schedulingLatency
          else e.eventCycle + cfg.schedulingLatency }
    if (s.rob.entry robIndex).regReady then { s with rte1 := s.rte1.push cfg.robSize robIndex }
    else s

/-- The guard at which `schedule_instruction` returns. -/
def stopsAt (i : ℕ) (s : O3Cpu) : Prop :=
  (s.rob.entry i).fetched ≠ .completed ∨ s.currentCoreCycle < (s.rob.entry i).eventCycle ∨
    cfg.schedulerSize ≤ s.numSearched

instance (i : ℕ) (s : O3Cpu) : Decidable (s.stopsAt cfg i) := by
  unfold stopsAt
  infer_instance

/-- The loops of `schedule_instruction`, over the indices they visit; with the calls of
`do_scheduling` they make. -/
def scheduleFrom : List ℕ → O3Cpu → O3Cpu × List ℕ
  | [], s => (s, [])
  | i :: is, s =>
    if s.stopsAt cfg i then (s, [])
    else
      if (s.rob.entry i).scheduled = .none then
        let r := scheduleFrom is
          { s.doScheduling cfg i with numSearched := (s.doScheduling cfg i).numSearched + 1 }
        (r.1, i :: r.2)
      else scheduleFrom is { s with numSearched := s.numSearched + 1 }

/-- `schedule_instruction`, with the calls of `do_scheduling`. -/
def scheduleInstruction (s : O3Cpu) : O3Cpu × List ℕ :=
  if s.rob.head = s.rob.tail ∧ s.rob.occupancy = 0 then (s, [])
  else
    { s with numSearched := 0 }.scheduleFrom cfg
      (Ring.scan cfg.robSize s.rob.head s.rob.nextFetch)

end O3Cpu

end Arishem
