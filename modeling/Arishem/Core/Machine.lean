import Arishem.Core.LoadStore
import Arishem.Lib.Lts
import Mathlib.Data.List.Perm.Subperm

/-!
# The core and its caches

A core together with the requests that its caches have accepted and not answered. The stages of a
cycle are the labels, so that the order in which the main loop calls them is one of many. The caches
answer after any delay, with any of the open requests merged into one answer; whether there is room
in the write queue of the L1D, and how many requests a cache accepts before it refuses one, is part
of the label. A stage whose check fails is no step.
-/

namespace Arishem

/-- The stages of a core and the answers of its caches. -/
inductive CoreLabel
  | tick
  | handleBranch (r : InputInstr) (mispredicted : Bool)
  | fetchInstruction (itlb l1i : ℕ)
  | scheduleInstruction
  | executeInstruction
  | scheduleMemoryInstruction
  | operateLsq (dtlbStores dtlbLoads l1dLoads : ℕ)
  | completeInstrFetch (isItTlb : Bool) (request : FetchRequest) (merged : List FetchRequest)
  | completeDataFetch (isItTlb : Bool) (p : DataPacket)
  | completeExecutions
  | retireRob (room : ℕ → Bool)

/-- What a stage does that can be seen. -/
inductive CoreEvent
  /-- The ITLB accepts an instruction. -/
  | toItlb (r : FetchRequest)
  /-- The L1I accepts an instruction. -/
  | toL1i (r : FetchRequest)
  /-- An instruction is put into RTE0 or RTE1. -/
  | ready (a : ReadyToExecute) (instrId : ℕ)
  /-- A store is written to the write queue of the L1D. -/
  | written (l : LsqEntry)
  /-- A slot of the store queue is freed. -/
  | freed (sqIndex : ℕ)
  /-- An instruction is retired. -/
  | retired (instrId : ℕ)

namespace O3Cpu

variable (cfg : CoreConfig)

/-- The destinations that write to memory. -/
def storeDestinations (e : RobEntry) : List (Fin numInstrDestinationsSparc) :=
  (List.finRange numInstrDestinationsSparc).filter (e.destinationMemory · ≠ 0)

/-- The stores that `retire_rob` writes to the L1D. -/
def storeWrites (s : O3Cpu) : List LsqEntry :=
  (storeDestinations (s.rob.entry s.rob.head)).filterMap fun d =>
    ((s.rob.entry s.rob.head).sqIndex d).map s.sq.entry

/-- The slots of the store queue that `retire_rob` frees. -/
def freedStores (s : O3Cpu) : List ℕ :=
  (List.finRange numInstrDestinationsSparc).filterMap (s.rob.entry s.rob.head).sqIndex

/-- Free a slot of the store queue; the head goes on by one. -/
def freeStore (sqIndex : ℕ) (s : O3Cpu) : O3Cpu :=
  let s := s.modifySq sqIndex fun _ => .empty
  { s with
    sq := { s.sq with occupancy := s.sq.occupancy - 1, head := Ring.next cfg.sqSize s.sq.head } }

/-- The guards of `retire_rob`. -/
def retires (room : Bool) (s : O3Cpu) : Prop :=
  (s.rob.entry s.rob.head).ip ≠ 0 ∧ (s.rob.entry s.rob.head).executed = .completed ∧
    (storeDestinations (s.rob.entry s.rob.head) ≠ [] → room = true)

instance decidableRetires (room : Bool) (s : O3Cpu) : Decidable (s.retires room) :=
  inferInstanceAs (Decidable (_ ∧ _))

/-- Retire the instruction at the head. -/
def retireHead (s : O3Cpu) : O3Cpu :=
  let s := s.freedStores.foldl (fun s i => s.freeStore cfg i) s
  let s := s.modifyRob s.rob.head fun _ => .empty
  { s with
    rob :=
      { s.rob with
        head := Ring.next cfg.robSize s.rob.head
        occupancy := s.rob.occupancy - 1 } }

/-- What is seen when the instruction at the head retires. -/
def retireEvents (s : O3Cpu) : List CoreEvent :=
  s.storeWrites.map .written ++ s.freedStores.map .freed ++
    [.retired (s.rob.entry s.rob.head).instrId]

/-- The loop of `retire_rob`: `room n` says whether the write queue of the L1D has room for the
stores of the `n`-th instruction. -/
def retireFrom (room : ℕ → Bool) : ℕ → O3Cpu → O3Cpu × List CoreEvent
  | 0, s => (s, [])
  | n + 1, s =>
    if s.retires (room (cfg.retireWidth - (n + 1))) then
      let r := retireFrom room n (s.retireHead cfg)
      (r.1, s.retireEvents ++ r.2)
    else (s, [])

/-- `retire_rob`. -/
def retireRob (room : ℕ → Bool) (s : O3Cpu) : O3Cpu × List CoreEvent :=
  s.retireFrom cfg room cfg.retireWidth

end O3Cpu

/-- A core and the requests its caches have accepted and not answered. -/
structure CoreSystem where
  core : Core
  itlb : List FetchRequest
  l1i : List FetchRequest
  dtlbStores : List ℕ
  dtlbLoads : List ℕ
  l1dLoads : List ℕ

/-- The stores that an answer of the DTLB is for. -/
def DataPacket.stores (sqSize : ℕ) (p : DataPacket) : List ℕ :=
  (if p.type = .rfo then [p.sqIndex] else []) ++
    if p.storeMerged then expand sqSize p.sqIndexDependOnMe else []

/-- The loads that an answer of the DTLB is for. -/
def DataPacket.translations (lqSize : ℕ) (p : DataPacket) : List ℕ :=
  (if p.type = .rfo then [] else [p.lqIndex]) ++
    if p.loadMerged then expand lqSize p.lqIndexDependOnMe else []

/-- The loads that an answer of the L1D is for. -/
def DataPacket.loads (lqSize : ℕ) (p : DataPacket) : List ℕ :=
  (if p.type = .rfo then [] else [p.lqIndex]) ++ expand lqSize p.lqIndexDependOnMe

namespace CoreSystem

variable (cfg : PipelineConfig)

/-- Before the first instruction. -/
def init : CoreSystem where
  core := ⟨.init, ⟨cfg.robSize - 1, cfg.robSize - 1, false, 0⟩⟩
  itlb := []
  l1i := []
  dtlbStores := []
  dtlbLoads := []
  l1dLoads := []

/-- What the main loop and the caches promise: instructions are read while there is room and the
fetch unit is not stalled, and only open requests are answered. -/
def enabled (s : CoreSystem) : CoreLabel → Prop
  | .handleBranch _ _ => s.core.cpu.rob.occupancy < cfg.robSize ∧ s.core.fetch.fetchStall = false
  | .completeInstrFetch isItTlb request merged =>
    (request :: merged).Subperm (if isItTlb then s.itlb else s.l1i)
  | _ => True

instance decidableEnabled (s : CoreSystem) : (l : CoreLabel) → Decidable (s.enabled cfg l)
  | .handleBranch _ _ => inferInstanceAs (Decidable (_ ∧ _))
  | .completeInstrFetch _ _ _ => inferInstanceAs (Decidable (List.Subperm _ _))
  | .tick | .fetchInstruction _ _ | .scheduleInstruction | .executeInstruction
  | .scheduleMemoryInstruction | .operateLsq _ _ _ | .completeDataFetch _ _
  | .completeExecutions | .retireRob _ => isTrue trivial

/-- Replace the state of the processor. -/
def withCpu (cpu : O3Cpu) (s : CoreSystem) : CoreSystem :=
  { s with core := { s.core with cpu := cpu } }

/-- The instruction ids at some slots. -/
def idsAt (cpu : O3Cpu) (is : List ℕ) : List ℕ := is.map fun i => (cpu.rob.entry i).instrId

/-- A stage or an answer, with what is seen of it. -/
def run (s : CoreSystem) : CoreLabel → Except CoreFault (CoreSystem × List CoreEvent)
  | .tick =>
    .ok (s.withCpu
      { s.core.cpu with currentCoreCycle := s.core.cpu.currentCoreCycle + 1 }, [])
  | .handleBranch r mispredicted => do
    let core ← s.core.handleBranch cfg r mispredicted
    .ok ({ s with core := core }, [])
  | .fetchInstruction itlb l1i => do
    let r ← s.core.fetchInstruction cfg itlb l1i
    .ok ({ s with core := r.1, itlb := s.itlb ++ r.2.1, l1i := s.l1i ++ r.2.2 },
      r.2.1.map .toItlb ++ r.2.2.map .toL1i)
  | .scheduleInstruction => do
    let r ← s.core.cpu.checkedScheduleInstruction cfg.toCoreConfig
    .ok (s.withCpu r.1, (idsAt r.1 r.2).map (.ready .rte1))
  | .executeInstruction => .ok (s.withCpu (s.core.cpu.executeInstruction cfg.toCoreConfig), [])
  | .scheduleMemoryInstruction => do
    let cpu ← s.core.cpu.scheduleMemoryInstruction cfg.toCoreConfig
    .ok (s.withCpu cpu, [])
  | .operateLsq dtlbStores dtlbLoads l1dLoads => do
    let r ← s.core.cpu.operateLsq cfg.toCoreConfig dtlbStores dtlbLoads l1dLoads
    .ok
      ({ s.withCpu r.1 with
          dtlbStores := s.dtlbStores ++ r.2.dtlbStores
          dtlbLoads := s.dtlbLoads ++ r.2.dtlbLoads
          l1dLoads := s.l1dLoads ++ r.2.l1dLoads }, [])
  | .completeInstrFetch isItTlb request merged => do
    let cpu ← s.core.cpu.completeInstrFetch cfg.toCoreConfig cfg.fetchWidth isItTlb request
      (merged.map (·.robIndex)).toFinset
    if isItTlb then .ok ({ s.withCpu cpu with itlb := s.itlb.diff (request :: merged) }, [])
    else .ok ({ s.withCpu cpu with l1i := s.l1i.diff (request :: merged) }, [])
  | .completeDataFetch isItTlb p => do
    let cpu ← s.core.cpu.completeDataFetch cfg.toCoreConfig isItTlb p
    if isItTlb then
      .ok
        ({ s.withCpu cpu with
            dtlbStores := s.dtlbStores.diff (p.stores cfg.sqSize)
            dtlbLoads := s.dtlbLoads.diff (p.translations cfg.lqSize) }, [])
    else .ok ({ s.withCpu cpu with l1dLoads := s.l1dLoads.diff (p.loads cfg.lqSize) }, [])
  | .completeExecutions => do
    let r ← s.core.completeExecutions cfg
    .ok ({ s with core := r.1 }, (idsAt r.1.cpu r.2).map (.ready .rte0))
  | .retireRob room =>
    let r := s.core.cpu.retireRob cfg.toCoreConfig room
    .ok (s.withCpu r.1, r.2)

/-- A step of the core or an answer of its caches. -/
def step (s : CoreSystem) (l : CoreLabel) : Option (CoreSystem × List CoreEvent) :=
  if s.enabled cfg l then (s.run cfg l).toOption else none

/-- The core and its caches as a labelled system. -/
def lts : Lts CoreSystem CoreLabel CoreEvent where
  init := fun s => s = init cfg
  step := step cfg

end CoreSystem

end Arishem
