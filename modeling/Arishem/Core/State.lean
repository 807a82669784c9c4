import Arishem.Cache.Packet
import Arishem.Lib.Ring

/-!
# The state of a core

The reorder buffer, the load and the store queue and the arrays of instructions and loads that are
ready (`O3_CPU`). The arrays are functions from indices, of which the code uses those below the
array's size; the sizes are the macros of `defs.h` and `commons.h`, collected in a configuration.
Instruction ids are never reused, `UINT64_MAX` and `UINT32_MAX` as "no such id" and "no such index"
are `none`, and so is the size of an array where it marks a free slot of a ready array. The
statistics, the fields that are only printed, the state of the fetch unit and the branch predictor
are left out.
-/

namespace Arishem

/-- The sizes and latencies of a core. -/
structure CoreConfig where
  robSize : ℕ
  schedulerSize : ℕ
  staSize : ℕ
  lqSize : ℕ
  sqSize : ℕ
  lqWidth : ℕ
  sqWidth : ℕ
  execWidth : ℕ
  retireWidth : ℕ
  schedulingLatency : Cycle
  execLatency : Cycle

/-- `NUM_INSTR_SOURCES`. -/
abbrev numInstrSources : ℕ := 4

/-- `NUM_INSTR_DESTINATIONS_SPARC`. An instruction of the default format uses two of them
(`MAX_INSTR_DESTINATIONS`) and has zero in the others, so that loops over all do the same. -/
abbrev numInstrDestinationsSparc : ℕ := 4

/-- How far a stage of an instruction has come: 0, `INFLIGHT` or `COMPLETED`. -/
inductive Progress
  | none
  | inflight
  | completed
  deriving DecidableEq, Repr

/-- An instruction in the reorder buffer (`ooo_model_instr`). -/
structure RobEntry where
  instrId : ℕ
  ip : Addr
  isMemory : Bool
  eventCycle : Cycle
  translated : Progress
  fetched : Progress
  scheduled : Progress
  executed : Progress
  branchMispredicted : Bool
  sourceRegisters : Fin numInstrSources → UInt8
  destinationRegisters : Fin numInstrDestinationsSparc → UInt8
  regRawChecked : Fin numInstrSources → Bool
  regReady : Bool
  regRawProducer : Bool
  producerId : ℕ
  numRegDependent : ℤ
  registersInstrsDependOnMe : Finset ℕ
  registersIndexDependOnMe : Fin numInstrSources → Finset ℕ
  sourceMemory : Fin numInstrSources → Addr
  destinationMemory : Fin numInstrDestinationsSparc → Addr
  sourceAdded : Fin numInstrSources → Bool
  destinationAdded : Fin numInstrDestinationsSparc → Bool
  lqIndex : Fin numInstrSources → Option ℕ
  sqIndex : Fin numInstrDestinationsSparc → Option ℕ
  numMemOps : ℤ
  isProducer : Bool
  memoryInstrsDependOnMe : Finset ℕ

/-- The constructor of `ooo_model_instr`. -/
def RobEntry.empty : RobEntry where
  instrId := 0
  ip := 0
  isMemory := false
  eventCycle := 0
  translated := .none
  fetched := .none
  scheduled := .none
  executed := .none
  branchMispredicted := false
  sourceRegisters := fun _ => 0
  destinationRegisters := fun _ => 0
  regRawChecked := fun _ => false
  regReady := false
  regRawProducer := false
  producerId := 0
  numRegDependent := 0
  registersInstrsDependOnMe := ∅
  registersIndexDependOnMe := fun _ => ∅
  sourceMemory := fun _ => 0
  destinationMemory := fun _ => 0
  sourceAdded := fun _ => false
  destinationAdded := fun _ => false
  lqIndex := fun _ => none
  sqIndex := fun _ => none
  numMemOps := 0
  isProducer := false
  memoryInstrsDependOnMe := ∅

/-- The reorder buffer (`CORE_BUFFER`). -/
structure CoreBuffer where
  head : ℕ
  tail : ℕ
  occupancy : ℕ
  /-- `next_fetch[1]`. -/
  nextFetch : ℕ
  nextSchedule : ℕ
  entry : ℕ → RobEntry

/-- An entry of the load or the store queue. -/
structure LsqEntry where
  instrId : ℕ
  producerId : Option ℕ
  virtualAddress : Addr
  physicalAddress : Addr
  ip : Addr
  eventCycle : Cycle
  robIndex : ℕ
  dataIndex : ℕ
  translated : Progress
  fetched : Progress

/-- The constructor of `LSQ_ENTRY`. -/
def LsqEntry.empty : LsqEntry where
  instrId := 0
  producerId := none
  virtualAddress := 0
  physicalAddress := 0
  ip := 0
  eventCycle := 0
  robIndex := 0
  dataIndex := 0
  translated := .none
  fetched := .none

/-- The load or the store queue. -/
structure LoadStoreQueue where
  occupancy : ℕ
  head : ℕ
  tail : ℕ
  entry : ℕ → LsqEntry

/-- An array that is filled at its tail and emptied at its head: `STA`, `RTE0`, `RTL0` and so on. -/
structure ReadyArray where
  slots : ℕ → Option ℕ
  head : ℕ
  tail : ℕ

/-- The state of a core. -/
structure O3Cpu where
  rob : CoreBuffer
  lq : LoadStoreQueue
  sq : LoadStoreQueue
  sta : ReadyArray
  rte0 : ReadyArray
  rte1 : ReadyArray
  rtl0 : ReadyArray
  rtl1 : ReadyArray
  rts0 : ReadyArray
  rts1 : ReadyArray
  inflightRegExecutions : ℤ
  inflightMemExecutions : ℤ
  numSearched : ℕ
  instrUniqueId : ℕ
  currentCoreCycle : Cycle

namespace ReadyArray

/-- The array with all slots free. -/
def empty : ReadyArray := ⟨fun _ => none, 0, 0⟩

/-- Store at the tail of an array of `n` slots. -/
def push (n x : ℕ) (a : ReadyArray) : ReadyArray :=
  { a with slots := Function.update a.slots a.tail (some x), tail := Ring.next n a.tail }

/-- Free the slot at the head. -/
def pop (n : ℕ) (a : ReadyArray) : ReadyArray :=
  { a with slots := Function.update a.slots a.head none, head := Ring.next n a.head }

end ReadyArray

/-- The core before the first instruction. -/
def O3Cpu.init : O3Cpu where
  rob := ⟨0, 0, 0, 0, 0, fun _ => .empty⟩
  lq := ⟨0, 0, 0, fun _ => .empty⟩
  sq := ⟨0, 0, 0, fun _ => .empty⟩
  sta := .empty
  rte0 := .empty
  rte1 := .empty
  rtl0 := .empty
  rtl1 := .empty
  rts0 := .empty
  rts1 := .empty
  inflightRegExecutions := 0
  inflightMemExecutions := 0
  numSearched := 0
  instrUniqueId := 0
  currentCoreCycle := 0

namespace O3Cpu

/-- Write an instruction of the reorder buffer. -/
def modifyRob (i : ℕ) (f : RobEntry → RobEntry) (s : O3Cpu) : O3Cpu :=
  { s with rob := { s.rob with entry := Function.update s.rob.entry i (f (s.rob.entry i)) } }

/-- Write an entry of the load queue. -/
def modifyLq (i : ℕ) (f : LsqEntry → LsqEntry) (s : O3Cpu) : O3Cpu :=
  { s with lq := { s.lq with entry := Function.update s.lq.entry i (f (s.lq.entry i)) } }

/-- Write an entry of the store queue. -/
def modifySq (i : ℕ) (f : LsqEntry → LsqEntry) (s : O3Cpu) : O3Cpu :=
  { s with sq := { s.sq with entry := Function.update s.sq.entry i (f (s.sq.entry i)) } }

end O3Cpu

end Arishem
