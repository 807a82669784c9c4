import Arishem.Lib.Slots
import Arishem.Cache.Packet

/-!
# The state of the memory controller

The queues of a channel are tables of fixed size (`PACKET_QUEUE`): a request goes to any free slot,
one whose address is zero, and leaves from there. `BANK_REQUEST` is what the controller knows of a
bank. `request_index` is `none` for -1. The packets that the LLC passes have `scheduled` zero, so it
is a field of the slot and not of the packet. The statistics of rows and of the bus are left out.
-/

namespace Arishem

/-- The macros of the DRAM and its latencies. -/
structure DramConfig where
  numCpus : ℕ
  channels : ℕ
  log2Channels : ℕ
  ranks : ℕ
  log2Ranks : ℕ
  banks : ℕ
  log2Banks : ℕ
  log2Columns : ℕ
  rows : ℕ
  log2Rows : ℕ
  rqSize : ℕ
  wqSize : ℕ
  tRP : Cycle
  tRCD : Cycle
  tCAS : Cycle
  dbusReturnTime : Cycle
  dbusTurnAroundTime : Cycle
  writeHighWm : ℕ
  writeLowWm : ℕ

/-- The two queues of a channel. -/
inductive QueueKind
  | rq
  | wq
  deriving DecidableEq, Repr

/-- A slot of a queue. -/
structure DramEntry where
  packet : Packet
  scheduled : Bool

/-- A queue of a channel. -/
structure DramQueue where
  entry : List DramEntry
  occupancy : ℕ
  head : ℕ
  tail : ℕ
  nextScheduleIndex : ℕ
  nextScheduleCycle : Cycle
  nextProcessIndex : ℕ
  nextProcessCycle : Cycle

/-- Where a bank is. -/
structure BankId where
  channel : ℕ
  rank : ℕ
  bank : ℕ
  deriving DecidableEq

/-- What a bank is doing. -/
structure BankRequest where
  cycleAvailable : Cycle
  openRow : UInt32
  working : Bool
  workingType : AccessType
  rowBufferHit : Bool
  isWrite : Bool
  isRead : Bool
  requestIndex : Option ℕ

/-- The state of the memory controller. -/
structure MemoryController where
  /-- `RQ` and `WQ` of each channel. -/
  queue : QueueKind → ℕ → DramQueue
  bankRequest : BankId → BankRequest
  writeMode : ℕ → Bool
  /-- `scheduled_reads` and `scheduled_writes`. -/
  scheduled : QueueKind → ℕ → ℕ
  dbusCycleAvailable : ℕ → Cycle

/-- What one call reads from outside the controller. -/
structure DramEnv where
  /-- `current_core_cycle`. -/
  cycle : ℕ → Cycle
  /-- A core's counter never reaches the sentinel. -/
  cycle_lt : ∀ cpu, cycle cpu < uint64Max
  /-- `all_warmup_complete` has reached `NUM_CPUS`. -/
  allWarmupComplete : Bool

/-- What a call does outside the controller, and what it returns. -/
inductive DramEvent
  /-- `return_data` on `upper_level_icache` or `upper_level_dcache` of the packet's core. -/
  | upperReturn (icache : Bool) (p : Packet)
  /-- The data of the packet went to the memory. -/
  | written (p : Packet)
  /-- The value `add_rq` or `add_wq` returns: an index, or -1. -/
  | result (r : Option ℕ)
  deriving DecidableEq

/-- The empty slot. -/
def DramEntry.empty (numCpus : ℕ) : DramEntry := ⟨Packet.empty numCpus, false⟩

/-- The address of the packet in a slot. -/
abbrev DramEntry.address (e : DramEntry) : Addr := e.packet.address

namespace DramConfig

variable (cfg : DramConfig)

/-- The common part of `dram_get_channel` and its like. -/
def dramGet (log2Count count shift : ℕ) (address : Addr) : ℕ :=
  if log2Count = 0 then 0 else (address >>> shift.toUInt64).toUInt32.toNat &&& (count - 1)

/-- `dram_get_channel`. -/
def getChannel (address : Addr) : ℕ := dramGet cfg.log2Channels cfg.channels 0 address

/-- `dram_get_bank`. -/
def getBank (address : Addr) : ℕ := dramGet cfg.log2Banks cfg.banks cfg.log2Channels address

/-- `dram_get_rank`. -/
def getRank (address : Addr) : ℕ :=
  dramGet cfg.log2Ranks cfg.ranks (cfg.log2Columns + cfg.log2Banks + cfg.log2Channels) address

/-- `dram_get_row`. -/
def getRow (address : Addr) : UInt32 :=
  (dramGet cfg.log2Rows cfg.rows
    (cfg.log2Ranks + cfg.log2Columns + cfg.log2Banks + cfg.log2Channels) address).toUInt32

/-- The bank that an address maps to. -/
def bankOf (address : Addr) : BankId :=
  ⟨cfg.getChannel address, cfg.getRank address, cfg.getBank address⟩

/-- The size of a queue. -/
def size : QueueKind → ℕ
  | .rq => cfg.rqSize
  | .wq => cfg.wqSize

end DramConfig

namespace BankRequest

/-- The constructor of `BANK_REQUEST`. -/
def init : BankRequest where
  cycleAvailable := 0
  openRow := 0xFFFFFFFF
  working := false
  workingType := .load
  rowBufferHit := false
  isWrite := false
  isRead := false
  requestIndex := none

/-- `is_read` or `is_write`. -/
def serves (b : BankRequest) : QueueKind → Bool
  | .rq => b.isRead
  | .wq => b.isWrite

end BankRequest

/-- The constructor of `PACKET_QUEUE`, with the entries that the controller allocates. -/
def DramQueue.init (cfg : DramConfig) (k : QueueKind) : DramQueue where
  entry := List.replicate (cfg.size k) (.empty cfg.numCpus)
  occupancy := 0
  head := 0
  tail := 0
  nextScheduleIndex := 0
  nextScheduleCycle := uint64Max
  nextProcessIndex := 0
  nextProcessCycle := uint64Max

namespace MemoryController

/-- The constructor of the controller. -/
def init (cfg : DramConfig) : MemoryController where
  queue := fun k _ => .init cfg k
  bankRequest := fun _ => .init
  writeMode := fun _ => false
  scheduled := fun _ _ => 0
  dbusCycleAvailable := fun _ => 0

/-- Write a queue. -/
def modifyQueue (k : QueueKind) (ch : ℕ) (f : DramQueue → DramQueue) (s : MemoryController) :
    MemoryController :=
  { s with
    queue := fun k' ch' => if k' = k ∧ ch' = ch then f (s.queue k ch) else s.queue k' ch' }

/-- Write a slot of a queue. -/
def setEntry (k : QueueKind) (ch i : ℕ) (e : DramEntry) (s : MemoryController) :
    MemoryController :=
  s.modifyQueue k ch fun q => { q with entry := q.entry.set i e }

/-- Write what the controller knows of a bank. -/
def setBank (b : BankId) (r : BankRequest) (s : MemoryController) : MemoryController :=
  { s with bankRequest := Function.update s.bankRequest b r }

/-- Write `scheduled_reads` or `scheduled_writes`. -/
def setScheduled (k : QueueKind) (ch n : ℕ) (s : MemoryController) : MemoryController :=
  { s with
    scheduled := fun k' ch' => if k' = k ∧ ch' = ch then n else s.scheduled k' ch' }

/-- Write the cycle from which the data bus is free. -/
def setDbus (ch : ℕ) (c : Cycle) (s : MemoryController) : MemoryController :=
  { s with dbusCycleAvailable := Function.update s.dbusCycleAvailable ch c }

/-- Write the mode of a channel. -/
def setWriteMode (ch : ℕ) (m : Bool) (s : MemoryController) : MemoryController :=
  { s with writeMode := Function.update s.writeMode ch m }

/-- The content of a slot. -/
def slot (s : MemoryController) (k : QueueKind) (ch i : ℕ) : Option DramEntry :=
  (s.queue k ch).entry[i]?

section
variable {s : MemoryController} {k k' : QueueKind} {ch ch' i n : ℕ} {e : DramEntry} {b : BankId}
variable {r : BankRequest} {c : Cycle} {m : Bool} {f : DramQueue → DramQueue}

theorem modifyQueue_queue : (s.modifyQueue k ch f).queue k' ch' =
    if k' = k ∧ ch' = ch then f (s.queue k ch) else s.queue k' ch' := rfl

@[simp] theorem modifyQueue_bankRequest :
    (s.modifyQueue k ch f).bankRequest = s.bankRequest := rfl
@[simp] theorem modifyQueue_scheduled : (s.modifyQueue k ch f).scheduled = s.scheduled := rfl
@[simp] theorem modifyQueue_writeMode : (s.modifyQueue k ch f).writeMode = s.writeMode := rfl

theorem setEntry_queue : (s.setEntry k ch i e).queue k' ch' =
    if k' = k ∧ ch' = ch then { s.queue k ch with entry := (s.queue k ch).entry.set i e }
    else s.queue k' ch' := rfl

@[simp] theorem setEntry_bankRequest : (s.setEntry k ch i e).bankRequest = s.bankRequest := rfl
@[simp] theorem setEntry_scheduled : (s.setEntry k ch i e).scheduled = s.scheduled := rfl
@[simp] theorem setEntry_writeMode : (s.setEntry k ch i e).writeMode = s.writeMode := rfl

@[simp] theorem setBank_queue : (s.setBank b r).queue = s.queue := rfl
@[simp] theorem setBank_bankRequest :
    (s.setBank b r).bankRequest = Function.update s.bankRequest b r := rfl
@[simp] theorem setBank_scheduled : (s.setBank b r).scheduled = s.scheduled := rfl
@[simp] theorem setBank_writeMode : (s.setBank b r).writeMode = s.writeMode := rfl

@[simp] theorem setScheduled_queue : (s.setScheduled k ch n).queue = s.queue := rfl
@[simp] theorem setScheduled_bankRequest :
    (s.setScheduled k ch n).bankRequest = s.bankRequest := rfl
@[simp] theorem setScheduled_writeMode : (s.setScheduled k ch n).writeMode = s.writeMode := rfl

theorem setScheduled_scheduled : (s.setScheduled k ch n).scheduled k' ch' =
    if k' = k ∧ ch' = ch then n else s.scheduled k' ch' := rfl

@[simp] theorem setDbus_queue : (s.setDbus ch c).queue = s.queue := rfl
@[simp] theorem setDbus_bankRequest : (s.setDbus ch c).bankRequest = s.bankRequest := rfl
@[simp] theorem setDbus_scheduled : (s.setDbus ch c).scheduled = s.scheduled := rfl
@[simp] theorem setDbus_writeMode : (s.setDbus ch c).writeMode = s.writeMode := rfl

@[simp] theorem setWriteMode_queue : (s.setWriteMode ch m).queue = s.queue := rfl
@[simp] theorem setWriteMode_bankRequest :
    (s.setWriteMode ch m).bankRequest = s.bankRequest := rfl
@[simp] theorem setWriteMode_scheduled : (s.setWriteMode ch m).scheduled = s.scheduled := rfl
@[simp] theorem setWriteMode_writeMode :
    (s.setWriteMode ch m).writeMode = Function.update s.writeMode ch m := rfl

end

end MemoryController

end Arishem
