import Mathlib.Algebra.GroupWithZero.Nat
import Mathlib.Data.Finset.Basic
import Mathlib.Order.Defs.LinearOrder

/-!
# Packets and blocks

The message that travels between the caches (`PACKET`) and the line a cache holds (`BLOCK`), with
the fields that the cache code reads. Addresses and cycles are 64-bit words, as in the source. The
three `fastset`s of waiting consumers are finite sets of indices: the indices are below the sizes of
the ROB, LQ and SQ, where the representation of `fastset` does not show.
-/

namespace Arishem

/-- A line address (`address`) or a byte address (`full_addr`). -/
abbrev Addr := UInt64

/-- A core's cycle counter and the cycles compared with it. -/
abbrev Cycle := UInt64

/-- The order on 64-bit words, so that the general facts on minima apply to cycles. -/
instance linearOrderCycle : LinearOrder UInt64 where
  le_refl := UInt64.le_refl
  le_trans := fun _ _ _ => UInt64.le_trans
  le_antisymm := fun _ _ => UInt64.le_antisymm
  le_total := UInt64.le_total
  lt_iff_le_not_ge := by grind
  toDecidableLE := inferInstance
  toDecidableLT := inferInstance
  toDecidableEq := inferInstance
  min_def := by intro a b; rfl
  max_def := by intro a b; rfl

/-- `UINT64_MAX`, the cycle that never comes. -/
def uint64Max : UInt64 := 0xFFFFFFFFFFFFFFFF

/-- `LOG2_BLOCK_SIZE`. -/
def log2BlockSize : UInt64 := 6

/-- `LOG2_PAGE_SIZE`. -/
def log2PageSize : UInt64 := 12

/-- `FILL_L1`, `FILL_L2` and `FILL_LLC`: the levels a request may be filled to. -/
def fillL1 : Int := 1
/-- See `fillL1`. -/
def fillL2 : Int := 2
/-- See `fillL1`. -/
def fillLlc : Int := 4

/-- The access types `LOAD`, `RFO`, `PREFETCH` and `WRITEBACK`. -/
inductive AccessType
  | load
  | rfo
  | prefetch
  | writeback
  deriving DecidableEq, Repr

/-- The kinds of caches (`cache_type`). -/
inductive CacheType
  | itlb
  | dtlb
  | stlb
  | l1i
  | l1d
  | l2c
  | llc
  deriving DecidableEq, Repr

/-- The state of an MSHR entry (`returned`): 0, `INFLIGHT` or `COMPLETED`. -/
inductive Returned
  | unset
  | inflight
  | completed
  deriving DecidableEq, Repr

/-- A request on its way through the hierarchy. -/
structure Packet where
  instruction : Bool
  tlbAccess : Bool
  fillLevel : Int
  pfOriginLevel : Int
  robIndex : Int
  pfMetadata : UInt32
  instrMerged : Bool
  loadMerged : Bool
  storeMerged : Bool
  returned : Returned
  type : AccessType
  robIndexDependOnMe : Finset ℕ
  lqIndexDependOnMe : Finset ℕ
  sqIndexDependOnMe : Finset ℕ
  cpu : ℕ
  lqIndex : ℕ
  sqIndex : ℕ
  address : Addr
  fullAddr : Addr
  instructionPa : UInt64
  dataPa : UInt64
  data : UInt64
  instrId : UInt64
  ip : UInt64
  eventCycle : Cycle
  cycleEnqueued : Cycle
  deriving DecidableEq

/-- The packet the constructor builds; `cpu` is `NUM_CPUS`, no core at all. -/
def Packet.empty (numCpus : ℕ) : Packet where
  instruction := false
  tlbAccess := false
  fillLevel := -1
  pfOriginLevel := 0
  robIndex := -1
  pfMetadata := 0
  instrMerged := false
  loadMerged := false
  storeMerged := false
  returned := .unset
  type := .load
  robIndexDependOnMe := ∅
  lqIndexDependOnMe := ∅
  sqIndexDependOnMe := ∅
  cpu := numCpus
  lqIndex := 0
  sqIndex := 0
  address := 0
  fullAddr := 0
  instructionPa := 0
  dataPa := 0
  data := 0
  instrId := 0
  ip := 0
  eventCycle := uint64Max
  cycleEnqueued := 0

section
variable (n : ℕ)

@[simp] theorem Packet.empty_address : (Packet.empty n).address = 0 := rfl
@[simp] theorem Packet.empty_cpu : (Packet.empty n).cpu = n := rfl
@[simp] theorem Packet.empty_returned : (Packet.empty n).returned = .unset := rfl
@[simp] theorem Packet.empty_type : (Packet.empty n).type = .load := rfl

end

/-- A line of a cache (`BLOCK`). -/
structure Block where
  valid : Bool
  prefetch : Bool
  dirty : Bool
  used : Bool
  address : Addr
  fullAddr : Addr
  tag : Addr
  data : UInt64
  cpu : ℕ
  instrId : UInt64
  lru : ℕ
  deriving DecidableEq

/-- The block the constructor builds. -/
def Block.empty (lru : ℕ) : Block where
  valid := false
  prefetch := false
  dirty := false
  used := false
  address := 0
  fullAddr := 0
  tag := 0
  data := 0
  cpu := 0
  instrId := 0
  lru := lru

/-- The cycle at which an access that arrives with event cycle `event` is ready: the latency counts
from the core's cycle when the event lies in the past. -/
def addLatency (latency now event : Cycle) : Cycle :=
  if event < now then now + latency else event + latency

end Arishem
