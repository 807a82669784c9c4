import Mathlib.Data.Nat.Log
import Arishem.Cache.Mshr

/-!
# The state of a cache

A cache (`CACHE`) is its sets of blocks, its queues and its MSHR table. The queues are lists from
the oldest entry on: `RQ`, `WQ`, `PQ` and `PROCESSED` are rings of fixed capacity that are only
appended to at the tail and popped at the head. `Config` holds what the constructor and the wiring
of `main.cc` fix, `Env` what a step reads from outside the cache: the cores' cycle counters, the
occupancy of the lower level, the policies of the LLC and of the prefetchers, the page table. A call
to another cache is an `Event` of the step, in the order in which the step makes the calls; no step
reads anything the called cache changes.
-/

namespace Arishem

/-- What is fixed for a cache. `perfect` and `semiPerfect` are the knobs of this level. -/
structure Config where
  cacheType : CacheType
  numCpus : ℕ
  numSet : ℕ
  numWay : ℕ
  wqSize : ℕ
  rqSize : ℕ
  pqSize : ℕ
  mshrSize : ℕ
  /-- `PROCESSED.SIZE`, which is `ROB_SIZE`. -/
  robSize : ℕ
  latency : Cycle
  fillLevel : Int
  maxRead : ℕ
  hasLower : Bool
  perfect : Bool
  semiPerfect : Bool
  semiPerfectPageBufferSize : ℕ

/-- The queues of a lower level whose occupancy a cache asks for (`get_occupancy`, `get_size`). -/
inductive QueueType
  | rq
  | wq
  | pq
  deriving DecidableEq, Repr

/-- What one step reads from outside the cache. -/
structure Env where
  /-- `current_core_cycle`. -/
  cycle : ℕ → Cycle
  /-- A core's counter never reaches the sentinel. -/
  cycle_lt : ∀ cpu, cycle cpu < uint64Max
  /-- `warmup_complete`. -/
  warmupComplete : ℕ → Bool
  /-- The lower level's queue for this address is full. -/
  lowerFull : QueueType → Addr → Bool
  /-- The way `llc_find_victim` picks; `LLC_WAY` bypasses the LLC. -/
  llcVictim : ℕ
  /-- The metadata a prefetcher of the L2C or LLC hands back. -/
  prefetcherMetadata : UInt32
  /-- The physical address `va_to_pa` answers. -/
  physicalAddress : UInt64

/-- The statistics that the code reads back or reports for one cache. -/
structure Stats where
  pfRequested : ℕ
  pfDropped : ℕ
  pfIssued : ℕ
  pfFilled : ℕ
  pfUseful : ℕ
  pfUseless : ℕ
  pfLate : ℕ
  totalMissLatency : UInt64
  deriving DecidableEq

/-- The state of a cache. -/
structure Cache where
  /-- `block[set][way]`. -/
  block : ℕ → ℕ → Block
  wq : List Packet
  rq : List Packet
  pq : List Packet
  mshr : Mshr
  processed : List Packet
  readsAvailable : ℕ
  pageBuffer : List UInt64
  stats : Stats

/-- What a request returns: the position of the entry it was merged with, -1 or -2. -/
inductive Reply
  | merged
  | accepted
  | full
  deriving DecidableEq, Repr

/-- What a step does outside the cache, and the value a request returns. -/
inductive Event
  /-- `upper_level_icache[cpu]->return_data` or `upper_level_dcache[cpu]->return_data`. -/
  | upperReturn (p : Packet)
  /-- `lower_level->add_rq`. -/
  | lowerAddRq (p : Packet)
  /-- `lower_level->add_wq`. -/
  | lowerAddWq (p : Packet)
  /-- `lower_level->add_pq`. -/
  | lowerAddPq (p : Packet)
  /-- The packet was appended to `PROCESSED`. -/
  | processed (p : Packet)
  /-- The packet was finished, but `PROCESSED` was full. -/
  | dropped (p : Packet)
  /-- The value `add_rq`, `add_wq` or `add_pq` returns. -/
  | result (r : Reply)
  deriving DecidableEq

/-- What the constructor of a cache builds. -/
def Cache.init (cfg : Config) : Cache where
  block := fun _ way => Block.empty way
  wq := []
  rq := []
  pq := []
  mshr := Mshr.init cfg.numCpus cfg.mshrSize
  processed := []
  readsAvailable := 0
  pageBuffer := []
  stats := ⟨0, 0, 0, 0, 0, 0, 0, 0⟩

namespace Config

variable (cfg : Config)

/-- `get_set`. -/
def getSet (a : Addr) : ℕ := a.toNat &&& ((1 <<< Nat.log2 cfg.numSet) - 1)

/-- The set a packet is looked up in exists, so the check at the start of `check_hit` and
`invalidate_entry` never fails. -/
theorem getSet_lt (h : 0 < cfg.numSet) (a : Addr) : cfg.getSet a < cfg.numSet := by
  have hpow : 2 ^ Nat.log2 cfg.numSet ≤ cfg.numSet := Nat.log2_self_le h.ne'
  rw [getSet, Nat.one_shiftLeft]
  exact (Nat.and_lt_two_pow _ (Nat.sub_lt (Nat.two_pow_pos _) one_pos)).trans_le hpow

/-- The caches that have perfect and semi-perfect knobs. -/
def hasKnob : Bool :=
  match cfg.cacheType with
  | .l1d | .l2c | .llc => true
  | _ => false

/-- The TLBs, whose blocks hold a translation. -/
def isTlb : Bool :=
  match cfg.cacheType with
  | .itlb | .dtlb | .stlb => true
  | _ => false

/-- Whether a finished access is appended to `PROCESSED`: at the ITLB, DTLB and L1I each one, at
the L1D all but prefetches, at the lower levels none. -/
def delivers (p : Packet) : Bool :=
  match cfg.cacheType with
  | .itlb | .dtlb | .l1i => true
  | .l1d => p.type != .prefetch
  | _ => false

end Config

namespace Cache

variable (cfg : Config) (env : Env)

/-! ## Blocks -/

/-- The first way of a set that holds a line: the loop of `get_way`, `check_hit` and
`invalidate_entry`. -/
def findWay (a : Addr) (c : Cache) : Option ℕ :=
  (List.range cfg.numWay).find? fun way =>
    (c.block (cfg.getSet a) way).valid && (c.block (cfg.getSet a) way).tag == a

/-- Overwrite one block. -/
def setBlock (set way : ℕ) (b : Block) (blocks : ℕ → ℕ → Block) : ℕ → ℕ → Block :=
  fun s w => if s = set ∧ w = way then b else blocks s w

/-- `search_and_add`: whether the page is in the buffer, and the buffer afterwards. -/
def searchAndAdd (page : UInt64) (buffer : List UInt64) : Bool × List UInt64 :=
  if page ∈ buffer then (true, buffer)
  else if buffer.length ≥ cfg.semiPerfectPageBufferSize then (false, buffer.drop 1 ++ [page])
  else (false, buffer ++ [page])

/-- `check_hit`: the way a packet hits, and the page buffer afterwards. A perfect cache always hits
way 0, a semi-perfect one hits it for a load whose page is in the page buffer. -/
def checkHit (p : Packet) (c : Cache) : Option ℕ × List UInt64 :=
  if cfg.hasKnob && cfg.perfect then (some 0, c.pageBuffer)
  else if cfg.hasKnob && cfg.semiPerfect && p.type == .load then
    match searchAndAdd cfg (p.address >>> log2PageSize) c.pageBuffer with
    | (true, buffer) => (some 0, buffer)
    | (false, buffer) => (c.findWay cfg p.address, buffer)
  else (c.findWay cfg p.address, c.pageBuffer)

/-- `lru_update`: the way becomes the most recently used one of its set. -/
def lruUpdate (set way : ℕ) (blocks : ℕ → ℕ → Block) : ℕ → ℕ → Block := fun s w =>
  if s = set ∧ w = way then { blocks s w with lru := 0 }
  else if s = set ∧ w < cfg.numWay ∧ (blocks s w).lru < (blocks set way).lru then
    { blocks s w with lru := (blocks s w).lru + 1 }
  else blocks s w

/-- `update_replacement_state`; a writeback hit does not touch the LRU order. The policy of the LLC
is not the cache's own, its state is behind `Env.llcVictim`. -/
def updateReplacementState (set way : ℕ) (type : AccessType) (hit : Bool)
    (blocks : ℕ → ℕ → Block) : ℕ → ℕ → Block :=
  if cfg.cacheType = .llc ∨ type = .writeback ∧ hit then blocks else lruUpdate cfg set way blocks

/-- `lru_victim`: the first invalid way, else the least recently used one. -/
def lruVictim (set : ℕ) (c : Cache) : Option ℕ :=
  match (List.range cfg.numWay).find? fun way => !(c.block set way).valid with
  | some way => some way
  | none => (List.range cfg.numWay).find? fun way => (c.block set way).lru == cfg.numWay - 1

/-- `find_victim` and, at the LLC, `llc_find_victim`. -/
def findVictim (set : ℕ) (c : Cache) : Option ℕ :=
  if cfg.cacheType = .llc then
    if env.llcVictim ≤ cfg.numWay then some env.llcVictim else none
  else c.lruVictim cfg set

/-- `fill_cache` refuses an empty translation. -/
def fillRefused (p : Packet) : Bool := cfg.isTlb && p.data == 0

/-- The block `fill_cache` writes for a packet over the block `b`. -/
def filledBlock (p : Packet) (b : Block) : Block :=
  { valid := true, dirty := false, prefetch := p.type == .prefetch, used := false,
    tag := p.address, address := p.address, fullAddr := p.fullAddr, data := p.data, cpu := p.cpu,
    instrId := p.instrId, lru := b.lru }

/-- `fill_cache` where it is not refused: the packet's line replaces the block. -/
def fillCache (set way : ℕ) (p : Packet) (c : Cache) : Cache :=
  { c with
    block := setBlock set way (filledBlock p (c.block set way)) c.block
    stats :=
      { c.stats with
        pfUseless := c.stats.pfUseless +
          if (c.block set way).prefetch ∧ (c.block set way).used = false then 1 else 0
        pfFilled := c.stats.pfFilled + if p.type = .prefetch then 1 else 0 } }

/-- Set the dirty bit of a block. -/
def markDirty (set way : ℕ) (blocks : ℕ → ℕ → Block) : ℕ → ℕ → Block :=
  setBlock set way { blocks set way with dirty := true } blocks

/-- What happens to the victim of a fill: it is dropped, it is written back, or it cannot be
replaced because the lower write queue is full. -/
inductive Eviction
  | clean
  | writeback (p : Packet)
  | blocked

/-- The writeback packet for a dirty victim, on behalf of the packet `p` that replaces it. -/
def writebackPacket (victim : Block) (p : Packet) : Packet :=
  { Packet.empty cfg.numCpus with
    fillLevel := cfg.fillLevel <<< (1 : ℕ), cpu := p.cpu, address := victim.address,
    fullAddr := victim.fullAddr, data := victim.data, instrId := p.instrId, ip := 0,
    type := .writeback, eventCycle := env.cycle p.cpu }

/-- The dirty-victim check of `handle_fill` and `handle_writeback`. Only the STLB may drop a dirty
victim for want of a lower level. -/
def evict (set way : ℕ) (p : Packet) (c : Cache) : Option Eviction :=
  let victim := c.block set way
  if victim.dirty then
    if cfg.hasLower then
      if env.lowerFull .wq victim.address then some .blocked
      else some (.writeback (writebackPacket cfg env victim p))
    else if cfg.cacheType = .stlb then some .clean
    else none
  else some .clean

/-! ## Finishing an access -/

/-- `PROCESSED` after an access is finished: the access is appended, if this cache does so and
there is room. -/
def finish (p : Packet) (q : List Packet) : List Packet :=
  if cfg.delivers p ∧ q.length < cfg.robSize then q ++ [p] else q

/-- What `finish` reports. -/
def finishEvents (p : Packet) (q : List Packet) : List Event :=
  if cfg.delivers p then
    if q.length < cfg.robSize then [.processed p] else [.dropped p]
  else []

/-- The answer to the upper level for a request that came from there: its fill level is above this
cache. -/
def answer (p : Packet) : List Event :=
  if p.fillLevel < cfg.fillLevel then [.upperReturn p] else []

/-- The packet of an access that ends on a block: a first-level TLB copies the translation into
it. -/
def withPa (b : Block) (p : Packet) : Packet :=
  match cfg.cacheType with
  | .itlb => { p with instructionPa := b.data }
  | .dtlb => { p with dataPa := b.data }
  | _ => p

/-- The packet of a hit: the STLB copies the translation into its data. -/
def withTranslation (b : Block) (p : Packet) : Packet :=
  if cfg.cacheType = .stlb then { p with data := b.data } else withPa cfg b p

/-- The packet after its prefetcher looked at it: the L2C and LLC prefetchers hand back metadata. -/
def withMetadata (p : Packet) : Packet :=
  match cfg.cacheType with
  | .l2c | .llc => { p with pfMetadata := env.prefetcherMetadata }
  | _ => p

/-- `add_mshr` stamps the packet with the cycle of the miss. -/
def stamped (p : Packet) : Packet := { p with cycleEnqueued := env.cycle p.cpu }

/-- `total_miss_latency` after the fill of `p`, once the core is warm. -/
def addMissLatency (p : Packet) (s : Stats) : Stats :=
  if env.warmupComplete p.cpu then
    { s with totalMissLatency := s.totalMissLatency + (env.cycle p.cpu - p.cycleEnqueued) }
  else s

end Cache

end Arishem
