import Arishem.Lib.Lts
import Arishem.Cache.Requests

/-!
# The handlers of a cache

`operate` runs `handle_fill`, `handle_writeback`, `handle_read` and `handle_prefetch`. Each handler
looks at one entry: the MSHR entry that is due, or the head of its queue. The branches of a handler
are definitions of their own. The two read loops are given by their bodies (`readOne`,
`prefetchOne`), which do nothing once the reads of the cycle are used up or no entry is ready. The
prefetchers' hooks are not part of the handlers: what they do to the cache is `prefetch_line`, which
touches nothing a handler has read before the hook, so a hook's requests come as steps of their own
just before the handler.
-/

namespace Arishem

namespace Cache

variable (cfg : Config) (env : Env)

/-! ## Merging into an MSHR entry -/

/-- The entry `e` after its fill level is lowered to that of a merged request. -/
def lowerFillLevel (p e : Packet) : Packet := { e with fillLevel := min p.fillLevel e.fillLevel }

/-- The entry `e` after a demand `p`: a prefetch is replaced by the demand, which keeps only what
the lower level has answered. -/
def replacePrefetch (p e : Packet) : Packet :=
  if e.type = .prefetch then { p with returned := e.returned, eventCycle := e.eventCycle } else e

/-- The entry `e` after the consumers of the read `p` are recorded in it. -/
def markConsumers (p e : Packet) : Packet :=
  if p.type = .rfo then
    let e :=
      if p.tlbAccess then
        { e with storeMerged := true,
                 sqIndexDependOnMe :=
                   insert p.sqIndex e.sqIndexDependOnMe ∪ p.sqIndexDependOnMe }
      else e
    if p.loadMerged then
      { e with loadMerged := true,
               lqIndexDependOnMe := e.lqIndexDependOnMe ∪ p.lqIndexDependOnMe }
    else e
  else if p.instruction then
    let e :=
      { e with instrMerged := true,
               robIndexDependOnMe := insert p.robIndex.toNat e.robIndexDependOnMe }
    if p.instrMerged then
      { e with robIndexDependOnMe := e.robIndexDependOnMe ∪ p.robIndexDependOnMe }
    else e
  else
    let e :=
      { e with loadMerged := true,
               lqIndexDependOnMe := insert p.lqIndex e.lqIndexDependOnMe ∪ p.lqIndexDependOnMe }
    if p.storeMerged then
      { e with storeMerged := true,
               sqIndexDependOnMe := e.sqIndexDependOnMe ∪ p.sqIndexDependOnMe }
    else e

/-- The MSHR entry `e` after a read `p` is merged into it. -/
def mergedRead (p e : Packet) : Packet := replacePrefetch p (lowerFillLevel p (markConsumers p e))

/-- The MSHR entry `e` after an RFO `p` of the write queue is merged into it. -/
def mergedRfo (p e : Packet) : Packet := replacePrefetch p (lowerFillLevel p e)

/-! ## `handle_fill` -/

/-- The writeback of a victim, or `none` when the fill has to wait. -/
def Eviction.events : Eviction → Option (List Event)
  | .clean => some []
  | .writeback p => some [.lowerAddWq p]
  | .blocked => none

/-- The end of a fill: the MSHR slot `i` is given up. -/
def releaseMshr (i : ℕ) (p : Packet) (c : Cache) : Cache :=
  { c with mshr := c.mshr.remove cfg.numCpus i, stats := addMissLatency env p c.stats }

/-- Fill the packet `p` into a way whose victim is dealt with. -/
def install (set way : ℕ) (p : Packet) (c : Cache) : Cache :=
  { c with block := updateReplacementState cfg set way p.type false c.block }.fillCache set way p

/-- An RFO makes the line it is filled into dirty, at the L1D. -/
def markRfo (set way : ℕ) (p : Packet) (blocks : ℕ → ℕ → Block) : ℕ → ℕ → Block :=
  if cfg.cacheType = .l1d ∧ p.type = .rfo then markDirty set way blocks else blocks

/-- `handle_fill` fills the entry `p` of slot `i`. -/
def fillWay (i set way : ℕ) (p : Packet) (c : Cache) : Cache × List Event :=
  let c := c.install cfg set way p
  let c := { c with block := markRfo cfg set way p c.block }
  let q := withPa cfg (c.block set way) p
  ({ c with processed := finish cfg q c.processed }.releaseMshr cfg env i p,
    answer cfg p ++ finishEvents cfg q c.processed)

/-- `handle_fill` on the entry `p` of slot `i`, which is due. The LLC may be bypassed. -/
def fillEntry (i : ℕ) (p : Packet) (c : Cache) : Option (Cache × List Event) :=
  let set := cfg.getSet p.address
  match c.findVictim cfg env set with
  | none => none
  | some way =>
    if cfg.cacheType = .llc ∧ way = cfg.numWay then
      some (c.releaseMshr cfg env i p, answer cfg p)
    else
      match c.evict cfg env set way p with
      | none => none
      | some v =>
        match v.events with
        | none => some (c, [])
        | some evs =>
          let p := withMetadata cfg env p
          if fillRefused cfg p then none
          else some ((c.fillWay cfg env i set way p).1, evs ++ (c.fillWay cfg env i set way p).2)

/-- `handle_fill`. -/
def handleFill (c : Cache) : Option (Cache × List Event) :=
  match c.mshr.nextFill with
  | none => some (c, [])
  | some p =>
    if p.cpu = cfg.numCpus then some (c, [])
    else if c.mshr.nextFillCycle ≤ env.cycle p.cpu then c.fillEntry cfg env c.mshr.nextFillIndex p
    else some (c, [])

/-! ## `handle_writeback` -/

/-- A writeback hit, or an RFO hit at the L1D. -/
def writebackHit (way : ℕ) (p : Packet) (rest : List Packet) (c : Cache) : Cache × List Event :=
  let set := cfg.getSet p.address
  ({ c with
     block := markDirty set way (updateReplacementState cfg set way p.type true c.block)
     wq := rest },
    answer cfg (withTranslation cfg (c.block set way) p))

/-- An RFO miss at the L1D. -/
def rfoMiss (p : Packet) (rest : List Packet) (c : Cache) : Option (Cache × List Event) :=
  match c.mshr.checkMshr p.address with
  | none =>
    if c.mshr.occupancy < cfg.mshrSize then
      some ({ c with mshr := c.mshr.addMshr (stamped env p), wq := rest },
        [.lowerAddRq (stamped env p)])
    else if c.mshr.occupancy = cfg.mshrSize then some (c, [])
    else none
  | some (i, e) => some ({ c with mshr := c.mshr.update i (mergedRfo p e), wq := rest }, [])

/-- `handle_writeback` fills the packet `p` into a way whose victim is dealt with. -/
def writebackWay (set way : ℕ) (p : Packet) (rest : List Packet) (c : Cache) : Cache :=
  { c.install cfg set way p with
    block := markDirty set way (c.install cfg set way p).block
    wq := rest }

/-- A writeback that misses replaces a block at once, without asking the MSHR. -/
def writebackFill (p : Packet) (rest : List Packet) (c : Cache) : Option (Cache × List Event) :=
  let set := cfg.getSet p.address
  match c.findVictim cfg env set with
  | none => none
  | some way =>
    if cfg.cacheType = .llc ∧ way = cfg.numWay then none
    else
      match c.evict cfg env set way p with
      | none => none
      | some v =>
        match v.events with
        | none => some (c, [])
        | some evs =>
          let p := withMetadata cfg env p
          if fillRefused cfg p then none
          else some (c.writebackWay cfg set way p rest, evs ++ answer cfg p)

/-- `handle_writeback`. -/
def handleWriteback (c : Cache) : Option (Cache × List Event) :=
  match c.wq with
  | [] => some (c, [])
  | p :: rest =>
    if p.cpu = cfg.numCpus then some (c, [])
    else if p.eventCycle ≤ env.cycle p.cpu then
      match c.checkHit cfg p with
      | (some way, buffer) => some ({ c with pageBuffer := buffer }.writebackHit cfg way p rest)
      | (none, buffer) =>
        if cfg.cacheType = .l1d then { c with pageBuffer := buffer }.rfoMiss cfg env p rest
        else { c with pageBuffer := buffer }.writebackFill cfg env p rest
    else some (c, [])

/-! ## `handle_read` -/

/-- The head of the RQ is served. -/
def popRq (rest : List Packet) (c : Cache) : Cache :=
  { c with rq := rest, readsAvailable := c.readsAvailable - 1 }

/-- The block after a read hit: a prefetched line has been useful. -/
def markUsed (set way : ℕ) (blocks : ℕ → ℕ → Block) : ℕ → ℕ → Block :=
  setBlock set way { blocks set way with prefetch := false, used := true } blocks

/-- A read hit. -/
def readHit (way : ℕ) (p : Packet) (rest : List Packet) (c : Cache) : Cache × List Event :=
  let set := cfg.getSet p.address
  let q := withTranslation cfg (c.block set way) p
  ({ c.popRq rest with
     processed := finish cfg q c.processed
     block := markUsed set way (updateReplacementState cfg set way p.type true c.block)
     stats := { c.stats with
       pfUseful := c.stats.pfUseful + if (c.block set way).prefetch then 1 else 0 } },
    finishEvents cfg q c.processed ++ answer cfg q)

/-- A new read miss is sent below. The STLB has no level below it: it walks the page table and
answers itself. -/
def readNew (p : Packet) (rest : List Packet) (c : Cache) : Option (Cache × List Event) :=
  let p := stamped env p
  let c := { c with mshr := c.mshr.addMshr p }
  if cfg.hasLower then some (c.popRq rest, [.lowerAddRq p])
  else if cfg.cacheType = .stlb then
    match c.returnData cfg env
        { p with data := env.physicalAddress >>> log2PageSize, eventCycle := env.cycle p.cpu } with
    | none => none
    | some c => some (c.popRq rest, [])
  else some (c.popRq rest, [])

/-- A read miss on a line that is outstanding already. -/
def readMerge (i : ℕ) (e p : Packet) (rest : List Packet) (c : Cache) : Cache :=
  { c.popRq rest with
    mshr := c.mshr.update i (mergedRead p e)
    stats := { c.stats with pfLate := c.stats.pfLate + if e.type = .prefetch then 1 else 0 } }

/-- A read miss. -/
def readMiss (p : Packet) (rest : List Packet) (c : Cache) : Option (Cache × List Event) :=
  match c.mshr.checkMshr p.address with
  | none =>
    if c.mshr.occupancy < cfg.mshrSize then
      if cfg.cacheType = .llc ∧ env.lowerFull .rq p.address then some (c, [])
      else c.readNew cfg env p rest
    else if c.mshr.occupancy = cfg.mshrSize then some (c, [])
    else none
  | some (i, e) => some (c.readMerge i e p rest, [])

/-- One round of the loop of `handle_read`. -/
def readOne (c : Cache) : Option (Cache × List Event) :=
  match c.rq with
  | [] => some (c, [])
  | p :: rest =>
    if c.readsAvailable = 0 ∨ p.cpu = cfg.numCpus then some (c, [])
    else if p.eventCycle ≤ env.cycle p.cpu then
      match c.checkHit cfg p with
      | (some way, buffer) => some ({ c with pageBuffer := buffer }.readHit cfg way p rest)
      | (none, buffer) => { c with pageBuffer := buffer }.readMiss cfg env p rest
    else some (c, [])

/-! ## `handle_prefetch` -/

/-- The head of the PQ is served. -/
def popPq (rest : List Packet) (c : Cache) : Cache :=
  { c with pq := rest, readsAvailable := c.readsAvailable - 1 }

/-- The packet after the prefetcher ran on it, which it does for prefetches from above. -/
def prefetchOperated (p : Packet) : Packet :=
  if p.pfOriginLevel < cfg.fillLevel then withMetadata cfg env p else p

/-- A prefetch hit. -/
def prefetchHit (way : ℕ) (p : Packet) (rest : List Packet) (c : Cache) : Cache × List Event :=
  ({ c.popPq rest with
     block := updateReplacementState cfg (cfg.getSet p.address) way p.type true c.block },
    answer cfg (prefetchOperated cfg env p))

/-- The lower level's queue for a prefetch: its PQ, or the RQ of the DRAM. -/
def lowerPrefetchQueue : QueueType := if cfg.cacheType = .llc then .rq else .pq

/-- The call that passes a prefetch on. -/
def lowerAddPrefetch (p : Packet) : Event :=
  if cfg.cacheType = .llc then .lowerAddRq p else .lowerAddPq p

/-- A new prefetch miss: an MSHR entry is allocated only if this cache is to be filled. -/
def prefetchNew (p : Packet) (rest : List Packet) (c : Cache) : Cache × List Event :=
  let p := prefetchOperated cfg env p
  if p.fillLevel ≤ cfg.fillLevel then
    ({ c.popPq rest with mshr := c.mshr.addMshr (stamped env p) },
      [lowerAddPrefetch cfg (stamped env p)])
  else (c.popPq rest, [lowerAddPrefetch cfg p])

/-- A prefetch miss. -/
def prefetchMiss (p : Packet) (rest : List Packet) (c : Cache) : Option (Cache × List Event) :=
  match c.mshr.checkMshr p.address with
  | none =>
    if c.mshr.occupancy < cfg.mshrSize then
      if cfg.hasLower then
        if env.lowerFull (lowerPrefetchQueue cfg) p.address then some (c, [])
        else some (c.prefetchNew cfg env p rest)
      else some (c.popPq rest, [])
    else if c.mshr.occupancy = cfg.mshrSize then some (c, [])
    else none
  | some (i, e) =>
    some ({ c.popPq rest with mshr := c.mshr.update i (lowerFillLevel p e) }, [])

/-- One round of the loop of `handle_prefetch`. -/
def prefetchOne (c : Cache) : Option (Cache × List Event) :=
  match c.pq with
  | [] => some (c, [])
  | p :: rest =>
    if c.readsAvailable = 0 ∨ p.cpu = cfg.numCpus then some (c, [])
    else if p.eventCycle ≤ env.cycle p.cpu then
      match c.checkHit cfg p with
      | (some way, buffer) => some ({ c with pageBuffer := buffer }.prefetchHit cfg env way p rest)
      | (none, buffer) => { c with pageBuffer := buffer }.prefetchMiss cfg env p rest
    else some (c, [])

/-! ## Steps -/

/-- The start of `handle_read` in `operate`. -/
def startReads (c : Cache) : Cache := { c with readsAvailable := cfg.maxRead }

end Cache

/-- What can happen to a cache: a call from another component, or a part of `operate`. -/
inductive Action
  | addRq (p : Packet)
  | addWq (p : Packet)
  | addPq (p : Packet)
  | prefetchLine (cpu : ℕ) (ip pfAddr : UInt64) (pfFillLevel : Int) (metadata : UInt32)
  | returnData (p : Packet)
  | invalidateEntry (a : Addr)
  | updateRob (cpu : ℕ)
  | handleFill
  | handleWriteback
  | startReads
  | readOne
  | prefetchOne
  deriving DecidableEq

/-- The parts of one call of `operate`, in order. -/
def Config.operate (cfg : Config) : List Action :=
  [Action.handleFill, .handleWriteback, .startReads] ++ List.replicate cfg.maxRead .readOne ++
    List.replicate cfg.maxRead .prefetchOne

/-- A request's reply is an output of its step. -/
def Cache.replied : Option (Reply × Cache × List Event) → Option (Cache × List Event)
  | none => none
  | some (r, c, evs) => some (c, evs ++ [Event.result r])

/-- The step function of a cache. -/
def Cache.act (cfg : Config) (env : Env) (c : Cache) : Action → Option (Cache × List Event)
  | .addRq p => replied (c.addRq cfg env p)
  | .addWq p => replied (c.addWq cfg env p)
  | .addPq p => replied (c.addPq cfg env p)
  | .prefetchLine cpu ip pfAddr fill metadata => c.prefetchLine cfg env cpu ip pfAddr fill metadata
  | .returnData p => (c.returnData cfg env p).map (·, [])
  | .invalidateEntry a => some (c.invalidateEntry cfg a, [])
  | .updateRob cpu => some (c.updateRob env cpu, [])
  | .handleFill => c.handleFill cfg env
  | .handleWriteback => c.handleWriteback cfg env
  | .startReads => some (c.startReads cfg, [])
  | .readOne => c.readOne cfg env
  | .prefetchOne => c.prefetchOne cfg env

/-- A cache as a system: any action at any time, reading any environment. -/
def cacheLts (cfg : Config) : Lts Cache (Env × Action) Event where
  init := fun c => c = Cache.init cfg
  step := fun c l => c.act cfg l.1 l.2

end Arishem
