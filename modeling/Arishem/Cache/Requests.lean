import Arishem.Cache.State

/-!
# Requests to a cache

The functions other components call: `add_rq`, `add_wq`, `add_pq` from above, `return_data` from
below, `prefetch_line` from the prefetchers, `invalidate_entry` from the page swap, and
`update_rob`, which takes the oldest finished access out of `PROCESSED`. A failed assertion of the
source is a refused step.
-/

namespace Arishem

namespace Cache

variable (cfg : Config) (env : Env)

/-- `check_queue` on the RQ or PQ: the first entry with the address. -/
def checkQueue (a : Addr) (q : List Packet) : Option (ℕ × Packet) :=
  Slots.lookup (·.address == a) q

/-- `check_queue` on the WQ: the L1D compares byte addresses, the other caches line addresses. -/
def checkWq (p : Packet) (q : List Packet) : Option (ℕ × Packet) :=
  Slots.lookup
    (fun e => if cfg.cacheType = .l1d then e.fullAddr == p.fullAddr else e.address == p.address) q

/-- The packet as it enters a queue: the latency is added to its event cycle. -/
def enqueued (p : Packet) : Packet :=
  { p with eventCycle := addLatency cfg.latency (env.cycle p.cpu) p.eventCycle }

/-- The packet of a read that a write in the WQ answers. -/
def forwarded (w p : Packet) : Packet :=
  if p.fillLevel < cfg.fillLevel then { p with data := w.data } else p

/-- The entry `e` of the RQ after a duplicate request `p`: its consumer is recorded there. -/
def mergeConsumer (p e : Packet) : Packet :=
  if p.instruction then
    { e with robIndexDependOnMe := insert p.robIndex.toNat e.robIndexDependOnMe,
             instrMerged := true }
  else if p.type = .rfo then
    { e with sqIndexDependOnMe := insert p.sqIndex e.sqIndexDependOnMe, storeMerged := true }
  else
    { e with lqIndexDependOnMe := insert p.lqIndex e.lqIndexDependOnMe, loadMerged := true }

/-- The caches whose write queue stays empty; `add_rq` asserts that nothing is forwarded there. -/
def noForward : Bool :=
  match cfg.cacheType with
  | .itlb | .dtlb | .l1i => true
  | _ => false

/-- `add_rq`. -/
def addRq (p : Packet) (c : Cache) : Option (Reply × Cache × List Event) :=
  match checkWq cfg p c.wq with
  | some (_, w) =>
    if noForward cfg then none
    else
      let p' := forwarded cfg w p
      some (.accepted, { c with processed := finish cfg p' c.processed },
        answer cfg p' ++ finishEvents cfg p' c.processed)
  | none =>
    match checkQueue p.address c.rq with
    | some (i, e) => some (.merged, { c with rq := c.rq.set i (mergeConsumer p e) }, [])
    | none =>
      if c.rq.length = cfg.rqSize then some (.full, c, [])
      else if p.address = 0 then none
      else some (.accepted, { c with rq := c.rq ++ [enqueued cfg env p] }, [])

/-- `add_wq`. -/
def addWq (p : Packet) (c : Cache) : Option (Reply × Cache × List Event) :=
  match checkWq cfg p c.wq with
  | some _ => some (.merged, c, [])
  | none =>
    if c.wq.length ≥ cfg.wqSize then none
    else some (.accepted, { c with wq := c.wq ++ [enqueued cfg env p] }, [])

/-- `add_pq`. -/
def addPq (p : Packet) (c : Cache) : Option (Reply × Cache × List Event) :=
  match checkWq cfg p c.wq with
  | some (_, w) => some (.accepted, c, answer cfg (forwarded cfg w p))
  | none =>
    match checkQueue p.address c.pq with
    | some (i, e) =>
      some (.merged, { c with pq := c.pq.set i { e with fillLevel := min p.fillLevel e.fillLevel } },
        [])
    | none =>
      if c.pq.length = cfg.pqSize then some (.full, c, [])
      else if p.address = 0 then none
      else some (.accepted, { c with pq := c.pq ++ [enqueued cfg env p] }, [])

/-- The packet `prefetch_line` builds. -/
def prefetchPacket (cpu : ℕ) (ip pfAddr : UInt64) (pfFillLevel : Int) (metadata : UInt32) :
    Packet :=
  { Packet.empty cfg.numCpus with
    fillLevel := pfFillLevel, pfOriginLevel := cfg.fillLevel, pfMetadata := metadata, cpu := cpu,
    address := pfAddr >>> log2BlockSize, fullAddr := pfAddr, ip := ip, type := .prefetch,
    eventCycle := env.cycle cpu }

/-- `prefetch_line`. -/
def prefetchLine (cpu : ℕ) (ip pfAddr : UInt64) (pfFillLevel : Int) (metadata : UInt32)
    (c : Cache) : Option (Cache × List Event) :=
  let c := { c with stats := { c.stats with pfRequested := c.stats.pfRequested + 1 } }
  if c.pq.length < cfg.pqSize then
    match c.addPq cfg env (prefetchPacket cfg env cpu ip pfAddr pfFillLevel metadata) with
    | none => none
    | some (_, c', evs) =>
      some ({ c' with stats := { c'.stats with pfIssued := c'.stats.pfIssued + 1 } }, evs)
  else some ({ c with stats := { c.stats with pfDropped := c.stats.pfDropped + 1 } }, [])

/-- `return_data`: the data for an outstanding miss arrived. -/
def returnData (p : Packet) (c : Cache) : Option Cache :=
  match c.mshr.checkMshr p.address with
  | none => none
  | some (i, e) =>
    some { c with
           mshr := c.mshr.complete i e p (addLatency cfg.latency (env.cycle p.cpu) e.eventCycle) }

/-- `invalidate_entry`. -/
def invalidateEntry (a : Addr) (c : Cache) : Cache :=
  match c.findWay cfg a with
  | none => c
  | some way =>
    { c with
      block := setBlock (cfg.getSet a) way { c.block (cfg.getSet a) way with valid := false }
        c.block }

/-- `update_rob` on this cache's `PROCESSED` queue. -/
def updateRob (cpu : ℕ) (c : Cache) : Cache :=
  match c.processed with
  | [] => c
  | p :: rest => if p.eventCycle ≤ env.cycle cpu then { c with processed := rest } else c

end Cache

end Arishem
