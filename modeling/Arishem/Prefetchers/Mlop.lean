import Arishem.Prefetchers.LruCache
import Mathlib.Data.Int.Notation

/-!
# The multi-lookahead offset prefetcher

A table has a map of the blocks of each recent zone. A trigger access gives a point to each offset that
would have prefetched it, for each number of accesses that the prefetch could have been ahead; after
a round the best offsets of each degree are selected.
-/

namespace Arishem

namespace Mlop

open SetAssociativeCache

/-- The blocks of a zone. -/
def blocksInZone : ℕ := 64

def fillL2 : ℕ := 2
def fillLlc : ℕ := 4

/-- The knobs, with the thresholds in updates, and the shape of the table. There is a degree, and a
round has an update. -/
structure Knobs where
  prefDegree : ℕ
  numUpdates : ℕ
  l2cThresh : ℕ
  llcThresh : ℕ
  shape : Geometry
  prefDegree_pos : 0 < prefDegree
  numUpdates_pos : 0 < numUpdates

/-- `MLOP_State`. -/
inductive BlockState where
  | init
  | access
  | preftch
  deriving DecidableEq, Repr

/-- `AccessMapData`. -/
structure AccessMapData where
  accessMap : ℕ → BlockState
  prefetchMap : ℕ → ℕ
  histQueue : List ℕ

/-- `AccessMapTable`. -/
abbrev AccessMapTable := LruCache AccessMapData

/-! ## The access map table -/

/-- `build_key`. -/
def buildKey (k : Knobs) (zoneNumber : ℕ) : ℕ :=
  hashIndex zoneNumber k.shape.indexLen

/-- The data of a new zone. -/
def AccessMapData.fresh : AccessMapData := ⟨fun _ => .init, fun _ => 0, []⟩

/-- A block goes to a state; an access is also pushed to the queue. -/
def AccessMapData.set (k : Knobs) (zoneOffset : ℕ) (newState : BlockState) (newFillLevel : ℕ)
    (d : AccessMapData) : AccessMapData where
  accessMap := Function.update d.accessMap zoneOffset newState
  prefetchMap := Function.update d.prefetchMap zoneOffset newFillLevel
  histQueue :=
    if newState = .access then
      -- `queue_size` is `PF_DEGREE - 1`
      if k.prefDegree - 1 < d.histQueue.length + 1 then (zoneOffset :: d.histQueue).dropLast
      else zoneOffset :: d.histQueue
    else d.histQueue

/-- Every block is in state `INIT`. -/
def AccessMapData.allInit (d : AccessMapData) : Bool :=
  (List.range blocksInZone).all fun i => d.accessMap i = .init

/-- `set_state`. -/
def setState (k : Knobs) (amt : AccessMapTable) (blockNumber : ℕ) (newState : BlockState)
    (newFillLevel : ℕ) : AccessMapTable :=
  let key := buildKey k (blockNumber / blocksInZone)
  let zoneOffset := blockNumber % blocksInZone
  let found := (amt.find k.shape key).isSome
  if !found && newState = .init then amt
  else
    let amt := if found then amt else (amt.insert k.shape key .fresh).1
    let amt := if newState = .access then amt.setMru k.shape key else amt
    let amt := amt.modify k.shape key (.set k zoneOffset newState newFillLevel)
    -- an entry of which all blocks are in state `INIT` is deleted
    if newState = .init && (amt.data? k.shape key).any (·.allInit) then (amt.erase k.shape key).1
    else amt

/-! ## Scores -/

/-- Each accessed block gives a point to the offset that leads from it to the trigger. -/
def addScores (zoneOffset : ℕ) (accessMap : ℕ → BlockState) (scores : ℤ → ℕ) : ℤ → ℕ :=
  (List.range blocksInZone).foldl (fun scores i =>
    if accessMap i = .access then
      let offset : ℤ := zoneOffset - i
      if -63 ≤ offset ∧ offset ≤ 63 ∧ offset ≠ 0 then
        Function.update scores offset (scores offset + 1)
      else scores
    else scores) scores

/-- The latest `d` accesses are unmarked in the copy of the map. -/
def unmark (queue : List ℕ) (accessMap : ℕ → BlockState) : ℕ → ℕ → BlockState
  | 0 => accessMap
  | d + 1 => Function.update (unmark queue accessMap d) (queue.getD d 0) .init

/-- The loop over the degrees. -/
def updateScores (zoneOffset : ℕ) (data : AccessMapData) (scores : ℕ → ℤ → ℕ) : ℕ → ℤ → ℕ :=
  (List.range (data.histQueue.length + 1)).foldl (fun scores d =>
    Function.update scores d
      (addScores zoneOffset (unmark data.histQueue data.accessMap d) (scores d))) scores

/-! ## Rounds -/

/-- The offsets, from `MIN_OFFSET` to `MAX_OFFSET`. -/
def offsets : List ℤ := (List.range 127).map fun i : ℕ => (i : ℤ) - 63

/-- `max_element` of the scores. -/
def maxScore (scores : ℤ → ℕ) : ℕ := (offsets.map scores).foldl max 0

/-- The offsets of each degree with their level, and the offsets that were selected. -/
structure Selection where
  pfLevel : ℕ → ℕ
  pfOffset : ℕ → List ℤ
  pfOffsetMap : ℤ → Bool

/-- One degree of the selection. -/
def Selection.step (k : Knobs) (scores : ℕ → ℤ → ℕ) (r : Selection) (d : ℕ) : Selection :=
  let max := maxScore (scores d)
  if k.l2cThresh ≤ max ∨ k.llcThresh ≤ max then
    let fillLevel := if k.l2cThresh ≤ max then fillL2 else fillLlc
    let bestOffsets := offsets.filter fun i => scores d i = max && !r.pfOffsetMap i
    { pfLevel := Function.update r.pfLevel d fillLevel
      pfOffset := Function.update r.pfOffset d bestOffsets
      pfOffsetMap := fun i => r.pfOffsetMap i || bestOffsets.contains i }
  else r

/-- The selection at the end of a round, from the last degree to the first. -/
def select (k : Knobs) (scores : ℕ → ℤ → ℕ) : Selection :=
  (List.range k.prefDegree).reverse.foldl (Selection.step k scores)
    ⟨fun _ => 0, fun _ => [], fun _ => false⟩

end Mlop

/-- The state of the prefetcher. -/
structure Mlop where
  accessMapTable : Mlop.AccessMapTable
  pfOffset : ℕ → List ℤ
  pfLevel : ℕ → ℕ
  offsetScores : ℕ → ℤ → ℕ
  updateCnt : ℕ

namespace Mlop

open SetAssociativeCache

/-- The constructor. -/
def init : Mlop where
  accessMapTable := .init .fresh
  pfOffset := fun _ => []
  pfLevel := fun _ => 0
  offsetScores := fun _ _ => 0
  updateCnt := 0

/-- The end of a round. -/
def finishRound (k : Knobs) (s : Mlop) : Mlop :=
  let r := select k s.offsetScores
  { s with
    pfOffset := r.pfOffset
    pfLevel := r.pfLevel
    offsetScores := fun _ _ => 0
    updateCnt := 0 }

/-- `access`, on a trigger access. -/
def access (k : Knobs) (s : Mlop) (blockNumber : ℕ) : Mlop :=
  let zoneOffset := blockNumber % blocksInZone
  match s.accessMapTable.data? k.shape (buildKey k (blockNumber / blocksInZone)) with
  | none => s
  | some data =>
    if data.accessMap zoneOffset = .access then s
    else
      let s := { s with
        updateCnt := s.updateCnt + 1
        offsetScores := updateScores zoneOffset data s.offsetScores }
      if s.updateCnt = k.numUpdates then s.finishRound k else s

/-- `mark`. -/
def mark (k : Knobs) (s : Mlop) (blockNumber : ℕ) (state : BlockState) (fillLevel : ℕ) : Mlop :=
  { s with accessMapTable := setState k s.accessMapTable blockNumber state fillLevel }

/-! ## Prefetches -/

/-- What a call reads of its surroundings: the queues after each number of prefetches that it issued,
and what the maps seem to have for the offsets outside a zone, which are read out of bounds. -/
structure Surroundings where
  queues : ℕ → Queues
  outside : ℤ → BlockState × ℕ

/-- An element of the maps. -/
def AccessMapData.read (env : Surroundings) (d : AccessMapData) (offset : ℤ) : BlockState × ℕ :=
  if 0 ≤ offset ∧ offset < blocksInZone then (d.accessMap offset.toNat, d.prefetchMap offset.toNat)
  else env.outside offset

/-- One offset in `prefetch`, with the blocks and levels of the prefetches that were issued. -/
def prefetchOne (k : Knobs) (env : Surroundings) (blockNumber level : ℕ) (curPfOffset : ℤ) :
    Mlop × List (ℕ × ℕ) → Option (Mlop × List (ℕ × ℕ))
  | (s, issued) =>
    let zoneNumber := blockNumber / blocksInZone
    let offsetToPrefetch : ℤ := (blockNumber % blocksInZone : ℕ) + curPfOffset
    -- the maps are those of the entry, with the marks of this call
    (s.accessMapTable.data? k.shape (buildKey k zoneNumber)).map fun data =>
      let (state, pfLevel) := data.read env offsetToPrefetch
      if state = .access then (s, issued)
      else if state = .preftch ∧ pfLevel ≤ level then (s, issued)
      else if (0 ≤ offsetToPrefetch ∧ offsetToPrefetch < blocksInZone) ∧
          (env.queues issued.length).room then
        let pfBlockNumber := (blockNumber + curPfOffset).toNat
        (s.mark k pfBlockNumber .preftch level, issued ++ [(pfBlockNumber, level)])
      else (s, issued)

/-- `prefetch`; there is no result when the zone has no entry. -/
def prefetch (k : Knobs) (env : Surroundings) (s : Mlop) (blockNumber : ℕ) :
    Option (Mlop × List (ℕ × ℕ)) :=
  (s.accessMapTable.data? k.shape (buildKey k (blockNumber / blocksInZone))).bind fun _ =>
    (List.range k.prefDegree).foldlM (fun r d =>
      (s.pfOffset d).foldlM (fun r curPfOffset =>
        prefetchOne k env blockNumber (s.pfLevel d) curPfOffset r) r) (s, [])

/-- `invoke_prefetcher` on a load. -/
def invokePrefetcher (k : Knobs) (env : Surroundings) (s : Mlop) (blockNumber : ℕ)
    (triggerAccess : Bool) : Option (Mlop × List (ℕ × ℕ)) :=
  let s := if triggerAccess then s.access k blockNumber else s
  (s.mark k blockNumber .access 0).prefetch k env blockNumber

/-- `register_fill` when a block is evicted. -/
def registerFill (k : Knobs) (s : Mlop) (evictedBlockNumber : ℕ) : Mlop :=
  s.mark k evictedBlockNumber .init 0

end Mlop

end Arishem
