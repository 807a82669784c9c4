import Arishem.Prefetchers.LruCache
import Mathlib.Data.Int.Notation

/-!
# The spatial prefetcher Bingo

A region enters the filter table with its first access, and a second block moves it to the accumulation
table, which collects the blocks of its generation. The pattern of a generation that ends goes to the
pattern history table under its program counter and address; a later first access finds it there, by
the whole key or by the offset only. A streamer issues what was found, near blocks first.
-/

namespace Arishem

namespace Bingo

open SetAssociativeCache

def fillL1 : ℕ := 1
def fillL2 : ℕ := 2
def fillLlc : ℕ := 4

/-- The knobs, with the shapes of the tables. A threshold tells of a count and a number of voters whether
the share reaches it. -/
structure Knobs where
  patternLen : ℕ
  pcWidth : ℕ
  minAddrWidth : ℕ
  maxAddrWidth : ℕ
  filterTable : Geometry
  accumulationTable : Geometry
  pht : Geometry
  pfStreamer : Geometry
  pcAddressFillLevel : ℕ
  l1dThresh : ℕ → ℕ → Bool
  l2cThresh : ℕ → ℕ → Bool
  llcThresh : ℕ → ℕ → Bool
  patternLen_pos : 0 < patternLen

/-- `FilterTableData`. -/
structure FilterTableData where
  pc : ℕ
  offset : ℕ

/-- `AccumulationTableData`. -/
structure AccumulationTableData where
  pc : ℕ
  offset : ℕ
  pattern : List Bool

abbrev FilterTable := LruCache FilterTableData
abbrev AccumulationTable := LruCache AccumulationTableData
abbrev PatternHistoryTable := LruCache (List Bool)
abbrev PrefetchStreamer := LruCache (List ℕ)

/-! ## The pattern history table -/

/-- `my_rotate`. -/
def myRotate (x : List Bool) (n : ℤ) : List Bool :=
  let len := x.length
  let n := n.tmod len
  (List.range len).map fun i : ℕ => x.getD (((i : ℤ) - n + len).tmod len).toNat false

/-- `PatternHistoryTable::build_key`: the index is computed from the program counter and the offset. -/
def phtKey (k : Knobs) (pc address : ℕ) : ℕ :=
  let pc := pc % 2 ^ k.pcWidth
  let address := address % 2 ^ k.maxAddrWidth
  let offset := address % 2 ^ k.minAddrWidth
  let base := address >>> k.minAddrWidth
  let indexKey := hashIndex ((pc <<< k.minAddrWidth) ||| offset) k.pht.indexLen
  (base <<< (k.pcWidth + k.minAddrWidth)) ||| indexKey

/-- `PatternHistoryTable::insert`. -/
def phtInsert (k : Knobs) (pht : PatternHistoryTable) (pc address : ℕ) (pattern : List Bool) :
    PatternHistoryTable :=
  (pht.put k.pht (phtKey k pc address)
    (myRotate pattern (-((address % k.patternLen : ℕ) : ℤ)))).1

/-- The outcomes of a lookup. -/
inductive Event where
  | pcAddress
  | pcOffset
  | miss
  deriving DecidableEq, Repr

/-- The loop over the ways of `PatternHistoryTable::find`. -/
def scanWays (k : Knobs) (pht : PatternHistoryTable) (index tag : ℕ) :
    List ℕ → List (List Bool) → Event → PatternHistoryTable × List (List Bool) × Event
  | [], found, lastEvent => (pht, found, lastEvent)
  | way :: ways, found, lastEvent =>
    let e := pht.entries index way
    let minTag := 2 ^ (k.pcWidth + k.minAddrWidth - k.pht.indexLen)
    let maxTag := 2 ^ (k.pcWidth + k.maxAddrWidth - k.pht.indexLen)
    if e.valid = false then scanWays k pht index tag ways found lastEvent
    else if e.tag % maxTag = tag % maxTag then (pht.setMru k.pht e.key, [e.data], .pcAddress)
    else if e.tag % minTag = tag % minTag then
      scanWays k pht index tag ways (found ++ [e.data]) .pcOffset
    else scanWays k pht index tag ways found lastEvent

/-- `PatternHistoryTable::find`. -/
def phtFind (k : Knobs) (pht : PatternHistoryTable) (pc address : ℕ) :
    PatternHistoryTable × List (List Bool) × Event :=
  let key := phtKey k pc address
  let (pht, found, lastEvent) := scanWays k pht (key % k.pht.numSets) (key / k.pht.numSets)
    (List.range k.pht.numWays) [] .miss
  (pht, found.map fun pattern => myRotate pattern ((address % k.patternLen : ℕ) : ℤ), lastEvent)

/-- `vote`. The code goes through the blocks once for each voter, with the same result. -/
def vote (k : Knobs) (x : List (List Bool)) : List ℕ :=
  let n := x.length
  if n = 0 then []
  else
    let res := (List.range k.patternLen).map fun i =>
      let cnt := x.countP fun pattern => pattern.getD i false
      if k.l1dThresh cnt n then fillL1
      else if k.l2cThresh cnt n then fillL2
      else if k.llcThresh cnt n then fillLlc
      else 0
    if res.any (· ≠ 0) then res else []

/-- The levels of the blocks of a region, from what was found; no levels when there is nothing. -/
def levels (k : Knobs) (found : List (List Bool)) : Event → List ℕ
  | .pcAddress => (List.range k.patternLen).map fun i =>
      if (found.headD []).getD i false then k.pcAddressFillLevel else 0
  | .pcOffset => vote k found
  | .miss => []

/-- `find_in_pht`. -/
def findInPht (k : Knobs) (pht : PatternHistoryTable) (pc address : ℕ) :
    PatternHistoryTable × List ℕ :=
  let (pht, found, lastEvent) := phtFind k pht pc address
  (pht, levels k found lastEvent)

/-! ## The filter and accumulation tables -/

/-- `build_key` of the filter table and the accumulation table. -/
def regionKey (k : Geometry) (regionNumber : ℕ) : ℕ := hashIndex (regionNumber % 2 ^ 37) k.indexLen

/-- `AccumulationTable::set_pattern`. -/
def setPattern (k : Knobs) (acc : AccumulationTable) (regionNumber offset : ℕ) :
    AccumulationTable × Bool :=
  let key := regionKey k.accumulationTable regionNumber
  match acc.data? k.accumulationTable key with
  | none => (acc, false)
  | some _ =>
    ((acc.modify k.accumulationTable key fun data =>
      { data with pattern := data.pattern.set offset true }).setMru k.accumulationTable key, true)

/-- `AccumulationTable::insert`. -/
def accInsert (k : Knobs) (acc : AccumulationTable) (regionNumber pc offset : ℕ) :
    AccumulationTable × Entry AccumulationTableData :=
  acc.put k.accumulationTable (regionKey k.accumulationTable regionNumber)
    ⟨pc, offset, (List.replicate k.patternLen false).set offset true⟩

/-- `insert_in_pht`. -/
def insertInPht (k : Knobs) (pht : PatternHistoryTable) (entry : Entry AccumulationTableData) :
    PatternHistoryTable :=
  let regionNumber := hashIndex entry.key k.accumulationTable.indexLen
  phtInsert k pht entry.data.pc (regionNumber * k.patternLen + entry.data.offset) entry.data.pattern

end Bingo

/-- The tables. -/
structure Bingo where
  filterTable : Bingo.FilterTable
  accumulationTable : Bingo.AccumulationTable
  pht : Bingo.PatternHistoryTable
  pfStreamer : Bingo.PrefetchStreamer

namespace Bingo

open SetAssociativeCache

/-- What is seen of a call: a pattern that is given to the streamer, and the prefetches. -/
inductive Output where
  | predict (regionNumber : ℕ) (pattern : List ℕ)
  | prefetch (blockNumber level : ℕ)
  deriving DecidableEq, Repr

/-- The constructor. -/
def init : Bingo where
  filterTable := .init ⟨0, 0⟩
  accumulationTable := .init ⟨0, 0, []⟩
  pht := .init []
  pfStreamer := .init []

/-- The first access of a region. -/
def trigger (k : Knobs) (s : Bingo) (blockNumber pc : ℕ) : Bingo × List Output :=
  let regionNumber := blockNumber / k.patternLen
  let filterTable := (s.filterTable.put k.filterTable (regionKey k.filterTable regionNumber)
    ⟨pc, blockNumber % k.patternLen⟩).1
  let (pht, pattern) := findInPht k s.pht pc blockNumber
  if pattern.isEmpty then ({ s with filterTable := filterTable, pht := pht }, [])
  else
    let pfStreamer :=
      (s.pfStreamer.put k.pfStreamer (hashIndex regionNumber k.pfStreamer.indexLen) pattern).1
    ({ s with filterTable := filterTable, pht := pht, pfStreamer := pfStreamer },
      [.predict regionNumber pattern])

/-- A region moves from the filter table to the accumulation table. -/
def promote (k : Knobs) (s : Bingo) (entry : Entry FilterTableData) (regionOffset : ℕ) : Bingo :=
  let regionNumber := hashIndex entry.key k.filterTable.indexLen
  let (acc, victim) := accInsert k s.accumulationTable regionNumber entry.data.pc entry.data.offset
  let (acc, _) := setPattern k acc regionNumber regionOffset
  let (filterTable, _) := s.filterTable.erase k.filterTable (regionKey k.filterTable regionNumber)
  { s with
    filterTable := filterTable
    accumulationTable := acc
    pht := if victim.valid then insertInPht k s.pht victim else s.pht }

/-- `access`. -/
def access (k : Knobs) (s : Bingo) (blockNumber pc : ℕ) : Bingo × List Output :=
  let regionNumber := blockNumber / k.patternLen
  let regionOffset := blockNumber % k.patternLen
  let (acc, success) := setPattern k s.accumulationTable regionNumber regionOffset
  if success then ({ s with accumulationTable := acc }, [])
  else
    let key := regionKey k.filterTable regionNumber
    match s.filterTable.find k.filterTable key with
    | none => s.trigger k blockNumber pc
    | some way =>
      let entry := s.filterTable.entries (key % k.filterTable.numSets) way
      let s := { s with filterTable := s.filterTable.setMru k.filterTable key }
      (if entry.data.offset ≠ regionOffset then s.promote k entry regionOffset else s, [])

/-- `eviction`. -/
def eviction (k : Knobs) (s : Bingo) (blockNumber : ℕ) : Bingo :=
  let regionNumber := blockNumber / k.patternLen
  let (filterTable, _) := s.filterTable.erase k.filterTable (regionKey k.filterTable regionNumber)
  let (acc, entry) := s.accumulationTable.erase k.accumulationTable
    (regionKey k.accumulationTable regionNumber)
  { s with
    filterTable := filterTable
    accumulationTable := acc
    pht := match entry with
      | some entry => insertInPht k s.pht entry
      | none => s.pht }

/-! ## The streamer -/

/-- The offsets in the order of their distance, the next block before the previous one. -/
def nearFirst (k : Knobs) (regionOffset : ℕ) : List ℤ :=
  (List.range' 1 (k.patternLen - 1)).flatMap fun d : ℕ =>
    [(regionOffset : ℤ) + d, (regionOffset : ℤ) - d]

/-- The loop of `PrefetchStreamer::prefetch`, with the pattern, the prefetches, and whether the queues
had no more room. -/
def stream (k : Knobs) (queues : ℕ → Queues) (regionNumber : ℕ) :
    List ℤ → List ℕ → List (ℕ × ℕ) → List ℕ × List (ℕ × ℕ) × Bool
  | [], pattern, issued => (pattern, issued, false)
  | pfOffset :: rest, pattern, issued =>
    if (0 ≤ pfOffset ∧ pfOffset < k.patternLen) ∧ 0 < pattern.getD pfOffset.toNat 0 then
      if (queues issued.length).room then
        stream k queues regionNumber rest (pattern.set pfOffset.toNat 0)
          (issued ++ [(regionNumber * k.patternLen + pfOffset.toNat, pattern.getD pfOffset.toNat 0)])
      else (pattern, issued, true)
    else stream k queues regionNumber rest pattern issued

/-- `PrefetchStreamer::prefetch`. -/
def prefetch (k : Knobs) (queues : ℕ → Queues) (streamer : PrefetchStreamer) (blockAddress : ℕ) :
    PrefetchStreamer × List (ℕ × ℕ) :=
  let regionOffset := blockAddress % k.patternLen
  let regionNumber := blockAddress / k.patternLen
  let key := hashIndex regionNumber k.pfStreamer.indexLen
  match streamer.data? k.pfStreamer key with
  | none => (streamer, [])
  | some pattern =>
    let streamer := streamer.setMru k.pfStreamer key
    let (pattern, issued, limited) :=
      stream k queues regionNumber (nearFirst k regionOffset) (pattern.set regionOffset 0) []
    let streamer := streamer.modify k.pfStreamer key fun _ => pattern
    if limited then (streamer, issued)
    else ((streamer.erase k.pfStreamer key).1, issued)

/-! ## Calls -/

/-- `invoke_prefetcher` on a load. -/
def invokePrefetcher (k : Knobs) (queues : ℕ → Queues) (s : Bingo) (pc blockNumber : ℕ) :
    Bingo × List Output :=
  let (s, predicted) := s.access k blockNumber pc
  let (pfStreamer, issued) := prefetch k queues s.pfStreamer blockNumber
  ({ s with pfStreamer := pfStreamer },
    predicted ++ issued.map fun r => .prefetch r.1 r.2)

/-- The calls of the cache: the loads, and the fills that evict a block. -/
inductive Call where
  | load (queues : ℕ → Queues) (pc blockNumber : ℕ)
  | fill (evictedBlockNumber : ℕ)

/-- A call. -/
def call (k : Knobs) (s : Bingo) : Call → Bingo × List Output
  | .load queues pc blockNumber => s.invokePrefetcher k queues pc blockNumber
  | .fill evictedBlockNumber => (s.eviction k evictedBlockNumber, [])

end Bingo

end Arishem
