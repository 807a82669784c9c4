import Arishem.Lib.Ages
import Arishem.Prefetchers.Bitmaps

/-!
# SMS

The spatial memory streaming prefetcher: a region is in the filter table after its first access, in the
accumulation table from the second one on, and the blocks that were accessed there go to the pattern
history table when it is evicted. The tables have room for an entry, the pattern history table has a
set, and a region has no more blocks than a bitmap has bits. Offsets are natural numbers. The statistics
are left out.
-/

namespace Arishem

namespace Sms

/-- The knobs. A table without room would evict from an empty one, and `search_pht` divides by the
number of sets. -/
structure Knobs where
  atSize : ℕ
  ftSize : ℕ
  phtSize : ℕ
  phtAssoc : ℕ
  prefDegree : ℕ
  regionSizeLog : ℕ
  enablePrefBuffer : Bool
  prefBufferSize : ℕ
  atSize_pos : 0 < atSize
  ftSize_pos : 0 < ftSize
  phtAssoc_pos : 0 < phtAssoc
  phtAssoc_le : phtAssoc ≤ phtSize
  regionSizeLog_ge : 6 ≤ regionSizeLog
  regionSizeLog_le : regionSizeLog ≤ 12

/-- An entry of the filter table. -/
structure FTEntry where
  page : UInt64
  pc : UInt64
  triggerOffset : ℕ

/-- An entry of the accumulation table. -/
structure ATEntry where
  page : UInt64
  pc : UInt64
  triggerOffset : ℕ
  pattern : Bitmap
  age : UInt32

/-- An entry of the pattern history table. -/
structure PHTEntry where
  signature : UInt64
  pattern : Bitmap
  age : UInt32

end Sms

/-- The prefetcher. -/
structure Sms where
  filterTable : List Sms.FTEntry
  accTable : List Sms.ATEntry
  pht : List (List Sms.PHTEntry)
  prefBuffer : List UInt64

namespace Sms

section
variable (k : Knobs)

/-- `init_knobs`. -/
def Knobs.phtSets : ℕ := k.phtSize / k.phtAssoc

/-- The constructor. -/
def init : Sms where
  filterTable := []
  accTable := []
  pht := List.replicate k.phtSets []
  prefBuffer := []

/-- The region of an address. -/
def regionOf (address : UInt64) : UInt64 := address >>> .ofNat k.regionSizeLog

/-- The offset of the block in its region. -/
def blockOf (address : UInt64) : ℕ :=
  ((address >>> 6) &&& (((1 : UInt64) <<< .ofNat (k.regionSizeLog - 6)) - 1)).toNat

/-- `create_signature`. -/
def createSignature (pc : UInt64) (offset : ℕ) : UInt64 :=
  (pc <<< .ofNat (k.regionSizeLog - 6)) + .ofNat offset

/-- The set of a signature. -/
def setOf (signature : UInt64) : ℕ := signature.toNat % k.phtSets

/-! ## The pattern history table -/

/-- `search_pht`: the set, and the place in it. -/
def searchPht (set : List PHTEntry) (signature : UInt64) : Option ℕ :=
  set.findIdx? (·.signature = signature)

/-- `search_victim_pht`. -/
def searchVictimPht (set : List PHTEntry) : ℕ := Ages.oldest (set.map (·.age))

/-- `update_age_pht`. -/
def updateAgePht (set : List PHTEntry) (current : ℕ) : List PHTEntry :=
  (set.map fun e => { e with age := e.age + 1 }).modify current fun e => { e with age := 0 }

/-- What `insert_pht_table` does to the set: on a miss all ages are set to 0. -/
def insertInSet (signature : UInt64) (pattern : Bitmap) (set : List PHTEntry) : List PHTEntry :=
  match searchPht set signature with
  | some i => updateAgePht (set.modify i fun e => { e with pattern := pattern }) i
  | none =>
    let set := if k.phtAssoc ≤ set.length then set.eraseIdx (searchVictimPht set) else set
    (set.map fun e => { e with age := 0 }) ++ [⟨signature, pattern, 0⟩]

/-- `insert_pht_table`. -/
def insertPhtTable (s : Sms) (e : ATEntry) : Sms :=
  let signature := createSignature k e.pc e.triggerOffset
  { s with pht := s.pht.modify (setOf k signature) (insertInSet k signature e.pattern) }

/-! ## The accumulation table -/

/-- `search_acc_table`. -/
def searchAccTable (s : Sms) (page : UInt64) : Option ℕ := s.accTable.findIdx? (·.page = page)

/-- `search_victim_acc_table`. -/
def searchVictimAccTable (s : Sms) : ℕ := Ages.oldest (s.accTable.map (·.age))

/-- `evict_acc_table`. -/
def evictAccTable (s : Sms) (victim : ℕ) : Sms :=
  match s.accTable[victim]? with
  | some e => { s.insertPhtTable k e with accTable := s.accTable.eraseIdx victim }
  | none => s

/-- `update_age_acc_table`. -/
def updateAgeAccTable (s : Sms) (current : ℕ) : Sms :=
  { s with
    accTable :=
      (s.accTable.map fun e => { e with age := e.age + 1 }).modify current fun e =>
        { e with age := 0 } }

/-- `insert_acc_table`. -/
def insertAccTable (s : Sms) (e : FTEntry) (offset : ℕ) : Sms :=
  let s := if k.atSize ≤ s.accTable.length then s.evictAccTable k s.searchVictimAccTable else s
  { s with
    accTable := (s.accTable.map fun e => { e with age := e.age + 1 }) ++
      [⟨e.page, e.pc, e.triggerOffset,
        (Bitmap.set 0 e.triggerOffset true).set offset true, 0⟩] }

/-! ## The filter table -/

/-- `search_filter_table`. -/
def searchFilterTable (s : Sms) (page : UInt64) : Option ℕ :=
  s.filterTable.findIdx? (·.page = page)

/-- `evict_filter_table`. -/
def evictFilterTable (s : Sms) (victim : ℕ) : Sms :=
  { s with filterTable := s.filterTable.eraseIdx victim }

/-- `insert_filter_table`: the victim is the first entry. -/
def insertFilterTable (s : Sms) (pc page : UInt64) (offset : ℕ) : Sms :=
  let s := if k.ftSize ≤ s.filterTable.length then s.evictFilterTable 0 else s
  { s with filterTable := s.filterTable ++ [⟨page, pc, offset⟩] }

/-! ## Prefetches -/

/-- `generate_prefetch`. -/
def generatePrefetch (s : Sms) (pc page : UInt64) (offset : ℕ) : Sms × List UInt64 :=
  let signature := createSignature k pc offset
  let set := s.pht.getD (setOf k signature) []
  match searchPht set signature with
  | none => (s, [])
  | some i =>
    match set[i]? with
    | none => (s, [])
    | some e =>
      ({ s with pht := s.pht.modify (setOf k signature) (updateAgePht · i) },
        ((List.range 64).filter fun index => e.pattern.getLsbD index ∧ offset ≠ index).map
          fun index => (page <<< .ofNat k.regionSizeLog) + .ofNat (index <<< 6))

/-- `buffer_prefetch`. -/
def bufferPrefetch (s : Sms) (prefAddr : List UInt64) : Sms :=
  { s with prefBuffer := s.prefBuffer ++ prefAddr.take (k.prefBufferSize - s.prefBuffer.length) }

/-- `issue_prefetch`. -/
def issuePrefetch (s : Sms) (prefAddr : List UInt64) : Sms × List UInt64 :=
  ({ s with prefBuffer := s.prefBuffer.drop k.prefDegree },
    prefAddr ++ s.prefBuffer.take k.prefDegree)

/-- What `invoke_prefetcher` does before it issues from the buffer. -/
def access (s : Sms) (pc page : UInt64) (offset : ℕ) : Sms × List UInt64 :=
  match s.searchAccTable page with
  | some i =>
    ({ s with
      accTable := s.accTable.modify i fun e => { e with pattern := e.pattern.set offset true }
      }.updateAgeAccTable i, [])
  | none =>
    match s.searchFilterTable page with
    | some i =>
      match s.filterTable[i]? with
      | some e => ((s.insertAccTable k e offset).evictFilterTable i, [])
      | none => (s, [])
    | none =>
      let (s, prefAddr) := (s.insertFilterTable k pc page offset).generatePrefetch k pc page offset
      if k.enablePrefBuffer then (s.bufferPrefetch k prefAddr, []) else (s, prefAddr)

/-- `invoke_prefetcher`. -/
def invokePrefetcher (s : Sms) (pc address : UInt64) : Sms × List UInt64 :=
  let (s, prefAddr) := s.access k pc (regionOf k address) (blockOf k address)
  if k.enablePrefBuffer then s.issuePrefetch k prefAddr else (s, prefAddr)

end

end Sms

end Arishem
