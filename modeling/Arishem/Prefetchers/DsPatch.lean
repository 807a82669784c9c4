import Arishem.Prefetchers.Bitmaps

/-!
# DSPatch

The dual spatial pattern prefetcher: the accesses to a page are kept in the page buffer, and when the
page leaves it, an entry of the signature prediction table learns them, relative to the first one: one
pattern for coverage and one for accuracy, a bit for each block of lines. The counts of bits are at most
64, so that a percentage in single precision, cut to an integer, is that of natural numbers; what `0/0`
is cut to is left open. The statistics are left out.
-/

namespace Arishem

namespace DsPatch

/-- `dspatch_bitmap_selection_policy`. Other numbers fail an assert. -/
inductive SelectionPolicy
  | cov
  | acc
  | hybrid

/-- The knobs. `init_knobs` asserts the bounds; a page buffer without room would give its front while it
is empty, and an index is taken modulo the number of entries. The hash is the one that is chosen. -/
structure Knobs where
  log2RegionSize : ℕ
  pbSize : ℕ
  numSptEntries : ℕ
  compressionGranularity : ℕ
  predThrottleBwThr : ℕ
  bitmapSelectionPolicy : SelectionPolicy
  getHash : UInt32 → UInt32
  orCountMax : ℕ
  measureCovPMax : ℕ
  measureAccPMax : ℕ
  accThr : ℕ
  covThr : ℕ
  enablePrefBuffer : Bool
  prefBufferSize : ℕ
  prefDegree : ℕ
  log2RegionSize_ge : 6 ≤ log2RegionSize
  log2RegionSize_le : log2RegionSize ≤ 12
  granularity_le : 1 <<< (log2RegionSize - 6) * compressionGranularity ≤ 64
  pbSize_pos : 0 < pbSize
  numSptEntries_pos : 0 < numSptEntries

/-- An entry of the page buffer. -/
structure PBEntry where
  page : UInt64
  triggerPc : UInt64
  triggerOffset : ℕ
  bmpReal : Bitmap

/-- An entry of the signature prediction table. -/
structure SPTEntry where
  bmpCov : Bitmap
  bmpAcc : Bitmap
  measureCovP : ℕ
  measureAccP : ℕ
  orCount : ℕ

/-- What a pattern was selected as. -/
inductive Candidate
  | none
  | covP
  | accP
deriving DecidableEq

end DsPatch

/-- The prefetcher. -/
structure DsPatch where
  pageBuffer : List DsPatch.PBEntry
  spt : List DsPatch.SPTEntry
  prefBuffer : List UInt64
  bwBucket : UInt8

namespace DsPatch

section
variable (k : Knobs) (nan : ℕ)

/-- `dspatch_num_cachelines_in_region`, as it is set with the size of a region. -/
def Knobs.numCachelinesInRegion : ℕ := 1 <<< (k.log2RegionSize - 6)

/-- The constructor. -/
def init : DsPatch where
  pageBuffer := []
  spt := List.replicate k.numSptEntries ⟨0, 0, 0, 0, 0⟩
  prefBuffer := []
  bwBucket := 0

/-- `incr` of a counter. -/
def incr (counter max : ℕ) : ℕ := if counter < max then counter + 1 else counter

/-- `decr` of a counter. -/
def decr (counter : ℕ) : ℕ := if 0 < counter then counter - 1 else counter

/-- `decompress` for the region. -/
def decompress (bmp : Bitmap) : Option Bitmap :=
  bmp.decompress k.compressionGranularity k.numCachelinesInRegion

/-- `compress` with its own size, that of a bitmap. -/
def compress (bmp : Bitmap) : Option Bitmap := bmp.compress k.compressionGranularity 64

/-! ## Signatures -/

/-- `folded_xor` of two folds. -/
def foldedXor (value : UInt64) : UInt32 :=
  (value &&& 0xffffffff).toUInt32 ^^^ ((value >>> 32) &&& 0xffffffff).toUInt32

/-- `create_signature`: that of type 1, the only one. -/
def createSignature (pc : UInt64) : UInt64 := pc

/-- `get_spt_index`. -/
def getSptIndex (signature : UInt64) : ℕ := (k.getHash (foldedXor signature)).toNat % k.numSptEntries

/-! ## Learning -/

/-- The counts that `add_to_spt` divides. -/
structure Counts where
  popReal : ℕ
  popCov : ℕ
  popAcc : ℕ
  sameCov : ℕ
  sameAcc : ℕ

/-- The counts of the observed lines and of two patterns. -/
def counts (real cov acc : Bitmap) : Counts where
  popReal := real.countBitsSet
  popCov := cov.countBitsSet
  popAcc := acc.countBitsSet
  sameCov := cov.countBitsSame real
  sameAcc := acc.countBitsSame real

/-- `100 * (float)same / pop`. -/
def percent (same pop : ℕ) : ℕ := if pop = 0 then nan else 100 * same / pop

/-- The observed lines, relative to the first access. -/
def anchored (pb : PBEntry) : Bitmap :=
  pb.bmpReal.rotateRight pb.triggerOffset k.numCachelinesInRegion

/-- The counters of the coverage pattern. -/
def updateCounters (e : SPTEntry) (real cov acc : Bitmap) : SPTEntry :=
  let c := counts real cov acc
  let e := if real.countBitsDiff cov ≠ 0 then { e with orCount := incr e.orCount k.orCountMax } else e
  if percent nan c.sameCov c.popCov < k.accThr ∨ percent nan c.sameCov c.popReal < k.covThr then
    { e with measureCovP := incr e.measureCovP k.measureCovPMax }
  else e

/-- The coverage pattern: it is kept or replaced when the counter is saturated. -/
def updateCov (bwBucket : UInt8) (e : SPTEntry) (real cov acc : Bitmap) : Option SPTEntry :=
  let c := counts real cov acc
  if e.measureCovP = k.measureCovPMax then
    if bwBucket = 3 ∨ percent nan c.sameCov c.popReal < 50 then
      (compress k real).map fun bmp => { e with bmpCov := bmp, orCount := 0 }
    else some e
  else (compress k (cov.bitwiseOr real)).map fun bmp => { e with bmpCov := bmp }

/-- The accuracy pattern and its counter. -/
def updateAcc (e : SPTEntry) (real cov acc : Bitmap) : Option SPTEntry :=
  let c := counts real cov acc
  let e := { e with
    measureAccP :=
      if percent nan c.sameAcc c.popAcc < 50 then incr e.measureAccP (2 ^ 32 - 1)
      else decr e.measureAccP }
  (decompress k e.bmpCov).bind fun cov =>
    (compress k (real.bitwiseAnd cov)).map fun bmp => { e with bmpAcc := bmp }

/-- What `add_to_spt` does to the entry. -/
def learn (bwBucket : UInt8) (e : SPTEntry) (real : Bitmap) : Option SPTEntry :=
  (decompress k e.bmpCov).bind fun cov =>
    (decompress k e.bmpAcc).bind fun acc =>
      (updateCov k nan bwBucket (updateCounters k nan e real cov acc) real cov acc).bind fun e =>
        updateAcc k nan e real cov acc

/-- `add_to_spt`. -/
def addToSpt (s : DsPatch) (pb : PBEntry) : Option DsPatch :=
  let index := getSptIndex k (createSignature pb.triggerPc)
  s.spt[index]?.bind fun e =>
    (learn k nan s.bwBucket e (anchored k pb)).map fun e => { s with spt := s.spt.set index e }

/-! ## Predicting -/

/-- `dyn_selection`. -/
def dynSelection (s : DsPatch) (e : SPTEntry) : Bitmap × Candidate :=
  if s.bwBucket = 3 then
    if e.measureAccP = k.measureAccPMax then (0, .none) else (e.bmpAcc, .accP)
  else if s.bwBucket = 2 then
    if e.measureCovP = k.measureCovPMax then (e.bmpAcc, .accP) else (e.bmpCov, .covP)
  else (e.bmpCov, .covP)

/-- `select_bitmap`. -/
def selectBitmap (s : DsPatch) (e : SPTEntry) : Bitmap × Candidate :=
  match k.bitmapSelectionPolicy with
  | .cov => (e.bmpCov, .covP)
  | .acc => (e.bmpAcc, .accP)
  | .hybrid => s.dynSelection k e

/-- The lines of a pattern for a first access. -/
def predicted (bmp : Bitmap) (offset : ℕ) : Option Bitmap :=
  (decompress k bmp).map fun bmp => bmp.rotateLeft offset k.numCachelinesInRegion

/-- `generate_prefetch`. -/
def generatePrefetch (s : DsPatch) (pc page : UInt64) (offset : ℕ) : Option (List UInt64) :=
  s.spt[getSptIndex k (createSignature pc)]?.bind fun e =>
    let (bmp, candidate) := s.selectBitmap k e
    (predicted k bmp offset).map fun bmp : Bitmap =>
      let bmp := if k.predThrottleBwThr ≤ s.bwBucket.toNat ∧ candidate = .accP then 0 else bmp
      ((List.range k.numCachelinesInRegion).filter fun index =>
        bmp.getLsbD index ∧ index ≠ offset).map fun index =>
          (page <<< .ofNat k.log2RegionSize) + .ofNat (index <<< 6)

/-! ## Accesses -/

/-- The page of an address. -/
def regionOf (address : UInt64) : UInt64 := address >>> .ofNat k.log2RegionSize

/-- The offset of the line in its page. -/
def lineOf (address : UInt64) : ℕ :=
  ((address >>> 6) &&& (((1 : UInt64) <<< .ofNat (k.log2RegionSize - 6)) - 1)).toNat

/-- `buffer_prefetch`. -/
def bufferPrefetch (s : DsPatch) (prefAddr : List UInt64) : DsPatch :=
  { s with prefBuffer := s.prefBuffer ++ prefAddr.take (k.prefBufferSize - s.prefBuffer.length) }

/-- `issue_prefetch`. -/
def issuePrefetch (s : DsPatch) (prefAddr : List UInt64) : DsPatch × List UInt64 :=
  ({ s with prefBuffer := s.prefBuffer.drop k.prefDegree },
    prefAddr ++ s.prefBuffer.take k.prefDegree)

/-- The page that leaves the page buffer before a new one comes in. -/
def makeRoom (s : DsPatch) : Option DsPatch :=
  if k.pbSize ≤ s.pageBuffer.length then
    s.pageBuffer.head?.bind fun pb =>
      addToSpt k nan { s with pageBuffer := s.pageBuffer.tail } pb
  else some s

/-- A page comes in, and triggers a prefetch. -/
def insertPage (s : DsPatch) (pc page : UInt64) (offset : ℕ) : Option (DsPatch × List UInt64) :=
  (s.makeRoom k nan).bind fun s : DsPatch =>
    let s := { s with
      pageBuffer := s.pageBuffer ++ [⟨page, pc, offset, Bitmap.set 0 offset true⟩] }
    (generatePrefetch k s pc page offset).map fun prefAddr =>
      if k.enablePrefBuffer then (s.bufferPrefetch k prefAddr, []) else (s, prefAddr)

/-- What `invoke_prefetcher` does before it issues from the buffer. -/
def access (s : DsPatch) (pc page : UInt64) (offset : ℕ) : Option (DsPatch × List UInt64) :=
  match s.pageBuffer.findIdx? (·.page = page) with
  | some i =>
    some ({ s with
      pageBuffer := s.pageBuffer.modify i fun pb =>
        { pb with bmpReal := pb.bmpReal.set offset true } }, [])
  | none => s.insertPage k nan pc page offset

/-- `invoke_prefetcher`. -/
def invokePrefetcher (s : DsPatch) (pc address : UInt64) : Option (DsPatch × List UInt64) :=
  (s.access k nan pc (regionOf k address) (lineOf k address)).map fun r =>
    if k.enablePrefBuffer then r.1.issuePrefetch k r.2 else r

/-- `update_bw`. Its assert allows four levels. -/
def updateBw (s : DsPatch) (bw : UInt8) : Option DsPatch :=
  if bw < 4 then some { s with bwBucket := bw } else none

end

end DsPatch

end Arishem
