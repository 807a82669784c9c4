import Arishem.Lib.Argmax
import Arishem.Lib.LruTable
import Arishem.Prefetchers.Signatures
import Mathlib.Algebra.BigOperators.Group.Finset.Basic
import Mathlib.Algebra.Order.BigOperators.Group.Finset

/-!
# The tables of SPP

The signature table keeps a signature for each of the pages that were accessed last, the pattern table
counts the deltas that followed a signature, the filter remembers what was prefetched, and the global
register keeps the prefetches that left their page. Each operation is refused where the code's assert
fails or an array would be indexed out of its bounds. The signature table has one set, so that its
number is left out.
-/

namespace Arishem

namespace Spp

/-! ## Parameters -/

def stWay : ℕ := 256
def ptSet : ℕ := 512
def ptWay : ℕ := 4
def cSigMax : ℕ := 15
def filterSet : ℕ := 1024
def globalCounterMax : ℕ := 1023
def maxGhrEntry : ℕ := 8

/-- `get_hash`. -/
def getHash (key : UInt64) : UInt64 :=
  let key := key + (key <<< 12)
  let key := key ^^^ (key >>> 22)
  let key := key + (key <<< 4)
  let key := key ^^^ (key >>> 9)
  let key := key + (key <<< 10)
  let key := key ^^^ (key >>> 2)
  let key := key + (key <<< 7)
  let key := key ^^^ (key >>> 12)
  (key >>> 3) * 2654435761

/-- The signature after a delta, in seven bits of sign and magnitude. -/
def nextSig (sig : ℕ) (delta : ℤ) : ℕ :=
  let sigDelta := if delta < 0 then (-delta).toNat + (1 <<< 6) else delta.toNat
  ((sig <<< 3) ^^^ sigDelta) &&& 0xfff

/-! ## The global register -/

structure GhrEntry where
  valid : Bool
  sig : ℕ
  confidence : ℕ
  offset : ℕ
  delta : ℤ

/-- `GLOBAL_REGISTER`. -/
structure GlobalRegister where
  pfUseful : ℕ
  pfIssued : ℕ
  globalAccuracy : ℕ
  entry : ℕ → GhrEntry

namespace GlobalRegister

def init : GlobalRegister where
  pfUseful := 0
  pfIssued := 0
  globalAccuracy := 0
  entry := fun _ => ⟨false, 0, 0, 0, 0⟩

/-- The victim of `update_entry`: the first entry of the lowest confidence below 100. -/
def victimWay (g : GlobalRegister) : ℕ :=
  (Argmax.scanMin (fun i => (g.entry i).confidence) (100, maxGhrEntry) (List.range maxGhrEntry)).2

/-- `update_entry`. -/
def updateEntry (g : GlobalRegister) (pfSig pfConfidence pfOffset : ℕ) (pfDelta : ℤ) :
    Option GlobalRegister :=
  match (List.range maxGhrEntry).find? fun i => (g.entry i).valid && (g.entry i).offset == pfOffset with
  | some i =>
    let e := { g.entry i with sig := pfSig, confidence := pfConfidence, delta := pfDelta }
    some { g with entry := Function.update g.entry i e }
  | none =>
    if maxGhrEntry ≤ g.victimWay then none
    else
      let e := ⟨true, pfSig, pfConfidence, pfOffset, pfDelta⟩
      some { g with entry := Function.update g.entry g.victimWay e }

/-- `check_entry`, which does not look at the valid bits. -/
def checkEntry (g : GlobalRegister) (pageOffset : ℕ) : ℕ :=
  ((List.range maxGhrEntry).foldl (fun (best : ℕ × ℕ) i =>
    if (g.entry i).offset = pageOffset ∧ best.1 < (g.entry i).confidence
    then ((g.entry i).confidence, i) else best) (0, maxGhrEntry)).2

end GlobalRegister

/-! ## The signature table -/

/-- `SIGNATURE_TABLE`. -/
structure SignatureTable where
  valid : ℕ → Bool
  tag : ℕ → ℕ
  lastOffset : ℕ → ℕ
  sig : ℕ → ℕ
  lru : ℕ → ℕ

/-- What `read_and_update_sig` hands to the other stages. -/
structure SigRead where
  lastSig : ℕ
  currSig : ℕ
  delta : ℤ

/-- The tag of a page. -/
def partialPage (page : UInt64) : ℕ := (page &&& 0xffff).toNat

namespace SignatureTable

def init : SignatureTable where
  valid := fun _ => false
  tag := fun _ => 0
  lastOffset := fun _ => 0
  sig := fun _ => 0
  lru := fun way => way

/-- The loop that makes room for the most recent way, with its assert. -/
def promoteLoop (mru : ℕ) (ways : List ℕ) (lru : ℕ → ℕ) : Option (ℕ → ℕ) :=
  ways.foldlM (fun r way =>
    if r way < r mru then
      if stWay ≤ r way + 1 then none else some (Function.update r way (r way + 1))
    else some r) lru

/-- The update of the LRU order. -/
def promote (t : SignatureTable) (mru : ℕ) : Option SignatureTable :=
  (promoteLoop mru (List.range stWay) t.lru).map fun lru =>
    { t with lru := Function.update lru mru 0 }

/-- Give a way to a page. -/
def place (t : SignatureTable) (way tag pageOffset : ℕ) : SignatureTable :=
  { t with
    valid := Function.update t.valid way true
    tag := Function.update t.tag way tag
    sig := Function.update t.sig way 0
    lastOffset := Function.update t.lastOffset way pageOffset }

/-- The way for a page that is not in the table: an invalid one, or the least recently used one. -/
def findWay (t : SignatureTable) : Option ℕ :=
  match (List.range stWay).find? fun way => !t.valid way with
  | some way => some way
  | none => (List.range stWay).find? fun way => t.lru way == stWay - 1

/-- The way of a page. -/
def hitWay (t : SignatureTable) (tag : ℕ) : Option ℕ :=
  (List.range stWay).find? fun way => t.valid way && t.tag way == tag

/-- A hit: the signature moves by the delta, and a zero delta leaves it and reads none. -/
def hit (t : SignatureTable) (way pageOffset : ℕ) : SignatureTable × SigRead :=
  let delta : ℤ := pageOffset - t.lastOffset way
  if delta ≠ 0 then
    let sig := nextSig (t.sig way) delta
    ({ t with
      sig := Function.update t.sig way sig
      lastOffset := Function.update t.lastOffset way pageOffset }, ⟨t.sig way, sig, delta⟩)
  else (t, ⟨0, 0, 0⟩)

/-- A miss: the global register may know a prefetch that left its page for this offset. -/
def miss (t : SignatureTable) (ghr : GlobalRegister) (way tag pageOffset : ℕ) :
    SignatureTable × SigRead :=
  let t := t.place way tag pageOffset
  let found := ghr.checkEntry pageOffset
  if found < maxGhrEntry then
    let sig := nextSig (ghr.entry found).sig (ghr.entry found).delta
    ({ t with sig := Function.update t.sig way sig }, ⟨0, sig, 0⟩)
  else (t, ⟨0, 0, 0⟩)

/-- `read_and_update_sig`. -/
def readAndUpdateSig (t : SignatureTable) (ghr : GlobalRegister) (page : UInt64) (pageOffset : ℕ) :
    Option (SignatureTable × SigRead) :=
  match t.hitWay (partialPage page) with
  | some way =>
    let (t, r) := t.hit way pageOffset
    (t.promote way).map fun t => (t, r)
  | none =>
    match t.findWay with
    | some way =>
      let (t, r) := t.miss ghr way (partialPage page) pageOffset
      (t.promote way).map fun t => (t, r)
    | none => none

end SignatureTable

/-! ## The pattern table -/

/-- A set of `PATTERN_TABLE`. -/
structure PatternSet where
  delta : ℕ → ℤ
  cDelta : ℕ → ℕ
  cSig : ℕ

namespace PatternSet

def init : PatternSet where
  delta := fun _ => 0
  cDelta := fun _ => 0
  cSig := 0

/-- Count the signature, and halve all counters of the set when it is full. -/
def countSig (s : PatternSet) : PatternSet :=
  if cSigMax < s.cSig + 1 then
    { s with cDelta := fun way => s.cDelta way >>> 1, cSig := (s.cSig + 1) >>> 1 }
  else { s with cSig := s.cSig + 1 }

/-- The victim: the first way of the lowest counter below the maximum. -/
def victimWay (s : PatternSet) : ℕ :=
  (Argmax.scanMin s.cDelta (cSigMax, ptWay) (List.range ptWay)).2

/-- What `update_pattern` does to the set. -/
def update (s : PatternSet) (currDelta : ℤ) : Option PatternSet :=
  match (List.range ptWay).find? fun way => s.delta way == currDelta with
  | some way => some { s with cDelta := Function.update s.cDelta way (s.cDelta way + 1) }.countSig
  | none =>
    if s.victimWay = ptWay then none
    else some { s with
      delta := Function.update s.delta s.victimWay currDelta
      cDelta := Function.update s.cDelta s.victimWay 0 }.countSig

end PatternSet

/-- The set of a signature. -/
def ptIndex (sig : ℕ) : ℕ := (getHash (.ofNat sig)).toNat % ptSet

/-- `update_pattern`. -/
def updatePattern (pt : ℕ → PatternSet) (lastSig : ℕ) (currDelta : ℤ) : Option (ℕ → PatternSet) :=
  ((pt (ptIndex lastSig)).update currDelta).map (Function.update pt (ptIndex lastSig))

/-! ## The filter -/

structure FilterEntry where
  remainderTag : ℕ
  valid : Bool
  useful : Bool

inductive FilterRequest
  | sppL2cPrefetch | sppLlcPrefetch | l2cDemand | l2cEvict
deriving DecidableEq

/-- `PREFETCH_FILTER`. -/
abbrev PrefetchFilter := ℕ → FilterEntry

/-- `PREFETCH_FILTER::check`. -/
def PrefetchFilter.check (f : PrefetchFilter) (ghr : GlobalRegister) (checkAddr : UInt64)
    (request : FilterRequest) : Bool × PrefetchFilter × GlobalRegister :=
  let hash := (getHash (checkAddr >>> 6)).toNat
  let quotient := (hash >>> 6) % filterSet
  let remainder := hash % 64
  let e := f quotient
  match request with
  | .sppL2cPrefetch =>
    if (e.valid || e.useful) && e.remainderTag == remainder then (false, f, ghr)
    else (true, Function.update f quotient ⟨remainder, true, false⟩, ghr)
  | .sppLlcPrefetch =>
    if (e.valid || e.useful) && e.remainderTag == remainder then (false, f, ghr)
    else (true, f, ghr)
  | .l2cDemand =>
    if e.remainderTag = remainder ∧ e.useful = false then
      (true, Function.update f quotient { e with useful := true },
        if e.valid then { ghr with pfUseful := ghr.pfUseful + 1 } else ghr)
    else (true, f, ghr)
  | .l2cEvict =>
    (true, Function.update f quotient ⟨0, false, false⟩,
      if e.valid && !e.useful && 0 < ghr.pfUseful then { ghr with pfUseful := ghr.pfUseful - 1 }
      else ghr)

end Spp

end Arishem
