import Arishem.Lib.Lts
import Arishem.Prefetchers.SppCounts
import Arishem.Prefetchers.SppPages

/-!
# SPP

The signature path prefetcher. An access moves the signature of its page and counts the delta in the
pattern table; then the prefetcher looks ahead: it collects the deltas that likely follow the current
signature, prefetches those that stay in the page, and goes on at the signature of the likeliest one
as long as some delta was likely enough. The candidates go to two arrays on the stack that are as long
as the MSHR of the L2. The statistics are left out.
-/

namespace Arishem

namespace Spp

def l2cMshrSize : ℕ := 48
def fillL2 : ℕ := 2
def fillLlc : ℕ := 4

/-- The knobs. -/
structure Knobs where
  fillThreshold : ℕ
  pfThreshold : ℕ

/-- An entry of `confidence_q` and `delta_q`. -/
structure Candidate where
  confidence : ℕ
  delta : ℤ

/-- A call of `prefetch_line`. -/
structure Request where
  pfAddr : UInt64
  fillLevel : ℕ

end Spp

/-- The prefetcher. -/
structure Spp where
  st : Spp.SignatureTable
  pt : ℕ → Spp.PatternSet
  filter : Spp.PrefetchFilter
  ghr : Spp.GlobalRegister

namespace Spp

/-- The constructors. -/
def init : Spp where
  st := .init
  pt := fun _ => .init
  filter := fun _ => ⟨0, false, false⟩
  ghr := .init

section
variable (k : Knobs)

/-! ## Reading the pattern table -/

/-- What the loop of `read_pattern` changes. -/
structure Reading where
  queue : List Candidate
  lookaheadWay : ℕ
  maxConf : ℕ

/-- One way of `read_pattern`; it is refused where the queues are full. -/
def readWay (s : PatternSet) (accuracy lookaheadConf depth : ℕ) (r : Reading) (way : ℕ) :
    Option Reading :=
  let localConf := 100 * s.cDelta way / s.cSig
  let pfConf :=
    if depth ≠ 0 then accuracy * s.cDelta way / s.cSig * lookaheadConf / 100 else localConf
  if k.pfThreshold ≤ pfConf then
    if r.queue.length < l2cMshrSize then
      some {
        queue := r.queue ++ [⟨pfConf, s.delta way⟩]
        lookaheadWay := if r.maxConf < pfConf then way else r.lookaheadWay
        maxConf := if r.maxConf < pfConf then pfConf else r.maxConf }
    else none
  else some r

/-- `read_pattern`: the queue, the way to look ahead, its confidence, and the depth. A set whose
signature was not counted ends the queue with a 0, which no access reads. -/
def readPattern (pt : ℕ → PatternSet) (currSig accuracy : ℕ) (queue : List Candidate)
    (lookaheadConf depth : ℕ) : Option (List Candidate × ℕ × ℕ × ℕ) :=
  let s := pt (ptIndex currSig)
  if s.cSig ≠ 0 then
    ((List.range ptWay).foldlM (readWay k s accuracy lookaheadConf depth) ⟨queue, ptWay, 0⟩).map
      fun r => (r.queue, r.lookaheadWay, r.maxConf,
        if k.pfThreshold ≤ r.maxConf then depth + 1 else depth)
  else if queue.length < l2cMshrSize then some (queue, ptWay, lookaheadConf, depth)
  else none

/-! ## Looking ahead -/

/-- What the loop of `invoke_prefetcher` changes. -/
structure Lookahead where
  baseAddr : UInt64
  currSig : ℕ
  queue : List Candidate
  lookaheadConf : ℕ
  depth : ℕ
  head : ℕ
  doLookahead : Bool
  filter : PrefetchFilter
  ghr : GlobalRegister
  requests : List Request

/-- The address of a page. -/
def pageOf (addr : UInt64) : UInt64 := addr &&& ~~~4095

/-- The address of a block some blocks after another one. -/
def blocksAfter (baseAddr : UInt64) (delta : ℤ) : UInt64 :=
  (baseAddr &&& ~~~63) + .ofInt (delta <<< (6 : ℕ))

/-- An L2 prefetch was issued; the counters are halved together. -/
def countIssued (ghr : GlobalRegister) : GlobalRegister :=
  if globalCounterMax < ghr.pfIssued + 1 then
    { ghr with pfIssued := (ghr.pfIssued + 1) >>> 1, pfUseful := ghr.pfUseful >>> 1 }
  else { ghr with pfIssued := ghr.pfIssued + 1 }

/-- A candidate that stays in the page is prefetched unless the filter knows it. -/
def prefetch (pfAddr : UInt64) (c : Candidate) (l : Lookahead) : Lookahead :=
  let l2 := k.fillThreshold ≤ c.confidence
  let (pass, filter, ghr) :=
    l.filter.check l.ghr pfAddr (if l2 then .sppL2cPrefetch else .sppLlcPrefetch)
  if pass then
    { l with
      filter := filter
      ghr := if l2 then countIssued ghr else ghr
      requests := l.requests ++ [⟨pfAddr, if l2 then fillL2 else fillLlc⟩] }
  else { l with filter := filter, ghr := ghr }

/-- The body of the loop over the candidates of a level. -/
def issue (addr : UInt64) (l : Lookahead) (c : Candidate) : Option Lookahead :=
  if k.pfThreshold ≤ c.confidence then
    let pfAddr := blocksAfter l.baseAddr c.delta
    let l' :=
      if pageOf addr = pageOf pfAddr then some (prefetch k pfAddr c l)
      else (l.ghr.updateEntry l.currSig c.confidence ((pfAddr >>> 6) &&& 0x3f).toNat c.delta).map
        fun ghr => { l with ghr := ghr }
    l'.map fun l' => { l' with doLookahead := true, head := l.head + 1 }
  else some l

/-- One round of the loop. -/
def level (pt : ℕ → PatternSet) (addr : UInt64) (l : Lookahead) : Option Lookahead :=
  match readPattern k pt l.currSig l.ghr.globalAccuracy l.queue l.lookaheadConf l.depth with
  | none => none
  | some (queue, lookaheadWay, lookaheadConf, depth) =>
    let l := { l with
      queue := queue, lookaheadConf := lookaheadConf, depth := depth, doLookahead := false }
    match (queue.drop l.head).foldlM (issue k addr) l with
    | none => none
    | some l =>
      if lookaheadWay < ptWay then
        let delta := (pt (ptIndex l.currSig)).delta lookaheadWay
        some { l with
          baseAddr := l.baseAddr + .ofInt (delta <<< (6 : ℕ))
          currSig := nextSig l.currSig delta }
      else some l

/-- The loop. -/
def lookahead (pt : ℕ → PatternSet) (addr : UInt64) : ℕ → Lookahead → Option Lookahead
  | 0, _ => none
  | fuel + 1, l =>
    match level k pt addr l with
    | none => none
    | some l => if l.doLookahead then lookahead pt addr fuel l else some l

/-! ## The calls of the cache -/

/-- `GHR.global_accuracy` at an access. -/
def accuracy (ghr : GlobalRegister) : ℕ :=
  if ghr.pfIssued ≠ 0 then 100 * ghr.pfUseful / ghr.pfIssued else 0

/-- `invoke_prefetcher`. A round that looks ahead has added a candidate, so that the queues overflow
before the rounds run out. -/
def invokePrefetcher (s : Spp) (addr : UInt64) : Option (Spp × List Request) :=
  let ghr := { s.ghr with globalAccuracy := accuracy s.ghr }
  let pageOffset := ((addr >>> 6) &&& 63).toNat
  match s.st.readAndUpdateSig ghr (addr >>> 12) pageOffset with
  | none => none
  | some (st, r) =>
    let (_, filter, ghr) := s.filter.check ghr addr .l2cDemand
    match (if r.lastSig ≠ 0 then updatePattern s.pt r.lastSig r.delta else some s.pt) with
    | none => none
    | some pt =>
      (lookahead k pt addr (l2cMshrSize + 1) {
        baseAddr := addr, currSig := r.currSig, queue := [], lookaheadConf := 100, depth := 0,
        head := 0, doLookahead := false, filter := filter, ghr := ghr, requests := [] }).map
        fun l => ({ st := st, pt := pt, filter := l.filter, ghr := l.ghr }, l.requests)

/-- `cache_fill`. -/
def cacheFill (s : Spp) (evictedAddr : UInt64) : Spp :=
  let (_, filter, ghr) := s.filter.check s.ghr evictedAddr .l2cEvict
  { s with filter := filter, ghr := ghr }

/-- A call of the cache. -/
inductive Call
  | access (addr : UInt64)
  | fill (evictedAddr : UInt64)

/-- The prefetcher with its calls. -/
def system : Lts Spp Call Request where
  init s := s = init
  step s
    | .access addr => s.invokePrefetcher k addr
    | .fill evictedAddr => some (s.cacheFill evictedAddr, [])

/-- No more prefetches were useful than issued, as far as the counters tell. Halving both can break
this: prefetches that were issued before may still turn out useful. -/
def Accurate (s : Spp) : Call → Prop
  | .access _ => s.ghr.pfUseful ≤ s.ghr.pfIssued
  | .fill _ => True

end

end Spp

end Arishem
