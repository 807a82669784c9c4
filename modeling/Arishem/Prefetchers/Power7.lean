import Arishem.Lib.Shared
import Arishem.Prefetchers.Page

/-!
# The POWER7 prefetcher

A streamer and a stride prefetcher under a state machine that tries out the configurations in turn
and then keeps the one with the fewest cycles. A configuration is a pair of degrees. They are not
handed to the two prefetchers: `set_params` writes them into two knobs, which are global, and every
`Streamer` and every `StridePrefetcher` reads them at each access.
-/

namespace Arishem

/-- The knobs that stay as they are. -/
structure Power7Knobs where
  streamerNumTrackers : UInt32
  strideNumTrackers : UInt32
  power7ExploreEpoch : UInt32
  power7ExploitEpoch : UInt32
  power7DefaultStreamerDegree : UInt32

/-- The two knobs that `set_params` writes. -/
structure Degrees where
  streamerPrefDegree : UInt32
  stridePrefDegree : UInt32
  deriving DecidableEq

/-! ## The streamer -/

/-- A page that is followed: `last_dir` is 1, -1 or, at first, 0. -/
structure StreamTracker where
  page : UInt64
  lastOffset : UInt32
  lastDir : Int32

namespace Streamer

/-- The loop of the streamer over its degree: it leaves the loop at the end of the page. -/
def generatePrefetch (page : UInt64) (dir : Int32) : ℕ → Int32 → List UInt64
  | 0, _ => []
  | degree + 1, prefOffset =>
    let prefOffset := if dir = 1 then prefOffset + 1 else prefOffset - 1
    if inPage prefOffset then
      blockAddr page prefOffset :: generatePrefetch page dir degree prefOffset
    else []

/-- `Streamer::invoke_prefetcher`. The oldest tracker is at the front. -/
def invokePrefetcher (k : Power7Knobs) (address : UInt64) (trackers : List StreamTracker)
    (degree : UInt32) : List StreamTracker × List UInt64 :=
  let page := pageOf address
  let offset := offsetOf address
  match trackers.find? (·.page = page) with
  | none =>
    let kept := if k.streamerNumTrackers.toNat ≤ trackers.length then trackers.tail else trackers
    (kept ++ [⟨page, offset, 0⟩], [])
  | some tracker =>
    if offset = tracker.lastOffset then (trackers, [])
    else
      let dir : Int32 := if tracker.lastOffset < offset then 1 else -1
      (trackers.eraseP (·.page = page) ++ [⟨page, offset, dir⟩],
        if dir = tracker.lastDir then generatePrefetch page dir degree.toNat offset.toInt32 else [])

end Streamer

/-! ## The stride prefetcher -/

/-- An instruction that is followed. -/
structure StrideTracker where
  pc : UInt64
  lastClAddr : UInt64
  lastStride : Int64

namespace StridePrefetcher

/-- The distance of two cache lines, cut to 32 bits. -/
def strideOf (clAddr lastClAddr : UInt64) : Int32 :=
  if lastClAddr < clAddr then (clAddr - lastClAddr).toUInt32.toInt32
  else if clAddr < lastClAddr then (lastClAddr - clAddr).toUInt32.toInt32 * -1
  else 0

/-- `StridePrefetcher::generate_prefetch`, from `deg` on. The offset is computed unsigned. -/
def generatePrefetch (address : UInt64) (stride : Int32) : ℕ → UInt32 → List UInt64
  | 0, _ => []
  | degree + 1, deg =>
    let prefOffset := (offsetOf address + stride.toUInt32 * deg).toInt32
    if inPage prefOffset then
      blockAddr (pageOf address) prefOffset :: generatePrefetch address stride degree (deg + 1)
    else []

/-- `StridePrefetcher::invoke_prefetcher`. The newest tracker is at the front; a zero stride leaves
the tracker as it is. -/
def invokePrefetcher (k : Power7Knobs) (pc address : UInt64) (trackers : List StrideTracker)
    (degree : UInt32) : List StrideTracker × List UInt64 :=
  let clAddr := address >>> 6
  match trackers.find? (·.pc = pc) with
  | none =>
    let kept := if k.strideNumTrackers.toNat ≤ trackers.length then trackers.dropLast else trackers
    (⟨pc, clAddr, 0⟩ :: kept, [])
  | some tracker =>
    let stride := strideOf clAddr tracker.lastClAddr
    if stride = 0 then (trackers, [])
    else
      (⟨pc, clAddr, stride.toInt64⟩ :: trackers.eraseP (·.pc = pc),
        if stride.toInt64 = tracker.lastStride then generatePrefetch address stride degree.toNat 0
        else [])

end StridePrefetcher

/-! ## The state machine -/

namespace Power7

/-- `Config`, in the order in which the configurations are tried out. -/
inductive Config
  | default | off
  | shallowest | sShallowest
  | shallow | sShallow
  | medium | sMedium
  | deep | sDeep
  | deeper | sDeeper
  | deepest | sDeepest
  deriving DecidableEq

namespace Config

/-- The values of the enumeration up to `NumConfigs`. -/
def all : List Config :=
  [default, off, shallowest, sShallowest, shallow, sShallow, medium, sMedium, deep, sDeep, deeper,
    sDeeper, deepest, sDeepest]

/-- `(Config)((uint32_t)config + 1)`, asked of every configuration but the last. -/
def next : Config → Config
  | default => off
  | off => shallowest
  | shallowest => sShallowest
  | sShallowest => shallow
  | shallow => sShallow
  | sShallow => medium
  | medium => sMedium
  | sMedium => deep
  | deep => sDeep
  | sDeep => deeper
  | deeper => sDeeper
  | sDeeper => deepest
  | deepest => sDeepest
  | sDeepest => sDeepest

/-- `get_streamer_degree`. -/
def streamerDegree (k : Power7Knobs) : Config → UInt32
  | default => k.power7DefaultStreamerDegree
  | off => 0
  | shallowest | sShallowest => 2
  | shallow | sShallow => 3
  | medium | sMedium => 4
  | deep | sDeep => 5
  | deeper | sDeeper => 6
  | deepest | sDeepest => 7

/-- `get_stride_degree`. -/
def strideDegree : Config → UInt32
  | default | off | shallowest | shallow | medium | deep | deeper | deepest => 0
  | sShallowest | sShallow | sMedium | sDeep | sDeeper | sDeepest => 4

/-- What `set_params` writes into the knobs. -/
def degrees (k : Power7Knobs) (config : Config) : Degrees :=
  ⟨config.streamerDegree k, config.strideDegree⟩

end Config

/-- `Mode`. -/
inductive Mode
  | explore | exploit
  deriving DecidableEq

/-- What the state machine of an instance reads and writes. -/
structure Machine where
  config : Config
  mode : Mode
  accessCounter : UInt64
  cycleStats : Config → UInt64
  cycleStamp : UInt64

/-- `clear_cycle_stats`. -/
def clearCycleStats : Config → UInt64 := fun _ => 0

/-- `get_winner_config`: of several configurations with the fewest cycles the last one. -/
def getWinnerConfig (cycleStats : Config → UInt64) : Config :=
  (Config.all.foldl (fun best cfg =>
    if cycleStats cfg ≤ best.1 then (cycleStats cfg, cfg) else best)
    ((0xFFFFFFFFFFFFFFFF : UInt64), Config.default)).2

namespace Machine

/-- The constructor. -/
def init : Machine := ⟨.default, .exploit, 0, clearCycleStats, 0⟩

/-- The epoch of the mode. -/
def epoch (k : Power7Knobs) (m : Machine) : UInt32 :=
  match m.mode with
  | .exploit => k.power7ExploitEpoch
  | .explore => k.power7ExploreEpoch

/-- The access ends the epoch: the branches of `invoke_prefetcher` that call `set_params`. -/
def endsEpoch (k : Power7Knobs) (m : Machine) : Bool :=
  (m.epoch k).toUInt64 ≤ m.accessCounter + 1

/-- The state machine of `invoke_prefetcher`. -/
def access (k : Power7Knobs) (cpuCycle : UInt64) (m : Machine) : Machine :=
  if m.endsEpoch k then
    let cycleStats := Function.update m.cycleStats m.config (cpuCycle - m.cycleStamp)
    match m.mode with
    | .exploit => ⟨.default, .explore, 0, clearCycleStats, cpuCycle⟩
    | .explore =>
      if m.config = .sDeepest then
        ⟨getWinnerConfig cycleStats, .exploit, 0, clearCycleStats, cpuCycle⟩
      else ⟨m.config.next, .explore, 0, cycleStats, cpuCycle⟩
  else { m with accessCounter := m.accessCounter + 1 }

/-- An access that does not end the epoch leaves the configuration. -/
theorem access_config {k : Power7Knobs} {m : Machine} (h : m.endsEpoch k = false)
    (cpuCycle : UInt64) : (m.access k cpuCycle).config = m.config := by
  simp [access, h]

end Machine

/-- An instance: its state machine and the trackers of its two prefetchers. -/
structure Instance extends Machine where
  streamer : List StreamTracker
  stride : List StrideTracker

/-- The constructor. -/
def Instance.init : Instance := ⟨Machine.init, [], []⟩

/-- A call of `invoke_prefetcher`, with the cycle it reads. -/
structure Call where
  pc : UInt64
  address : UInt64
  cpuCycle : UInt64

/-- What an access shows: the configuration, the degrees the two prefetchers used and the addresses
they produced. -/
structure Access where
  config : Config
  degrees : Degrees
  prefAddr : List UInt64

/-- `POWER7_Pref::invoke_prefetcher`, from the knobs as they are. -/
def invokePrefetcher (k : Power7Knobs) (x : Call) (p : Instance) (knobs : Degrees) :
    Instance × Degrees × Access :=
  let m := p.toMachine.access k x.cpuCycle
  let knobs := if p.endsEpoch k then m.config.degrees k else knobs
  let streamer := Streamer.invokePrefetcher k x.address p.streamer knobs.streamerPrefDegree
  let stride := StridePrefetcher.invokePrefetcher k x.pc x.address p.stride knobs.stridePrefDegree
  (⟨m, streamer.1, stride.1⟩, knobs, ⟨m.config, knobs, streamer.2 ++ stride.2⟩)

/-- The instances of all cores, which share the two knobs. -/
def sharing (k : Power7Knobs) : Sharing Call Instance Degrees Access := ⟨invokePrefetcher k⟩

end Power7

end Arishem
