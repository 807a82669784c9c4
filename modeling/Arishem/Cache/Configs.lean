import Arishem.Cache.Handlers

/-!
# The caches of the simulator

The sizes of `defs.h` and the wiring of `main.cc`, for `NUM_CPUS` cores. The perfect and
semi-perfect knobs are off, as by default.
-/

namespace Arishem

/-- `ROB_SIZE`. -/
def robSize : ℕ := 576

/-- `LQ_SIZE`. -/
def lqSize : ℕ := 189

/-- `SQ_SIZE`. -/
def sqSize : ℕ := 120

/-- `MAX_READ_PER_CYCLE`. -/
def maxReadPerCycle : ℕ := 8

section
variable (numCpus : ℕ)

/-- The instruction TLB. -/
def itlbConfig : Config where
  cacheType := .itlb
  numCpus := numCpus
  numSet := 64
  numWay := 4
  wqSize := 16
  rqSize := 16
  pqSize := 0
  mshrSize := 8
  robSize := robSize
  latency := 1
  fillLevel := fillL1
  maxRead := 1
  hasLower := true
  perfect := false
  semiPerfect := false
  semiPerfectPageBufferSize := 0

/-- The data TLB. -/
def dtlbConfig : Config where
  cacheType := .dtlb
  numCpus := numCpus
  numSet := 16
  numWay := 8
  wqSize := 16
  rqSize := 16
  pqSize := 0
  mshrSize := 8
  robSize := robSize
  latency := 1
  fillLevel := fillL1
  maxRead := 2
  hasLower := true
  perfect := false
  semiPerfect := false
  semiPerfectPageBufferSize := 0

/-- The second-level TLB. -/
def stlbConfig : Config where
  cacheType := .stlb
  numCpus := numCpus
  numSet := 128
  numWay := 16
  wqSize := 32
  rqSize := 32
  pqSize := 0
  mshrSize := 16
  robSize := robSize
  latency := 8
  fillLevel := fillL2
  maxRead := 1
  hasLower := false
  perfect := false
  semiPerfect := false
  semiPerfectPageBufferSize := 0

/-- The L1 instruction cache. -/
def l1iConfig : Config where
  cacheType := .l1i
  numCpus := numCpus
  numSet := 64
  numWay := 16
  wqSize := 64
  rqSize := 64
  pqSize := 32
  mshrSize := 8
  robSize := robSize
  latency := 4
  fillLevel := fillL1
  maxRead := maxReadPerCycle
  hasLower := true
  perfect := false
  semiPerfect := false
  semiPerfectPageBufferSize := 0

/-- The L1 data cache. -/
def l1dConfig : Config where
  cacheType := .l1d
  numCpus := numCpus
  numSet := 256
  numWay := 12
  wqSize := 64
  rqSize := 64
  pqSize := 8
  mshrSize := 16
  robSize := robSize
  latency := 5
  fillLevel := fillL1
  maxRead := 2
  hasLower := true
  perfect := false
  semiPerfect := false
  semiPerfectPageBufferSize := 0

/-- The L2 cache. -/
def l2cConfig : Config where
  cacheType := .l2c
  numCpus := numCpus
  numSet := 4096
  numWay := 10
  wqSize := 48
  rqSize := 48
  pqSize := 16
  mshrSize := 48
  robSize := robSize
  latency := 10
  fillLevel := fillL2
  maxRead := 1
  hasLower := true
  perfect := false
  semiPerfect := false
  semiPerfectPageBufferSize := 0

/-- The last-level cache, shared by the cores. -/
def llcConfig : Config where
  cacheType := .llc
  numCpus := numCpus
  numSet := numCpus * 4096
  numWay := 12
  wqSize := numCpus * 48
  rqSize := numCpus * 48
  pqSize := numCpus * 32
  mshrSize := numCpus * 64
  robSize := robSize
  latency := 40
  fillLevel := fillLlc
  maxRead := numCpus
  hasLower := true
  perfect := false
  semiPerfect := false
  semiPerfectPageBufferSize := 0

end

/-- An environment at one cycle of a warm machine: every core's clock shows `now`, the lower queues
have room, the LLC would replace way 0 and a page walk ends on frame 1. -/
def Env.calm (now : Cycle) (h : now < uint64Max) : Env where
  cycle := fun _ => now
  cycle_lt := fun _ => h
  warmupComplete := fun _ => true
  lowerFull := fun _ _ => false
  llcVictim := 0
  prefetcherMetadata := 0
  physicalAddress := 1 <<< log2PageSize

/-- The calm environment at one of the first cycles. -/
def Env.calmAt (now : ℕ) : Env := Env.calm (UInt64.ofNat (now % 128)) (by
  have hmax : uint64Max.toNat = 2 ^ 64 - 1 := by decide
  rw [UInt64.lt_iff_toNat_lt, UInt64.toNat_ofNat']
  omega)

end Arishem
