import Mathlib.Data.Fintype.Defs
import Mathlib.Logic.Function.Basic
import Arishem.Cache.Bookkeeping

/-!
# Caches over one lower level

Several caches whose `lower_level` is one cache: ITLB and DTLB over the STLB, L1I and L1D over the
L2C, the L2Cs over the LLC. The callers of an upper cache, the level below and the prefetchers stay
outside. A call of `add_rq`, `add_wq`, `add_pq` or `return_data` between two of these caches runs
inside the step that makes it; here it is a step of its own that comes before anything else.
-/

namespace Arishem

/-- How the caches are wired: `upperLevel` is `upper_level_icache` and `upper_level_dcache` of the
lower cache, by the instruction flag and the core. A writeback of an upper cache is filled to the
lower one, and so never answered. -/
structure Wiring (U : Type) where
  upper : U → Config
  lower : Config
  upperLevel : Bool → ℕ → Option U
  fill_lt : ∀ u, (upper u).fillLevel < lower.fillLevel
  fill_le : ∀ u, lower.fillLevel ≤ (upper u).fillLevel <<< (1 : ℕ)
  upper_hasLower : ∀ u, (upper u).hasLower = true
  upper_ne_llc : ∀ u, (upper u).cacheType ≠ .llc
  lower_ne_l1d : lower.cacheType ≠ .l1d
  lower_isTlb : lower.hasLower = false → lower.isTlb = true
  upper_isTlb : ∀ u, lower.isTlb = true → (upper u).isTlb = true

/-- A call from one of the caches to another that has been made and not yet run. -/
inductive LevelCall
  /-- A request to the lower cache. -/
  | below (a : Action)
  /-- `return_data` on the upper cache the packet came from. -/
  | above (p : Packet)
  deriving DecidableEq

/-- The state of the caches. -/
structure Machine (U : Type) where
  upper : U → Cache
  lower : Cache
  calls : List LevelCall

/-- Whose turn it is. -/
inductive Turn (U : Type)
  | upper (u : U) (a : Action)
  | lower (a : Action)
  /-- The oldest call is run. -/
  | call

/-- The call an upper cache makes to the lower one. -/
def Event.below : Event → Option LevelCall
  | .lowerAddRq p => some (.below (.addRq p))
  | .lowerAddWq p => some (.below (.addWq p))
  | .lowerAddPq p => some (.below (.addPq p))
  | _ => none

/-- The call the lower cache makes to an upper one. -/
def Event.above : Event → Option LevelCall
  | .upperReturn p => some (.above p)
  | _ => none

/-- The environment of an upper cache: the occupancy of the lower level is that of the lower
cache. -/
def Env.over (env : Env) (cfg : Config) (c : Cache) : Env :=
  { env with
    lowerFull := fun
      | .rq, _ => c.rq.length == cfg.rqSize
      | .wq, _ => c.wq.length == cfg.wqSize
      | .pq, _ => c.pq.length == cfg.pqSize }

namespace Wiring

section
variable {U : Type} [DecidableEq U] (W : Wiring U)

/-- The upper cache that gets the answer to a packet. -/
def origin (p : Packet) : Option U := W.upperLevel p.instruction p.cpu

/-- The caches at the start. -/
def start : Machine U where
  upper := fun u => Cache.init (W.upper u)
  lower := Cache.init W.lower
  calls := []

/-- The step function: outside calls and parts of `operate` wait for the calls on their way. -/
def step (m : Machine U) : Env × Turn U → Option (Machine U × List Event)
  | (env, .upper u a) =>
    if m.calls = [] then
      match (m.upper u).act (W.upper u) (env.over W.lower m.lower) a with
      | none => none
      | some (c, evs) =>
        some ({ m with upper := Function.update m.upper u c, calls := evs.filterMap Event.below },
          evs)
    else none
  | (env, .lower a) =>
    if m.calls = [] then
      match m.lower.act W.lower env a with
      | none => none
      | some (c, evs) => some ({ m with lower := c, calls := evs.filterMap Event.above }, evs)
    else none
  | (env, .call) =>
    match m.calls with
    | [] => none
    | .below a :: rest =>
      match m.lower.act W.lower env a with
      | none => none
      | some (c, evs) =>
        some ({ m with lower := c, calls := evs.filterMap Event.above ++ rest }, evs)
    | .above p :: rest =>
      match W.origin p with
      | none => none
      | some u =>
        match (m.upper u).returnData (W.upper u) env p with
        | none => none
        | some c => some ({ m with upper := Function.update m.upper u c, calls := rest }, [])

/-- The steps of the caches. -/
inductive Step (m : Machine U) : Env × Turn U → Machine U → List Event → Prop
  | upper {env : Env} {u : U} {a : Action} {c : Cache} {evs : List Event} : m.calls = [] →
      (m.upper u).act (W.upper u) (env.over W.lower m.lower) a = some (c, evs) →
      Step m (env, .upper u a)
        { m with upper := Function.update m.upper u c, calls := evs.filterMap Event.below } evs
  | lower {env : Env} {a : Action} {c : Cache} {evs : List Event} : m.calls = [] →
      m.lower.act W.lower env a = some (c, evs) →
      Step m (env, .lower a) { m with lower := c, calls := evs.filterMap Event.above } evs
  | below {env : Env} {a : Action} {rest : List LevelCall} {c : Cache} {evs : List Event} :
      m.calls = .below a :: rest → m.lower.act W.lower env a = some (c, evs) →
      Step m (env, .call) { m with lower := c, calls := evs.filterMap Event.above ++ rest } evs
  | above {env : Env} {p : Packet} {rest : List LevelCall} {u : U} {c : Cache} :
      m.calls = .above p :: rest → W.origin p = some u →
      (m.upper u).returnData (W.upper u) env p = some c →
      Step m (env, .call) { m with upper := Function.update m.upper u c, calls := rest } []

variable {W} in
/-- The step function makes these steps. -/
theorem step_cases {m m' : Machine U} {l : Env × Turn U} {evs : List Event}
    (h : W.step m l = some (m', evs)) : W.Step m l m' evs := by
  obtain ⟨env, t⟩ := l
  cases t with
  | upper u a =>
    simp only [step] at h
    split at h
    · split at h
      · cases h
      · rename_i hc _ _ _ hx
        cases h
        exact .upper hc hx
    · cases h
  | lower a =>
    simp only [step] at h
    split at h
    · split at h
      · cases h
      · rename_i hc _ _ _ hx
        cases h
        exact .lower hc hx
    · cases h
  | call =>
    simp only [step] at h
    split at h
    · cases h
    · split at h
      · cases h
      · rename_i hc _ _ _ hx
        cases h
        exact .below hc hx
    · split at h
      · cases h
      · rename_i hc _ _ ho
        split at h
        · cases h
        · rename_i hx
          cases h
          exact .above hc ho hx

/-- The caches as a system. -/
def lts : Lts (Machine U) (Env × Turn U) Event where
  init := fun m => m = W.start
  step := W.step

/-! ## The contract of the outside -/

/-- A demand read that an upper cache may get: it is for this cache and its answer goes there. -/
def Reads (u : U) (p : Packet) : Prop :=
  W.origin p = some u ∧ p.fillLevel ≤ (W.upper u).fillLevel ∧ p.type ≠ .prefetch

/-- A prefetch that an upper cache may get. Prefetchers work on data, and none is attached to a
TLB. -/
def Prefetches (u : U) (p : Packet) : Prop :=
  W.origin p = some u ∧
    (p.fillLevel ≤ (W.upper u).fillLevel ∨ W.lower.fillLevel ≤ p.fillLevel) ∧
    p.type = .prefetch ∧ p.instruction = false ∧ (W.upper u).isTlb = false

/-- What the callers of the caches keep to: the requests of an upper cache are for its core and its
side, a prefetcher of the lower cache asks for no fill above it, and the level below answers what is
in flight. The two levels call each other only in their own steps. -/
def Contract (m : Machine U) (l : Env × Turn U) : Prop :=
  match l.2 with
  | .upper u (.addRq p) => W.Reads u p
  | .upper u (.addWq p) => (W.upper u).cacheType = .l1d → W.Reads u p
  | .upper u (.addPq p) => W.Prefetches u p
  | .upper u (.prefetchLine cpu ip pfAddr fill metadata) =>
    W.Prefetches u (Cache.prefetchPacket (W.upper u) l.1 cpu ip pfAddr fill metadata)
  | .upper _ (.returnData _) => False
  | .lower (.addRq _) | .lower (.addWq _) | .lower (.addPq _) => False
  | .lower (.prefetchLine cpu _ _ fill _) =>
    (W.upperLevel false cpu).isSome ∧ W.lower.fillLevel ≤ fill ∧ W.lower.isTlb = false
  | .lower (.returnData p) => m.lower.mshr.inflight p.address = true
  | _ => True

instance (u : U) (p : Packet) : Decidable (W.Reads u p) := by
  unfold Reads
  infer_instance

instance (u : U) (p : Packet) : Decidable (W.Prefetches u p) := by
  unfold Prefetches
  infer_instance

instance (m : Machine U) (l : Env × Turn U) : Decidable (W.Contract m l) := by
  unfold Contract
  split <;> infer_instance

end

end Wiring

/-! ## The wirings of the simulator -/

/-- The two sides of a core. -/
inductive Side
  | icache
  | dcache
  deriving DecidableEq

instance : Fintype Side := ⟨{.icache, .dcache}, fun s => by cases s <;> simp⟩

/-- The configurations of two first-level caches and the second-level cache below them: L1I and L1D
over the L2C, or ITLB and DTLB over the STLB. -/
structure SecondLevel where
  icache : Config
  dcache : Config
  lower : Config
  kinds : icache.cacheType = .l1i ∧ dcache.cacheType = .l1d ∧ lower.cacheType = .l2c ∨
    icache.cacheType = .itlb ∧ dcache.cacheType = .dtlb ∧ lower.cacheType = .stlb
  icache_fill : icache.fillLevel = fillL1
  dcache_fill : dcache.fillLevel = fillL1
  lower_fill : lower.fillLevel = fillL2
  icache_hasLower : icache.hasLower = true
  dcache_hasLower : dcache.hasLower = true
  lower_hasLower : lower.hasLower = (lower.cacheType == .l2c)

namespace SecondLevel

variable (S : SecondLevel)

/-- The configuration of a side. -/
def config : Side → Config
  | .icache => S.icache
  | .dcache => S.dcache

/-- The upper caches answer at the first level. -/
theorem config_fillLevel (s : Side) : (S.config s).fillLevel = fillL1 := by
  cases s
  · exact S.icache_fill
  · exact S.dcache_fill

/-- The wiring of a core. -/
def wiring (cpu : ℕ) : Wiring Side where
  upper := S.config
  lower := S.lower
  upperLevel := fun instruction c =>
    if c = cpu then some (if instruction then .icache else .dcache) else none
  fill_lt := fun s => by
    rw [S.config_fillLevel, S.lower_fill]
    decide
  fill_le := fun s => by
    rw [S.config_fillLevel, S.lower_fill]
    decide
  upper_hasLower
    | .icache => S.icache_hasLower
    | .dcache => S.dcache_hasLower
  upper_ne_llc := fun s => by
    rcases S.kinds with ⟨hi, hd, _⟩ | ⟨hi, hd, _⟩ <;> cases s <;> simp [config, hi, hd]
  lower_ne_l1d := by
    rcases S.kinds with ⟨_, _, hl⟩ | ⟨_, _, hl⟩ <;> simp [hl]
  lower_isTlb := fun h => by
    rcases S.kinds with ⟨_, _, hl⟩ | ⟨_, _, hl⟩
    · simp [S.lower_hasLower, hl] at h
    · simp [Config.isTlb, hl]
  upper_isTlb := fun s h => by
    rcases S.kinds with ⟨_, _, hl⟩ | ⟨hi, hd, _⟩
    · simp [Config.isTlb, hl] at h
    · cases s <;> simp [config, Config.isTlb, hi, hd]

end SecondLevel

section
variable (numCpus : ℕ)

/-- ITLB and DTLB over the STLB. -/
def tlbs : SecondLevel where
  icache := itlbConfig numCpus
  dcache := dtlbConfig numCpus
  lower := stlbConfig numCpus
  kinds := .inr ⟨rfl, rfl, rfl⟩
  icache_fill := rfl
  dcache_fill := rfl
  lower_fill := rfl
  icache_hasLower := rfl
  dcache_hasLower := rfl
  lower_hasLower := rfl

/-- L1I and L1D over the L2C. -/
def l1Caches : SecondLevel where
  icache := l1iConfig numCpus
  dcache := l1dConfig numCpus
  lower := l2cConfig numCpus
  kinds := .inl ⟨rfl, rfl, rfl⟩
  icache_fill := rfl
  dcache_fill := rfl
  lower_fill := rfl
  icache_hasLower := rfl
  dcache_hasLower := rfl
  lower_hasLower := rfl

end

end Arishem
