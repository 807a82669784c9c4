import Arishem.Hierarchy.Misses
import Arishem.Paging.Aliasing

/-!
# The cores, their caches and the page tables

The machine around `va_to_pa`: the page tables of all cores, the ITLB, DTLB and STLB of each core,
its L1I, L1D and L2C, and the LLC. A read that misses the STLB walks the page tables in the same
step; where the walk takes the physical page from a victim, the step ends with the calls of
`invalidate_entry`. The data caches take any steps: which lines they hold is left open, and so is
their order with the TLBs.
-/

namespace Arishem

/-- `BLOCK_SIZE`, which is also the number of lines of a page. -/
def blockSize : ℕ := 64

/-- The caches that hold lines of physical pages. -/
inductive DataCache
  | l1i (cpu : ℕ)
  | l1d (cpu : ℕ)
  | l2c (cpu : ℕ)
  | llc
  deriving DecidableEq

namespace DataCache

/-- The configuration of a cache. -/
def config (numCpus : ℕ) : DataCache → Config
  | l1i _ => l1iConfig numCpus
  | l1d _ => l1dConfig numCpus
  | l2c _ => l2cConfig numCpus
  | llc => llcConfig numCpus

/-- The caches that the core looks its lines up in. -/
def serves (cpu : ℕ) : DataCache → Bool
  | l1i c | l1d c | l2c c => c == cpu
  | llc => true

end DataCache

namespace Cache

/-- The read that the STLB walks the page table for in a round of `handle_read`: the head of the
read queue, when it is due, misses and gets an MSHR entry. -/
def walking (cfg : Config) (env : Env) (c : Cache) : Option Packet :=
  match c.rq with
  | [] => none
  | p :: _ =>
    if c.readsAvailable = 0 ∨ p.cpu = cfg.numCpus then none
    else if p.eventCycle ≤ env.cycle p.cpu then
      match c.checkHit cfg p, c.mshr.checkMshr p.address with
      | (none, _), none => if c.mshr.occupancy < cfg.mshrSize then some p else none
      | _, _ => none
    else none

/-- `invalidate_entry` for each line of a physical page. -/
def invalidatePage (cfg : Config) (ppage : Addr) (c : Cache) : Cache :=
  (List.range blockSize).foldl
    (fun c i => c.invalidateEntry cfg ((ppage <<< log2BlockSize) ||| UInt64.ofNat i)) c

/-- The block is the one that `invalidate_entry` finds. -/
def Finds (cfg : Config) (c : Cache) (a : Addr) (set way : ℕ) : Prop :=
  set = cfg.getSet a ∧ c.findWay cfg a = some way

end Cache

/-- A cache of a machine, the lower one for `none`. -/
def Machine.cache {U : Type} (m : Machine U) : Option U → Cache
  | some u => m.upper u
  | none => m.lower

/-- The configuration of a cache of a machine. -/
def Wiring.config {U : Type} (W : Wiring U) : Option U → Config
  | some u => W.upper u
  | none => W.lower

/-- The TLBs of a core. -/
abbrev coreTlbs (numCpus cpu : ℕ) : Wiring Side := (tlbs numCpus).wiring cpu

/-- The state: the page tables, the TLBs of each core and the data caches. -/
structure MemorySystem where
  tables : PageTables
  tlb : ℕ → Machine Side
  cache : DataCache → Cache

/-- What happens next: a turn of the TLBs of a core, with the numbers drawn if it walks the page
table, or a step of a data cache. -/
inductive MemoryTurn
  | tlb (cpu : ℕ) (env : Env) (t : Turn Side) (draws : List Addr) (rand : ℕ)
  | data (k : DataCache) (env : Env) (a : Action)

/-- The read for which a turn of the TLBs walks the page table. -/
def walker (numCpus : ℕ) (env : Env) (m : Machine Side) : Turn Side → Option Packet
  | .lower .readOne => m.lower.walking (stlbConfig numCpus) env
  | _ => none

/-- The call of `va_to_pa` for a read. -/
def walkOf (env : Env) (p : Packet) (draws : List Addr) (rand : ℕ) : Walk where
  cpu := UInt32.ofNat p.cpu
  va := p.fullAddr
  uniqueVpage := p.address
  cycle := env.cycle p.cpu
  draws := draws
  rand := rand

/-- `invalidate_entry` on the TLBs of a core. -/
def invalidateTlbs (W : Wiring Side) (vpage : Addr) (m : Machine Side) : Machine Side :=
  { m with
    upper := fun u => (m.upper u).invalidateEntry (W.upper u) vpage
    lower := m.lower.invalidateEntry W.lower vpage }

namespace MemorySystem

variable (cfg : PagingConfig)

/-- The state before the first instruction. -/
def start : MemorySystem where
  tables := PageTables.init
  tlb := fun cpu => (coreTlbs cfg.numCpus cpu).start
  cache := fun k => Cache.init (k.config cfg.numCpus)

/-- The end of a swap: the virtual page of the victim leaves the TLBs of the core that walks, and
the lines of its physical page leave the caches of this core. -/
def swapOut (cpu : ℕ) (victim : Addr × Addr) (m : MemorySystem) : MemorySystem :=
  { m with
    tlb := Function.update m.tlb cpu
      (invalidateTlbs (coreTlbs cfg.numCpus cpu) victim.1 (m.tlb cpu))
    cache := fun k =>
      if k.serves cpu then (m.cache k).invalidatePage (k.config cfg.numCpus) victim.2
      else m.cache k }

/-- The end of a walk by the core. -/
def walked (cpu : ℕ) (r : Walked) (m : MemorySystem) : MemorySystem :=
  match r.victim with
  | none => m
  | some victim => m.swapOut cfg cpu victim

/-- The step function. -/
def step (m : MemorySystem) : MemoryTurn → Option (MemorySystem × List Walked)
  | .data k env a =>
    match (m.cache k).act (k.config cfg.numCpus) env a with
    | none => none
    | some (c, _) => some ({ m with cache := Function.update m.cache k c }, [])
  | .tlb cpu env t draws rand =>
    match walker cfg.numCpus env (m.tlb cpu) t with
    | none =>
      match (coreTlbs cfg.numCpus cpu).step (m.tlb cpu) (env, t) with
      | none => none
      | some (tlb, _) => some ({ m with tlb := Function.update m.tlb cpu tlb }, [])
    | some p =>
      match m.tables.vaToPa cfg (walkOf env p draws rand) with
      | none => none
      | some (tables, r) =>
        match (coreTlbs cfg.numCpus cpu).step (m.tlb cpu)
            ({ env with physicalAddress := r.pa }, t) with
        | none => none
        | some (tlb, _) =>
          some (walked cfg p.cpu r
            { m with tables := tables, tlb := Function.update m.tlb cpu tlb }, [r])

/-- The machine as a system. -/
def lts : Lts MemorySystem MemoryTurn Walked where
  init := fun m => m = start cfg
  step := step cfg

/-- The parts of `operate`, and `update_rob`. -/
def Operates : Action → Prop
  | .updateRob _ | .handleFill | .handleWriteback | .startReads | .readOne | .prefetchOne => True
  | _ => False

/-- The turns of the TLBs of a core: the core asks the ITLB or the DTLB for a translation, or they
operate. Nothing writes to a TLB, and no prefetcher is attached to one. -/
def TlbTurn (cpu : ℕ) : Turn Side → Prop
  | .upper u (.addRq p) => (coreTlbs cfg.numCpus cpu).Reads u p
  | .upper _ a | .lower a => Operates a
  | .call => True

/-- What the steps of a run keep to: a call from one TLB to another returns before another core
takes its turn, and `draw_rand` gives numbers in its range. -/
def Allowed (m : MemorySystem) : MemoryTurn → Prop
  | .tlb cpu _ t draws _ =>
    cpu < cfg.numCpus ∧ (∀ c < cfg.numCpus, c ≠ cpu → (m.tlb c).calls = []) ∧
      TlbTurn cfg cpu t ∧ ∀ d ∈ draws, d ≤ maxDraw
  | .data .. => True

/-! ## Stale translations -/

/-- `page_table` maps the virtual page of the core to the physical page. -/
def Maps (m : MemorySystem) (cpu : ℕ) (vpage ppage : Addr) : Prop :=
  ∃ key, pageKey cfg (UInt32.ofNat cpu) vpage = some key ∧
    m.tables.pageTable[key]? = some ppage

/-- The translations of the TLBs are those of the page table. -/
structure Fresh (m : MemorySystem) : Prop where
  inverse : m.tables.Inverse
  blocks : ∀ cpu < cfg.numCpus, ∀ x set way, (((m.tlb cpu).cache x).block set way).valid = true →
    m.Maps cfg cpu (((m.tlb cpu).cache x).block set way).tag
      (((m.tlb cpu).cache x).block set way).data
  entries : ∀ cpu < cfg.numCpus, ∀ x, ∀ e ∈ ((m.tlb cpu).cache x).mshr.entry,
    e.returned = .completed → m.Maps cfg cpu e.address e.data

/-- The line is in the cache. -/
def Cached (m : MemorySystem) (k : DataCache) (a : Addr) : Prop :=
  ∃ set way, ((m.cache k).block set way).valid = true ∧ ((m.cache k).block set way).tag = a

/-- In the run, the line has been in the cache since a step that gave its physical page to another
virtual page. -/
inductive Outlives (k : DataCache) (a : Addr) :
    Lts.Trace MemoryTurn Walked → MemorySystem → Prop
  | swap {tr : Lts.Trace MemoryTurn Walked} {m m' : MemorySystem} {l : MemoryTurn}
      {os : List Walked} {r : Walked} {vpage : Addr} : (lts cfg).Run (Allowed cfg) m tr →
      Allowed cfg m l → m.step cfg l = some (m', os) → r ∈ os →
      r.victim = some (vpage, a >>> log2BlockSize) → m.Cached k a → m'.Cached k a →
      Outlives k a (tr ++ [(l, os)]) m'
  | stay {tr : Lts.Trace MemoryTurn Walked} {m m' : MemorySystem} {l : MemoryTurn}
      {os : List Walked} : Outlives k a tr m → Allowed cfg m l → m.step cfg l = some (m', os) →
      m'.Cached k a → Outlives k a (tr ++ [(l, os)]) m'

/-- At the end of the run no translation is stale, and no line is one of a page that was given away
while the line was cached. -/
structure NoStale (tr : Lts.Trace MemoryTurn Walked) (m : MemorySystem) : Prop where
  fresh : m.Fresh cfg
  lines : ∀ k a, ¬ Outlives cfg k a tr m

/-- Nothing is stale in any state of the run. -/
def NeverStale (tr : Lts.Trace MemoryTurn Walked) : Prop :=
  ∀ tr₁ m, tr₁ <+: tr → (lts cfg).Run (Allowed cfg) m tr₁ → NoStale cfg tr₁ m

/-! ## Where a swap looks -/

/-- All copies of the victim's translation and of its lines are where `va_to_pa` looks for them when
the core `cpu` takes the page: the translation in blocks of the TLBs of this core, under the key of
the page table, and in no answered MSHR entry; the lines in caches of this core or in the LLC, each
in one way. -/
structure Sweeps (m : MemorySystem) (cpu : ℕ) (victim : Addr × Addr) : Prop where
  blocks : ∀ c < cfg.numCpus, ∀ x set way, (((m.tlb c).cache x).block set way).valid = true →
    pageKey cfg (UInt32.ofNat c) (((m.tlb c).cache x).block set way).tag = some victim.1 →
    c = cpu ∧ (((m.tlb c).cache x).block set way).tag = victim.1 ∧
      ((m.tlb c).cache x).Finds ((coreTlbs cfg.numCpus c).config x) victim.1 set way
  entries : ∀ c < cfg.numCpus, ∀ x, ∀ e ∈ ((m.tlb c).cache x).mshr.entry,
    e.returned = .completed → pageKey cfg (UInt32.ofNat c) e.address ≠ some victim.1
  lines : ∀ k set way, ((m.cache k).block set way).valid = true →
    ((m.cache k).block set way).tag >>> log2BlockSize = victim.2 →
    k.serves cpu = true ∧
      (m.cache k).Finds (k.config cfg.numCpus) ((m.cache k).block set way).tag set way

/-- The turn walks the page table for a page that is not mapped, while the memory is full. -/
def Faults (m : MemorySystem) : MemoryTurn → Option Packet
  | .tlb cpu env t _ _ =>
    (walker cfg.numCpus env (m.tlb cpu) t).filter fun p =>
      (pageKey cfg (UInt32.ofNat p.cpu) p.address).all (fun key => key ∉ m.tables.pageTable) &&
        decide (cfg.dramPages ≤ m.tables.allocatedPages)
  | .data .. => none

/-- Where the step swaps a page, it finds all copies of the victim. -/
def SwapsSwept (m : MemorySystem) (l : MemoryTurn) : Prop :=
  ∀ p victim, m.Faults cfg l = some p → m.tables.nru = some victim → m.Sweeps cfg p.cpu victim

/-- All swaps of the run find all copies of their victims. -/
def AllSwept (tr : Lts.Trace MemoryTurn Walked) : Prop :=
  ∀ tr₁ x m, tr₁ ++ [x] <+: tr → (lts cfg).Run (Allowed cfg) m tr₁ → m.SwapsSwept cfg x.1

end MemorySystem

end Arishem
