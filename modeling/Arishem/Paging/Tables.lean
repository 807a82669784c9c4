import Mathlib.Tactic.Linarith
import Arishem.Cache.Packet

/-!
# Page tables

`va_to_pa`: the page table of all cores, from virtual pages with the core's number in their upper
bits to physical pages, and its inverse. A page that is not mapped gets a free physical page, the
one after the last or a random one, and once the memory is full the page of a victim. A failed check
of the source is `none`. The numbers that `RANDOM::draw_rand` and `rand` give during a call are an
input of the call; so is the core's cycle. The counters of faults, pages and cache lines are left
out.
-/

namespace Arishem

/-- The macros that `va_to_pa` depends on. `build_champsim.sh` refuses to build for no core. -/
structure PagingConfig where
  numCpus : ℕ
  dramPages : UInt64
  swapLatency : Cycle
  pageTableLatency : Cycle
  numCpus_pos : 1 ≤ numCpus
  dramPages_pos : 0 < dramPages

/-- The globals of `va_to_pa`. -/
structure PageTables where
  pageTable : Std.TreeMap Addr Addr
  inverseTable : Std.TreeMap Addr Addr
  recentPage : Std.TreeMap Addr Addr
  pageQueue : List Addr
  previousPpage : Addr
  numAdjacentPage : UInt64
  allocatedPages : UInt64
  stallCycle : UInt32 → Cycle

/-- The tables before the first call. -/
def PageTables.init : PageTables where
  pageTable := ∅
  inverseTable := ∅
  recentPage := ∅
  pageQueue := []
  previousPpage := 0
  numAdjacentPage := 0
  allocatedPages := 0
  stallCycle := fun _ => 0

/-- A call of `va_to_pa`: its arguments, the core's cycle, and the numbers that it gets from
`draw_rand` and from `rand`. -/
structure Walk where
  cpu : UInt32
  va : Addr
  uniqueVpage : Addr
  cycle : Cycle
  draws : List Addr
  rand : ℕ

/-- What a call answers: the physical address, and the virtual and the physical page of the victim
when there was one. -/
structure Walked where
  pa : Addr
  victim : Option (Addr × Addr)
  deriving DecidableEq

/-- The loop of `lg2`. -/
def lg2Loop (m c : ℤ) : ℤ :=
  if h : m = 0 then c else lg2Loop (m.tdiv 2) (c + 1)
termination_by m.natAbs
decreasing_by
  rw [Int.natAbs_tdiv]
  exact Nat.div_lt_self (Int.natAbs_pos.2 h) one_lt_two

/-- `lg2`. -/
def lg2 (n : ℤ) : ℤ := lg2Loop n (-1)

/-- `rotr64`. -/
def rotr64 (n : UInt64) (c : UInt32) : Option UInt64 :=
  if c ≤ 63 then some ((n >>> c.toUInt64) ||| (n <<< ((-c) &&& 63).toUInt64)) else none

/-- `NUM_CPUS` as the `int` that `lg2` takes. -/
def PagingConfig.numCpusInt (cfg : PagingConfig) : ℤ := (cfg.numCpus : ℤ).bmod 0x100000000

/-- `high_bit_mask`. -/
def highBitMask (cfg : PagingConfig) (cpu : UInt32) : Option UInt64 :=
  rotr64 cpu.toUInt64 (UInt32.ofInt (lg2 cfg.numCpusInt))

/-- The bits of the page offset. -/
def pageOffset : UInt64 := (1 <<< log2PageSize) - 1

namespace PageTables

variable (cfg : PagingConfig)

/-- The loop that looks for a free physical page, with whether the last page is not the one after
the previous. -/
def findFree (s : PageTables) : Addr → Bool → List Addr → Option (Addr × Bool)
  | randomPpage, fragmented, draws =>
    if randomPpage ∈ s.inverseTable then
      match draws with
      | [] => none
      | draw :: draws => s.findFree draw (fragmented || 0 < s.numAdjacentPage) draws
    else some (randomPpage, fragmented)

/-- Map a page while the memory is not full. -/
def allocate (w : Walk) (vpage : Addr) (s : PageTables) : Option PageTables :=
  let free :=
    if 0 < s.numAdjacentPage then s.findFree (s.previousPpage + 1) false w.draws
    else
      match w.draws with
      | [] => none
      | draw :: draws => s.findFree draw true draws
  match free with
  | none => none
  | some (randomPpage, fragmented) =>
    some { s with
      pageTable := s.pageTable.insertIfNew vpage randomPpage
      inverseTable := s.inverseTable.insertIfNew randomPpage vpage
      pageQueue := s.pageQueue ++ [vpage]
      previousPpage := randomPpage
      numAdjacentPage :=
        if fragmented then 1 <<< (w.rand % 10).toUInt64 else s.numAdjacentPage - 1
      allocatedPages := s.allocatedPages + 1 }

/-- The page that loses its physical page: the first that was not used recently. -/
def nru (s : PageTables) : Option (Addr × Addr) :=
  s.pageTable.toList.find? fun pr => pr.1 ∉ s.recentPage

/-- Map a page when the memory is full, with the victim. -/
def swap (vpage : Addr) (s : PageTables) : Option (PageTables × (Addr × Addr)) :=
  match s.nru with
  | none => none
  | some (nruVpage, mappedPpage) =>
    if mappedPpage ∈ s.inverseTable then
      some ({ s with
        pageTable := (s.pageTable.erase nruVpage).insertIfNew vpage mappedPpage
        inverseTable := s.inverseTable.insert mappedPpage vpage
        pageQueue := s.pageQueue.tail ++ [vpage] }, (nruVpage, mappedPpage))
    else none

/-- The end of `va_to_pa`: look the page up and let the core wait. -/
def translate (w : Walk) (vpage uniqueVa : Addr) (victim : Option (Addr × Addr)) (s : PageTables) :
    Option (PageTables × Walked) :=
  match s.pageTable[vpage]? with
  | none => none
  | some ppage =>
    some ({ s with
      stallCycle := fun c =>
        if c = w.cpu then
          w.cycle + if victim.isSome then cfg.swapLatency else cfg.pageTableLatency
        else s.stallCycle c },
      { pa := (ppage <<< log2PageSize) ||| (uniqueVa &&& pageOffset)
        victim := victim })

/-- `va_to_pa`. -/
def vaToPa (w : Walk) (s : PageTables) : Option (PageTables × Walked) :=
  if w.va = 0 then none
  else
    match highBitMask cfg w.cpu with
    | none => none
    | some mask =>
      let uniqueVa := w.va ||| mask
      let vpage := w.uniqueVpage ||| mask
      if vpage ∈ s.pageTable then s.translate cfg w vpage uniqueVa none
      else if cfg.dramPages ≤ s.allocatedPages then
        match s.swap vpage with
        | none => none
        | some (s, victim) => s.translate cfg w vpage uniqueVa (some victim)
      else
        match s.allocate w vpage with
        | none => none
        | some s => s.translate cfg w vpage uniqueVa none

end PageTables

end Arishem
