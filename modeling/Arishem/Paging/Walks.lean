import Arishem.Lib.Inverse
import Arishem.Lib.Lts
import Arishem.Paging.Tables

/-!
# What a call of `va_to_pa` does

The three outcomes of a call: the page is mapped, it gets a free physical page, or it gets that of a
victim. In every reachable state the page table and its inverse are inverse to each other, and all
physical pages are below `2 ^ 36 + 512`: `draw_rand` gives numbers of 36 bits, and at most 512 pages
are allocated after one of them.
-/

namespace Arishem

/-- The largest number that `draw_rand` gives. -/
def maxDraw : Addr := 0xFFFFFFFFF

/-- A byte of a physical page. -/
def byteOf (ppage uniqueVa : Addr) : Addr :=
  (ppage <<< log2PageSize) ||| (uniqueVa &&& pageOffset)

namespace PageTables

/-! ## Outcomes -/

/-- The core waits for the table. -/
def stalled (w : Walk) (latency : Cycle) (s : PageTables) : PageTables :=
  { s with stallCycle := fun c => if c = w.cpu then w.cycle + latency else s.stallCycle c }

/-- The page is mapped to a free physical page. -/
def mapFree (vpage ppage : Addr) (adjacent : UInt64) (s : PageTables) : PageTables :=
  { s with
    pageTable := s.pageTable.insertIfNew vpage ppage
    inverseTable := s.inverseTable.insertIfNew ppage vpage
    pageQueue := s.pageQueue ++ [vpage]
    previousPpage := ppage
    numAdjacentPage := adjacent
    allocatedPages := s.allocatedPages + 1 }

/-- The page is mapped to the physical page of the victim. -/
def mapVictim (vpage nruVpage ppage : Addr) (s : PageTables) : PageTables :=
  { s with
    pageTable := (s.pageTable.erase nruVpage).insertIfNew vpage ppage
    inverseTable := s.inverseTable.insert ppage vpage
    pageQueue := s.pageQueue.tail ++ [vpage] }

/-- How the allocator comes to a page: it is the one after the last, or a random one, after which
some adjacent ones follow. -/
inductive Chosen (w : Walk) (s : PageTables) (ppage : Addr) : UInt64 → Prop
  | adjacent : 0 < s.numAdjacentPage → ppage = s.previousPpage + 1 →
      Chosen w s ppage (s.numAdjacentPage - 1)
  | drawn : ppage ∈ w.draws → Chosen w s ppage (1 <<< (w.rand % 10).toUInt64)

/-- What a call can do to the tables, for the key of its page, and what it answers. -/
inductive Outcome (cfg : PagingConfig) (w : Walk) (s : PageTables) (vpage uniqueVa : Addr) :
    PageTables → Walked → Prop
  | found {ppage : Addr} : s.pageTable[vpage]? = some ppage →
      Outcome cfg w s vpage uniqueVa (s.stalled w cfg.pageTableLatency)
        ⟨byteOf ppage uniqueVa, none⟩
  | allocated {ppage : Addr} {adjacent : UInt64} : s.pageTable[vpage]? = none →
      s.allocatedPages < cfg.dramPages → s.inverseTable[ppage]? = none →
      Chosen w s ppage adjacent →
      Outcome cfg w s vpage uniqueVa
        ((s.mapFree vpage ppage adjacent).stalled w cfg.pageTableLatency)
        ⟨byteOf ppage uniqueVa, none⟩
  | swapped {nruVpage ppage : Addr} : s.pageTable[vpage]? = none →
      cfg.dramPages ≤ s.allocatedPages → s.nru = some (nruVpage, ppage) →
      Outcome cfg w s vpage uniqueVa
        ((s.mapVictim vpage nruVpage ppage).stalled w cfg.swapLatency)
        ⟨byteOf ppage uniqueVa, some (nruVpage, ppage)⟩

section
variable {cfg : PagingConfig} {w : Walk} {s s' : PageTables} {r : Walked}
variable {vpage uniqueVa nruVpage ppage v p : Addr} {adjacent : UInt64} {latency : Cycle}

@[simp] theorem stalled_pageTable : (s.stalled w latency).pageTable = s.pageTable := rfl
@[simp] theorem stalled_inverseTable : (s.stalled w latency).inverseTable = s.inverseTable := rfl
@[simp] theorem stalled_previousPpage : (s.stalled w latency).previousPpage = s.previousPpage := rfl
@[simp] theorem stalled_numAdjacentPage :
    (s.stalled w latency).numAdjacentPage = s.numAdjacentPage := rfl

theorem mapFree_pageTable (h : s.pageTable[vpage]? = none) :
    (fun v => (s.mapFree vpage ppage adjacent).pageTable[v]?) =
      Function.update (fun v => s.pageTable[v]?) vpage (some ppage) := by
  funext v
  have hnot : vpage ∉ s.pageTable := fun hm => by
    rw [← Std.TreeMap.isSome_getElem?_iff_mem, h] at hm
    exact absurd hm (by simp)
  simp only [mapFree, Std.TreeMap.getElem?_insertIfNew, hnot, not_false_eq_true, and_true,
    Std.compare_eq_iff_eq, Function.update_apply]
  exact if_congr eq_comm rfl rfl

theorem mapFree_inverseTable (h : s.inverseTable[ppage]? = none) :
    (fun p => (s.mapFree vpage ppage adjacent).inverseTable[p]?) =
      Function.update (fun p => s.inverseTable[p]?) ppage (some vpage) := by
  funext p
  have hnot : ppage ∉ s.inverseTable := fun hm => by
    rw [← Std.TreeMap.isSome_getElem?_iff_mem, h] at hm
    exact absurd hm (by simp)
  simp only [mapFree, Std.TreeMap.getElem?_insertIfNew, hnot, not_false_eq_true, and_true,
    Std.compare_eq_iff_eq, Function.update_apply]
  exact if_congr eq_comm rfl rfl

theorem mapVictim_pageTable (h : s.pageTable[vpage]? = none) :
    (fun v => (s.mapVictim vpage nruVpage ppage).pageTable[v]?) =
      Function.update (Function.update (fun v => s.pageTable[v]?) nruVpage none) vpage
        (some ppage) := by
  funext v
  have hnot : vpage ∉ s.pageTable.erase nruVpage := fun hm => by
    have hm' := Std.TreeMap.mem_of_mem_erase hm
    rw [← Std.TreeMap.isSome_getElem?_iff_mem, h] at hm'
    exact absurd hm' (by simp)
  simp only [mapVictim, Std.TreeMap.getElem?_insertIfNew, Std.TreeMap.getElem?_erase, hnot,
    not_false_eq_true, and_true, Std.compare_eq_iff_eq, Function.update_apply]
  exact if_congr eq_comm rfl (if_congr eq_comm rfl rfl)

theorem mapVictim_inverseTable :
    (fun p => (s.mapVictim vpage nruVpage ppage).inverseTable[p]?) =
      Function.update (fun p => s.inverseTable[p]?) ppage (some vpage) := by
  funext p
  simp only [mapVictim, Std.TreeMap.getElem?_insert, Std.compare_eq_iff_eq, Function.update_apply]
  exact if_congr eq_comm rfl rfl

theorem mapFree_lookup (h : s.pageTable[vpage]? = none) (v : Addr) :
    (s.mapFree vpage ppage adjacent).pageTable[v]? =
      Function.update (fun v => s.pageTable[v]?) vpage (some ppage) v :=
  congrFun (mapFree_pageTable h) v

theorem mapVictim_lookup (h : s.pageTable[vpage]? = none) (v : Addr) :
    (s.mapVictim vpage nruVpage ppage).pageTable[v]? =
      Function.update (Function.update (fun v => s.pageTable[v]?) nruVpage none) vpage
        (some ppage) v :=
  congrFun (mapVictim_pageTable h) v

theorem mapFree_self (h : s.pageTable[vpage]? = none) :
    (s.mapFree vpage ppage adjacent).pageTable[vpage]? = some ppage :=
  (mapFree_lookup h vpage).trans (Function.update_self ..)

theorem mapVictim_self (h : s.pageTable[vpage]? = none) :
    (s.mapVictim vpage nruVpage ppage).pageTable[vpage]? = some ppage :=
  (mapVictim_lookup h vpage).trans (Function.update_self ..)

/-- The victim is mapped, and its page was not used recently. -/
theorem nru_some (h : s.nru = some (nruVpage, ppage)) :
    s.pageTable[nruVpage]? = some ppage ∧ nruVpage ∉ s.recentPage := by
  have hm := List.mem_of_find?_eq_some h
  have hp := List.find?_some h
  rw [Std.TreeMap.mem_toList_iff_getElem?_eq_some] at hm
  exact ⟨hm, of_decide_eq_true hp⟩

/-- The loop ends at a free page: its first argument or one of the numbers drawn. -/
theorem findFree_some {draws : List Addr} {fragmented fragmented' : Bool}
    (h : s.findFree v fragmented draws = some (p, fragmented')) :
    s.inverseTable[p]? = none ∧ (p = v ∧ fragmented' = fragmented ∨
      p ∈ draws ∧ fragmented' = (fragmented || 0 < s.numAdjacentPage)) := by
  induction draws generalizing v fragmented with
  | nil =>
    rw [findFree] at h
    split at h
    · cases h
    · rename_i hv
      cases h
      exact ⟨Std.TreeMap.getElem?_eq_none hv, .inl ⟨rfl, rfl⟩⟩
  | cons draw draws ih =>
    rw [findFree] at h
    split at h
    · obtain ⟨hfree, ⟨rfl, hf⟩ | ⟨hp, hf⟩⟩ := ih h
      · exact ⟨hfree, .inr ⟨List.mem_cons_self .., hf⟩⟩
      · exact ⟨hfree, .inr ⟨List.mem_cons_of_mem _ hp, by rw [hf, Bool.or_assoc, Bool.or_self]⟩⟩
    · rename_i hv
      cases h
      exact ⟨Std.TreeMap.getElem?_eq_none hv, .inl ⟨rfl, rfl⟩⟩

theorem allocate_cases (h : s.allocate w vpage = some s') :
    ∃ ppage adjacent, s' = s.mapFree vpage ppage adjacent ∧ s.inverseTable[ppage]? = none ∧
      Chosen w s ppage adjacent := by
  rw [allocate] at h
  by_cases hadj : 0 < s.numAdjacentPage
  · rw [if_pos hadj] at h
    split at h
    · cases h
    · rename_i ppage fragmented hfree
      cases h
      obtain ⟨hnone, ⟨rfl, rfl⟩ | ⟨hp, rfl⟩⟩ := findFree_some hfree
      · exact ⟨_, _, rfl, hnone, .adjacent hadj rfl⟩
      · refine ⟨_, _, rfl, hnone, ?_⟩
        simp only [hadj, decide_true, Bool.or_true, if_true]
        exact .drawn hp
  · rw [if_neg hadj] at h
    split at h
    · cases h
    · rename_i ppage fragmented hfree
      cases h
      split at hfree
      · cases hfree
      · rename_i draw draws hw
        obtain ⟨hnone, hp⟩ := findFree_some hfree
        have hmem : ppage ∈ w.draws := by
          rw [hw]
          rcases hp with ⟨rfl, -⟩ | ⟨hp, -⟩
          · exact List.mem_cons_self ..
          · exact List.mem_cons_of_mem _ hp
        have hfrag : fragmented = true := by
          rcases hp with ⟨-, hf⟩ | ⟨-, hf⟩
          · exact hf
          · rw [hf, Bool.true_or]
        refine ⟨_, _, rfl, hnone, ?_⟩
        rw [hfrag, if_pos rfl]
        exact .drawn hmem

theorem translate_some {victim : Option (Addr × Addr)}
    (h : s.translate cfg w vpage uniqueVa victim = some (s', r)) :
    ∃ ppage, s.pageTable[vpage]? = some ppage ∧
      s' = s.stalled w (if victim.isSome then cfg.swapLatency else cfg.pageTableLatency) ∧
      r = ⟨byteOf ppage uniqueVa, victim⟩ := by
  rw [translate] at h
  split at h
  · cases h
  · rename_i ppage hp
    cases h
    exact ⟨ppage, hp, rfl, rfl⟩

/-- The outcomes of a call, with the key of its page. -/
theorem vaToPa_cases (h : s.vaToPa cfg w = some (s', r)) :
    w.va ≠ 0 ∧ ∃ mask, highBitMask cfg w.cpu = some mask ∧
      Outcome cfg w s (w.uniqueVpage ||| mask) (w.va ||| mask) s' r := by
  rw [vaToPa] at h
  split at h
  · cases h
  · rename_i hva
    refine ⟨hva, ?_⟩
    split at h
    · cases h
    · rename_i mask hmask
      refine ⟨mask, hmask, ?_⟩
      simp only [] at h
      generalize w.uniqueVpage ||| mask = vpage at h ⊢
      generalize w.va ||| mask = uniqueVa at h ⊢
      split at h
      · obtain ⟨ppage, hp, rfl, rfl⟩ := translate_some h
        exact .found hp
      · rename_i hnot
        have hfree : s.pageTable[vpage]? = none := Std.TreeMap.getElem?_eq_none hnot
        split at h
        · rename_i hfull
          split at h
          · cases h
          · rename_i s₁ victim hswap
            rw [swap] at hswap
            split at hswap
            · cases hswap
            · rename_i nruVpage ppage hnru
              split at hswap
              · cases hswap
                obtain ⟨p, hp, rfl, rfl⟩ := translate_some h
                obtain rfl : ppage = p :=
                  Option.some.inj ((mapVictim_self hfree).symm.trans hp)
                exact .swapped hfree hfull hnru
              · cases hswap
        · rename_i hroom
          split at h
          · cases h
          · rename_i s₁ halloc
            obtain ⟨ppage, adjacent, rfl, hppage, hchosen⟩ := allocate_cases halloc
            obtain ⟨p, hp, rfl, rfl⟩ := translate_some h
            obtain rfl : ppage = p := Option.some.inj ((mapFree_self hfree).symm.trans hp)
            exact .allocated hfree (not_le.1 hroom) hppage hchosen

/-! ## The tables in a run -/

variable (cfg) in
/-- What the callers keep to: the core exists, and `draw_rand` gives numbers in its range. -/
def Allowed (_ : PageTables) (w : Walk) : Prop :=
  w.cpu.toNat < cfg.numCpus ∧ ∀ d ∈ w.draws, d ≤ maxDraw

variable (cfg) in
/-- The calls of `va_to_pa` as a system. -/
def lts : Lts PageTables Walk Walked where
  init := fun s => s = PageTables.init
  step := fun s w => (s.vaToPa cfg w).map fun x => (x.1, [x.2])

variable (s) in
/-- The two tables find what the other was given. -/
abbrev Inverse : Prop :=
  MutuallyInverse (fun v : Addr => s.pageTable[v]?) fun p : Addr => s.inverseTable[p]?

/-- The bound of the physical pages. -/
def ppageBound : ℕ := 2 ^ 36 + 512

/-- The tables are inverse to each other and the pages that are mapped, and those that will be mapped
next to the last one, are small. -/
structure WellFormed (s : PageTables) : Prop where
  inverse : s.Inverse
  small : ∀ v p : Addr, s.pageTable[v]? = some p → p.toNat < ppageBound
  adjacent : s.previousPpage.toNat + s.numAdjacentPage.toNat < ppageBound

theorem Chosen.small (h : Chosen w s ppage adjacent) (hw : Allowed cfg s w)
    (hs : s.previousPpage.toNat + s.numAdjacentPage.toNat < ppageBound) :
    ppage.toNat + adjacent.toNat < ppageBound := by
  cases h with
  | adjacent hpos hp =>
    have hpos' : 0 < s.numAdjacentPage.toNat := hpos
    have hone : (1 : UInt64) ≤ s.numAdjacentPage := by
      rw [UInt64.le_iff_toNat_le]
      exact hpos'
    subst hp
    rw [UInt64.toNat_add, UInt64.toNat_sub_of_le _ _ hone, UInt64.toNat_one]
    rw [ppageBound] at hs ⊢
    omega
  | drawn hp =>
    have hle : ppage.toNat ≤ maxDraw.toNat := UInt64.le_iff_toNat_le.1 (hw.2 ppage hp)
    have hmax : maxDraw.toNat = 2 ^ 36 - 1 := by decide
    have hshift : ∀ n < 10, (1 <<< n.toUInt64 : UInt64).toNat ≤ 512 := by decide
    have hadj := hshift (w.rand % 10) (Nat.mod_lt _ (by decide))
    rw [ppageBound]
    omega

theorem WellFormed.step (h : s.WellFormed) (hw : Allowed cfg s w)
    (hs : Outcome cfg w s vpage uniqueVa s' r) : s'.WellFormed := by
  cases hs with
  | found => exact ⟨h.inverse, h.small, h.adjacent⟩
  | @allocated ppage adjacent hfree hroom hppage hchosen =>
    have hsum := hchosen.small hw h.adjacent
    refine ⟨?_, fun v p hv => ?_, hsum⟩
    · have hinverse : (s.mapFree vpage ppage adjacent).Inverse := by
        rw [Inverse, mapFree_pageTable hfree, mapFree_inverseTable hppage]
        exact h.inverse.insert hfree hppage
      exact hinverse
    · rw [stalled_pageTable, mapFree_lookup hfree] at hv
      rcases eq_or_ne v vpage with rfl | hne
      · obtain rfl : ppage = p := by simpa using hv
        omega
      · rw [Function.update_of_ne hne] at hv
        exact h.small v p hv
  | @swapped nruVpage ppage hfree hfull hnru =>
    have hvictim := (nru_some hnru).1
    refine ⟨?_, fun v p hv => ?_, h.adjacent⟩
    · have hinverse : (s.mapVictim vpage nruVpage ppage).Inverse := by
        rw [Inverse, mapVictim_pageTable hfree, mapVictim_inverseTable]
        exact h.inverse.retarget hvictim hfree
      exact hinverse
    · rw [stalled_pageTable, mapVictim_lookup hfree] at hv
      rcases eq_or_ne v vpage with rfl | hne
      · obtain rfl : ppage = p := by simpa using hv
        exact h.small nruVpage ppage hvictim
      · rw [Function.update_of_ne hne] at hv
        rcases eq_or_ne v nruVpage with rfl | hne'
        · rw [Function.update_self] at hv
          cases hv
        · rw [Function.update_of_ne hne'] at hv
          exact h.small v p hv

theorem init_wellFormed : PageTables.init.WellFormed := by
  refine ⟨fun v p => ?_, fun v p hv => ?_, by decide⟩
  · simp [PageTables.init]
  · simp [PageTables.init] at hv

theorem step_cases {os : List Walked} (h : (lts cfg).step s w = some (s', os)) :
    ∃ r, os = [r] ∧ w.va ≠ 0 ∧ ∃ mask, highBitMask cfg w.cpu = some mask ∧
      Outcome cfg w s (w.uniqueVpage ||| mask) (w.va ||| mask) s' r := by
  obtain ⟨⟨s₁, r⟩, hs, heq⟩ := Option.map_eq_some_iff.1 h
  cases heq
  exact ⟨r, rfl, vaToPa_cases hs⟩

/-- The tables are well formed in every reachable state. -/
theorem wellFormed_reachable (h : (lts cfg).Reachable (Allowed cfg) s) : s.WellFormed := by
  refine h.invariant (fun s hs => ?_) fun s w s' os hI hw hs => ?_
  · subst hs
    exact init_wellFormed
  · obtain ⟨r, -, -, mask, -, ho⟩ := step_cases hs
    exact hI.step hw ho

end

end PageTables

end Arishem
