import Arishem.Paging.Aliasing

/-!
# Page faults

A walk for a page that is not mapped takes a free physical page, or that of a victim once the memory
is full. Only the translation of the victim is lost, and the victim is the least page in the order of
the keys that was not used recently.
-/

namespace Arishem

namespace PageTables

section
variable {cfg : PagingConfig} {w : Walk} {s s' : PageTables} {r : Walked}
variable {vpage uniqueVa v p : Addr} {victim : Addr × Addr}

/-- A page keeps its translation over a walk, unless it is the victim. -/
theorem Outcome.keeps_of_ne (h : Outcome cfg w s vpage uniqueVa s' r)
    (hne : ∀ victim, r.victim = some victim → v ≠ victim.1) (hv : s.pageTable[v]? = some p) :
    s'.pageTable[v]? = some p := by
  cases h with
  | found => exact hv
  | allocated hfree _ _ _ =>
    have hvpage : v ≠ vpage := by
      rintro rfl
      exact absurd (hv.symm.trans hfree) (by simp)
    rw [stalled_pageTable, mapFree_lookup hfree, Function.update_of_ne hvpage, hv]
  | @swapped nruVpage ppage hfree _ _ =>
    have hvpage : v ≠ vpage := by
      rintro rfl
      exact absurd (hv.symm.trans hfree) (by simp)
    rw [stalled_pageTable, mapVictim_lookup hfree, Function.update_of_ne hvpage,
      Function.update_of_ne (hne _ rfl), hv]

/-- The data that the STLB gets is the physical page to which the walk maps its page. -/
theorem Outcome.data (h : Outcome cfg w s vpage uniqueVa s' r) (hs : s'.WellFormed) :
    s'.pageTable[vpage]? = some (r.pa >>> log2PageSize) := by
  obtain ⟨ppage, hp, hpa⟩ := h.lookup
  rw [hpa, byteOf_page (hs.small _ _ hp), hp]

/-- Where a walk has a victim, its page is not mapped, the memory is full, and the victim is the
one that `va_to_pa` picks. -/
theorem Outcome.fault (h : Outcome cfg w s vpage uniqueVa s' r) (hr : r.victim = some victim) :
    vpage ∉ s.pageTable ∧ cfg.dramPages ≤ s.allocatedPages ∧ s.nru = some victim := by
  cases h with
  | found | allocated => cases hr
  | swapped hfree hfull hnru =>
    refine ⟨fun hm => ?_, hfull, hnru.trans (by simpa using hr)⟩
    rw [← Std.TreeMap.isSome_getElem?_iff_mem, hfree] at hm
    cases hm

/-- A page table walk that faults while the memory is full swaps the victim that it picks, and the
victim's page is mapped no more. -/
theorem Outcome.swaps (h : Outcome cfg w s vpage uniqueVa s' r) (hfree : vpage ∉ s.pageTable)
    (hfull : cfg.dramPages ≤ s.allocatedPages) (hnru : s.nru = some victim) :
    r.victim = some victim ∧ s'.pageTable[victim.1]? = none := by
  cases h with
  | found hp => exact absurd (Std.TreeMap.getElem?_eq_none hfree) (by simp [hp])
  | allocated _ hroom => exact absurd hfull (not_le.2 hroom)
  | @swapped nruVpage ppage hnone _ hnru' =>
    obtain rfl : (nruVpage, ppage) = victim := Option.some.inj (hnru'.symm.trans hnru)
    refine ⟨rfl, ?_⟩
    have hne : nruVpage ≠ vpage := by
      rintro rfl
      rw [(nru_some hnru).1] at hnone
      cases hnone
    rw [stalled_pageTable, mapVictim_lookup hnone,
      Function.update_of_ne hne, Function.update_self]

/-- A page that is not mapped gets the physical page of the victim when the memory is full. -/
theorem vaToPa_full {mask : UInt64} (hva : w.va ≠ 0) (hmask : highBitMask cfg w.cpu = some mask)
    (hfree : w.uniqueVpage ||| mask ∉ s.pageTable) (hfull : cfg.dramPages ≤ s.allocatedPages)
    (hnru : s.nru = some victim) (hppage : victim.2 ∈ s.inverseTable) :
    ∃ s' r, s.vaToPa cfg w = some (s', r) := by
  have hswap : ∃ s', s.swap (w.uniqueVpage ||| mask) = some (s', victim) ∧
      w.uniqueVpage ||| mask ∈ s'.pageTable := by
    rw [swap, hnru]
    simp only [hppage, if_true]
    exact ⟨_, rfl, by simp⟩
  obtain ⟨s', hs', hm⟩ := hswap
  rw [← Std.TreeMap.isSome_getElem?_iff_mem] at hm
  obtain ⟨p, hp⟩ := Option.isSome_iff_exists.1 hm
  rw [vaToPa, if_neg hva, hmask]
  simp only [hfree, if_false, hfull, if_true, hs', translate, hp]
  exact ⟨_, _, rfl⟩

/-- Where no page was used recently, the victim is the least page. -/
theorem nru_of_least (hrecent : s.recentPage = ∅) (hv : s.pageTable[v]? = some p)
    (hleast : ∀ v' ∈ s.pageTable, v ≤ v') : s.nru = some (v, p) := by
  have hmem : (v, p) ∈ s.pageTable.toList := Std.TreeMap.mem_toList_iff_getElem?_eq_some.2 hv
  have hsorted := Std.TreeMap.ordered_keys_toList (t := s.pageTable)
  rw [nru, hrecent]
  cases hl : s.pageTable.toList with
  | nil =>
    rw [hl] at hmem
    cases hmem
  | cons pr l =>
    rw [hl] at hmem hsorted
    rw [List.find?_cons_of_pos (by simp)]
    rcases List.mem_cons.1 hmem with rfl | hmem
    · rfl
    · -- no key is before the least one
      have hlt : compare pr.1 v = .lt := (List.pairwise_cons.1 hsorted).1 _ hmem
      have hpr : s.pageTable[pr.1]? = some pr.2 := by
        rw [← Std.TreeMap.mem_toList_iff_getElem?_eq_some, hl]
        exact List.mem_cons_self
      have hle := hleast pr.1 (by
        rw [← Std.TreeMap.isSome_getElem?_iff_mem, hpr]
        rfl)
      exact absurd (compare_lt_iff_lt.1 hlt) (not_lt.2 hle)

end

end PageTables

end Arishem
