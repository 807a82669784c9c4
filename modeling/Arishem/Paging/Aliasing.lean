import Arishem.Paging.Keys
import Arishem.Paging.Walks

/-!
# Aliasing

Two pages of the cores that are mapped at the same time lie in different physical pages, exactly when
the number of cores is a power of two up to 4096. Otherwise some core's number is rotated into the
bits of its pages, and two of its pages have one key.
-/

namespace Arishem

/-- The physical page of an answer. -/
def Walked.page (r : Walked) : Addr := r.pa >>> log2PageSize

/-- The page of a core is mapped. -/
def PageTables.Mapped (cfg : PagingConfig) (s : PageTables) (cpu : UInt32) (vpage : Addr) : Prop :=
  ∃ key, pageKey cfg cpu vpage = some key ∧ key ∈ s.pageTable

/-- A call for a page that a 64-bit address lies in. -/
structure Walk.Proper (cfg : PagingConfig) (w : Walk) : Prop where
  cpu : w.cpu.toNat < cfg.numCpus
  draws : ∀ d ∈ w.draws, d ≤ maxDraw
  va : w.va ≠ 0
  vpage : w.uniqueVpage.toNat < 2 ^ 52

/-- The two calls are for the same page of the same core. -/
def Walk.SamePage (w w' : Walk) : Prop := w.cpu = w'.cpu ∧ w.uniqueVpage = w'.uniqueVpage

/-- The answers of the calls in a trace replaced no page. -/
def NoSwap (tr : Lts.Trace Walk Walked) : Prop := ∀ x ∈ tr, ∀ r ∈ x.2, r.victim = none

/-- Address translation does not alias. -/
structure NoAliasing (cfg : PagingConfig) : Prop where
  /-- Pages that are mapped at the same time are in different physical pages. -/
  distinct : ∀ s, (PageTables.lts cfg).Reachable (PageTables.Allowed cfg) s →
    ∀ w w' : Walk, w.Proper cfg → w'.Proper cfg → ¬ w.SamePage w' →
    s.Mapped cfg w.cpu w.uniqueVpage → s.Mapped cfg w'.cpu w'.uniqueVpage →
    ∃ s₁ r s₁' r', s.vaToPa cfg w = some (s₁, r) ∧ s.vaToPa cfg w' = some (s₁', r') ∧
      r.page ≠ r'.page
  /-- As long as no page is replaced, a page stays where it is. -/
  stable : ∀ s, (PageTables.lts cfg).Reachable (PageTables.Allowed cfg) s →
    ∀ w w' : Walk, w.Proper cfg → w'.Proper cfg → w.SamePage w' →
    ∀ s₁ r, s.vaToPa cfg w = some (s₁, r) →
    ∀ tr s₂, (PageTables.lts cfg).Path (PageTables.Allowed cfg) s₁ tr s₂ → NoSwap tr →
    ∃ s₃ r', s₂.vaToPa cfg w' = some (s₃, r') ∧ r'.victim = none ∧ r'.page = r.page
  /-- The answer keeps the page offset. -/
  offset : ∀ s, (PageTables.lts cfg).Reachable (PageTables.Allowed cfg) s →
    ∀ w : Walk, w.Proper cfg → ∀ s' r, s.vaToPa cfg w = some (s', r) →
    r.pa &&& pageOffset = w.va &&& pageOffset

section
variable {cfg : PagingConfig} {w w' : Walk} {s s' s₁ s₂ : PageTables} {r r' : Walked}
variable {vpage uniqueVa ppage v p : Addr} {mask : UInt64}

/-! ## Bytes of physical pages -/

theorem pageOffset_toNat : pageOffset.toNat = 2 ^ 12 - 1 := by decide

/-- A small physical page is read back from the addresses of its bytes. -/
theorem byteOf_page (h : p.toNat < PageTables.ppageBound) (u : Addr) :
    byteOf p u >>> log2PageSize = p := by
  rw [PageTables.ppageBound] at h
  refine UInt64.toNat_inj.1 ?_
  have hlow : u.toNat % 2 ^ 12 < 2 ^ 12 := Nat.mod_lt _ (Nat.two_pow_pos 12)
  have hlog : log2PageSize.toNat % 64 = 12 := by decide
  rw [byteOf, UInt64.toNat_shiftRight, UInt64.toNat_or, UInt64.toNat_and, UInt64.toNat_shiftLeft,
    hlog, pageOffset_toNat, Nat.and_two_pow_sub_one_eq_mod, Nat.shiftLeft_eq,
    Nat.mod_eq_of_lt (by omega), Nat.mul_comm, ← Nat.two_pow_add_eq_or_of_lt hlow,
    Nat.shiftRight_eq_div_pow, Nat.mul_add_div (Nat.two_pow_pos 12), Nat.div_eq_of_lt hlow,
    Nat.add_zero]

theorem byteOf_offset (p u : Addr) : byteOf p u &&& pageOffset = u &&& pageOffset := by
  refine UInt64.toNat_inj.1 ?_
  have hlog : log2PageSize.toNat % 64 = 12 := by decide
  have hhigh : p.toNat <<< 12 % 2 ^ 64 % 2 ^ 12 = 0 := by
    rw [Nat.shiftLeft_eq]
    omega
  rw [byteOf, UInt64.toNat_and, UInt64.toNat_or, UInt64.toNat_and, UInt64.toNat_shiftLeft, hlog,
    pageOffset_toNat, Nat.and_two_pow_sub_one_eq_mod, Nat.and_two_pow_sub_one_eq_mod,
    Nat.or_mod_two_pow, hhigh, Nat.zero_or, Nat.mod_mod]

namespace PageTables

/-! ## Calls for mapped pages -/

theorem Mapped.lookup (h : s.Mapped cfg w.cpu w.uniqueVpage) :
    ∃ mask ppage, highBitMask cfg w.cpu = some mask ∧
      s.pageTable[w.uniqueVpage ||| mask]? = some ppage := by
  obtain ⟨key, hkey, hm⟩ := h
  obtain ⟨mask, hmask, rfl⟩ := Option.map_eq_some_iff.1 hkey
  rw [← Std.TreeMap.isSome_getElem?_iff_mem] at hm
  obtain ⟨ppage, hp⟩ := Option.isSome_iff_exists.1 hm
  exact ⟨mask, ppage, hmask, hp⟩

/-- A call for a mapped page returns an address in the physical page. -/
theorem vaToPa_of_mapped (hva : w.va ≠ 0) (hmask : highBitMask cfg w.cpu = some mask)
    (hp : s.pageTable[w.uniqueVpage ||| mask]? = some ppage) :
    s.vaToPa cfg w =
      some (s.stalled w cfg.pageTableLatency, ⟨byteOf ppage (w.va ||| mask), none⟩) := by
  have hmem : w.uniqueVpage ||| mask ∈ s.pageTable := by
    rw [← Std.TreeMap.isSome_getElem?_iff_mem, hp]
    rfl
  rw [vaToPa, if_neg hva, hmask]
  simp only [hmem, if_true, translate, hp]
  rfl

/-- A page that is not mapped gets a physical page while the memory is not full. -/
theorem vaToPa_free {d : Addr} (hva : w.va ≠ 0) (hmask : highBitMask cfg w.cpu = some mask)
    (hfree : w.uniqueVpage ||| mask ∉ s.pageTable) (hroom : s.allocatedPages < cfg.dramPages)
    (hdraws : w.draws = [d]) (hd : d ∉ s.inverseTable)
    (hadjacent : s.previousPpage + 1 ∉ s.inverseTable) :
    ∃ s' r, s.vaToPa cfg w = some (s', r) := by
  have halloc : ∃ s', s.allocate w (w.uniqueVpage ||| mask) = some s' ∧
      w.uniqueVpage ||| mask ∈ s'.pageTable := by
    rw [allocate]
    by_cases hpos : 0 < s.numAdjacentPage
    · rw [if_pos hpos, hdraws]
      simp only [findFree, if_neg hadjacent]
      exact ⟨_, rfl, by simp⟩
    · rw [if_neg hpos, hdraws]
      simp only [findFree, if_neg hd]
      exact ⟨_, rfl, by simp⟩
  obtain ⟨s', hs', hm⟩ := halloc
  rw [← Std.TreeMap.isSome_getElem?_iff_mem] at hm
  obtain ⟨ppage, hp⟩ := Option.isSome_iff_exists.1 hm
  rw [vaToPa, if_neg hva, hmask]
  simp only [hfree, if_false, not_le.2 hroom, hs', translate, hp]
  exact ⟨_, _, rfl⟩

/-- After a call its page is mapped to the physical page of the answer. -/
theorem Outcome.lookup (h : Outcome cfg w s vpage uniqueVa s' r) :
    ∃ ppage, s'.pageTable[vpage]? = some ppage ∧ r.pa = byteOf ppage uniqueVa := by
  cases h with
  | found hp => exact ⟨_, hp, rfl⟩
  | @allocated ppage adjacent hfree _ _ _ =>
    exact ⟨ppage, by rw [stalled_pageTable, mapFree_self hfree], rfl⟩
  | @swapped nruVpage ppage hfree _ _ =>
    exact ⟨ppage, by rw [stalled_pageTable, mapVictim_self hfree], rfl⟩

/-- A call without a victim keeps the pages that are mapped. -/
theorem Outcome.keeps (h : Outcome cfg w s vpage uniqueVa s' r) (hr : r.victim = none)
    (hv : s.pageTable[v]? = some p) : s'.pageTable[v]? = some p := by
  cases h with
  | found => exact hv
  | allocated hfree _ _ _ =>
    have hne : v ≠ vpage := by
      rintro rfl
      exact absurd (hv.symm.trans hfree) (by simp)
    rw [stalled_pageTable, mapFree_lookup hfree, Function.update_of_ne hne, hv]
  | swapped => cases hr

/-- A path without victims keeps the pages that are mapped. -/
theorem keeps_path {tr : Lts.Trace Walk Walked} (h : (lts cfg).Path (Allowed cfg) s tr s')
    (htr : NoSwap tr) (hv : s.pageTable[v]? = some p) : s'.pageTable[v]? = some p := by
  induction h with
  | nil => exact hv
  | @step s₁ s₂ tr w os _ _ hs ih =>
    have hv₁ := ih fun x hx => htr x (List.mem_append_left _ hx)
    obtain ⟨r, rfl, -, mask, -, ho⟩ := step_cases hs
    refine ho.keeps ?_ hv₁
    exact htr (w, [r]) (by simp) r (List.mem_singleton_self r)

end PageTables

/-! ## Powers of two -/

/-- With a power of two up to 4096 there is no aliasing. -/
theorem noAliasing_of_powerOfTwo (h : cfg.PowerOfTwo) : NoAliasing cfg where
  distinct s hs w w' hw hw' hne hm hm' := by
    have hwf := PageTables.wellFormed_reachable hs
    obtain ⟨mask, ppage, hmask, hp⟩ := hm.lookup
    obtain ⟨mask', ppage', hmask', hp'⟩ := hm'.lookup
    refine ⟨_, _, _, _, PageTables.vaToPa_of_mapped hw.va hmask hp,
      PageTables.vaToPa_of_mapped hw'.va hmask' hp', ?_⟩
    rw [Walked.page, Walked.page, byteOf_page (hwf.small _ _ hp), byteOf_page (hwf.small _ _ hp')]
    rintro rfl
    have hkey := hwf.inverse.inj hp hp'
    have hk : pageKey cfg w.cpu w.uniqueVpage = some (w.uniqueVpage ||| mask) := by
      rw [pageKey, hmask, Option.map_some]
    have hk' : pageKey cfg w'.cpu w'.uniqueVpage = some (w.uniqueVpage ||| mask) := by
      rw [pageKey, hmask', Option.map_some, hkey]
    exact hne (pageKey_inj h hw.cpu hw'.cpu hw.vpage hw'.vpage hk hk')
  stable s hs w w' hw hw' hsame s₁ r hr tr s₂ hpath htr := by
    obtain ⟨hcpu, hvpage⟩ := hsame
    obtain ⟨-, mask, hmask, ho⟩ := PageTables.vaToPa_cases hr
    obtain ⟨ppage, hp, hpa⟩ := ho.lookup
    have hstep : (PageTables.lts cfg).step s w = some (s₁, [r]) := by
      simp [PageTables.lts, hr]
    have hs₁ := hs.step (show PageTables.Allowed cfg s w from ⟨hw.cpu, hw.draws⟩) hstep
    have hsmall := (PageTables.wellFormed_reachable hs₁).small _ _ hp
    have hp₂ := PageTables.keeps_path hpath htr hp
    rw [hvpage] at hp₂
    rw [hcpu] at hmask
    refine ⟨_, _, PageTables.vaToPa_of_mapped hw'.va hmask hp₂, rfl, ?_⟩
    rw [Walked.page, Walked.page, hpa, byteOf_page hsmall, byteOf_page hsmall]
  offset s hs w hw s' r hr := by
    obtain ⟨-, mask, hmask, ho⟩ := PageTables.vaToPa_cases hr
    obtain ⟨ppage, -, hpa⟩ := ho.lookup
    rw [hpa, byteOf_offset, offset_of_powerOfTwo h hw.cpu hmask]

/-- When `NUM_CPUS` is zero as an `int`, no call passes the check of `rotr64`. -/
theorem noAliasing_of_overflows (h : cfg.Overflows) : NoAliasing cfg where
  distinct s hs w w' hw hw' hne hm hm' := by
    obtain ⟨mask, ppage, hmask, -⟩ := hm.lookup
    rw [highBitMask_of_overflows h] at hmask
    cases hmask
  stable s hs w w' hw hw' hsame s₁ r hr tr s₂ hpath htr := by
    obtain ⟨-, mask, hmask, -⟩ := PageTables.vaToPa_cases hr
    rw [highBitMask_of_overflows h] at hmask
    cases hmask
  offset s hs w hw s' r hr := by
    obtain ⟨-, mask, hmask, -⟩ := PageTables.vaToPa_cases hr
    rw [highBitMask_of_overflows h] at hmask
    cases hmask

/-! ## The other numbers of cores -/

/-- Otherwise the mask of some core has bits among those of the pages, and none above them. -/
theorem exists_low_mask (hpow : ¬ cfg.PowerOfTwo) (hover : ¬ cfg.Overflows) :
    ∃ cpu mask, cpu.toNat < cfg.numCpus ∧ highBitMask cfg cpu = some mask ∧ mask ≠ 0 ∧
      mask.toNat < 2 ^ 52 := by
  have hrot : cfg.rotation < 32 := PagingConfig.rotation_lt
  rcases Nat.lt_or_ge (2 ^ cfg.rotation) cfg.numCpus with hlt | hge
  · -- the core whose number is the rounded power of two gets the mask one
    have hone : ∀ k < 32, ((UInt32.ofNat (2 ^ k)).toUInt64 >>> UInt64.ofNat k) |||
        ((UInt32.ofNat (2 ^ k)).toUInt64 <<< UInt64.ofNat ((64 - k) % 64)) = 1 := by decide
    have hcpu : ∀ k < 32, (UInt32.ofNat (2 ^ k)).toNat = 2 ^ k := by decide
    refine ⟨UInt32.ofNat (2 ^ cfg.rotation), 1, ?_, ?_, by decide, by decide⟩
    · rw [hcpu _ hrot]
      exact hlt
    · rw [highBitMask_eq hover, hone _ hrot]
  · -- the number is a power of two, and core one gets a bit below the bits of no page
    have hne : cfg.numCpusInt.natAbs ≠ 0 := by
      rw [Int.natAbs_ne_zero]
      exact fun h0 => hover (PagingConfig.numCpusInt_eq_zero.1 h0)
    have hle : 2 ^ cfg.rotation ≤ cfg.numCpus :=
      (Nat.log2_self_le hne).trans PagingConfig.natAbs_numCpusInt_le.1
    have hlarge : 13 ≤ cfg.rotation := by
      by_contra hsmall
      exact hpow ⟨cfg.rotation, by omega, le_antisymm hge hle⟩
    have hbit : ∀ k < 32, 13 ≤ k → ((1 : UInt32).toUInt64 >>> UInt64.ofNat k) |||
        ((1 : UInt32).toUInt64 <<< UInt64.ofNat ((64 - k) % 64)) ≠ 0 ∧
        (((1 : UInt32).toUInt64 >>> UInt64.ofNat k) |||
          ((1 : UInt32).toUInt64 <<< UInt64.ofNat ((64 - k) % 64))).toNat < 2 ^ 52 := by decide
    obtain ⟨hzero, hlow⟩ := hbit _ hrot hlarge
    refine ⟨1, _, ?_, highBitMask_eq hover 1, hzero, hlow⟩
    calc 1 < 2 ^ cfg.rotation := Nat.one_lt_two_pow (by omega)
      _ ≤ cfg.numCpus := hle

/-- Otherwise two pages of one core have the same physical page. -/
theorem not_noAliasing (hpow : ¬ cfg.PowerOfTwo) (hover : ¬ cfg.Overflows) : ¬ NoAliasing cfg := by
  intro h
  obtain ⟨cpu, mask, hcpu, hmask, hne, hlow⟩ := exists_low_mask hpow hover
  let walk (va v : Addr) : Walk := ⟨cpu, va, v, 0, [0], 0⟩
  have hproper : ∀ va v : Addr, va ≠ 0 → v.toNat < 2 ^ 52 → (walk va v).Proper cfg := by
    intro va v hva hv
    refine ⟨hcpu, fun d hd => ?_, hva, hv⟩
    obtain rfl := List.mem_singleton.1 hd
    decide
  have hw : (walk 8 0).Proper cfg := hproper 8 0 (by decide) (by decide)
  have hw' : (walk (mask <<< log2PageSize) mask).Proper cfg := by
    refine hproper _ _ (fun h0 => ?_) hlow
    have hshift := congrArg UInt64.toNat h0
    have hlog : log2PageSize.toNat % 64 = 12 := by decide
    rw [UInt64.toNat_shiftLeft, hlog, Nat.shiftLeft_eq, Nat.mod_eq_of_lt (by omega)] at hshift
    exact hne (UInt64.toNat_inj.1 (by simpa using hshift))
  -- the first of the two pages is mapped, and with it the second
  obtain ⟨s, r, hr⟩ := PageTables.vaToPa_free (w := walk 8 0) (s := PageTables.init) hw.va hmask
    (by simp [PageTables.init]) cfg.dramPages_pos rfl (by simp [PageTables.init])
    (by simp [PageTables.init])
  have hok : PageTables.Allowed cfg PageTables.init (walk 8 0) := ⟨hw.cpu, hw.draws⟩
  have hstep : (PageTables.lts cfg).step PageTables.init (walk 8 0) = some (s, [r]) := by
    simp [PageTables.lts, hr]
  have hs : (PageTables.lts cfg).Reachable (PageTables.Allowed cfg) s :=
    Lts.Reachable.step (Lts.Reachable.init rfl) hok hstep
  obtain ⟨-, mask', hmask', ho⟩ := PageTables.vaToPa_cases hr
  obtain rfl : mask = mask' := Option.some.inj (hmask.symm.trans hmask')
  obtain ⟨ppage, hp, -⟩ := ho.lookup
  have hzero : (0 : Addr) ||| mask = mask := UInt64.zero_or
  have hself : mask ||| mask = mask := UInt64.or_self
  have hlook : s.pageTable[mask]? = some ppage := by
    rw [← hzero]
    exact hp
  have hmem : mask ∈ s.pageTable := by
    rw [← Std.TreeMap.isSome_getElem?_iff_mem, hlook]
    rfl
  have hm : s.Mapped cfg cpu 0 := ⟨mask, by rw [pageKey, hmask, Option.map_some, hzero], hmem⟩
  have hm' : s.Mapped cfg cpu mask := ⟨mask, by rw [pageKey, hmask, Option.map_some, hself], hmem⟩
  have hpair : ¬ (walk 8 0).SamePage (walk (mask <<< log2PageSize) mask) := fun hsame =>
    hne hsame.2.symm
  have hlook' : s.pageTable[mask ||| mask]? = some ppage := by rw [hself, hlook]
  obtain ⟨s₁, r₁, s₂, r₂, h₁, h₂, hpages⟩ := h.distinct s hs _ _ hw hw' hpair hm hm'
  rw [PageTables.vaToPa_of_mapped hw.va hmask hp] at h₁
  rw [PageTables.vaToPa_of_mapped hw'.va hmask hlook'] at h₂
  cases h₁
  cases h₂
  have hsmall := (PageTables.wellFormed_reachable hs).small _ _ hlook
  refine hpages ?_
  rw [Walked.page, Walked.page, byteOf_page hsmall, byteOf_page hsmall]

/-- Address translation does not alias exactly when the number of cores is a power of two up to
4096, or such that every call fails its check. -/
theorem noAliasing_iff (cfg : PagingConfig) :
    NoAliasing cfg ↔ cfg.PowerOfTwo ∨ cfg.Overflows := by
  constructor
  · intro h
    by_contra hnot
    obtain ⟨hpow, hover⟩ := not_or.1 hnot
    exact not_noAliasing hpow hover h
  · rintro (h | h)
    · exact noAliasing_of_powerOfTwo h
    · exact noAliasing_of_overflows h

/-- Three cores. -/
def threeCpus : PagingConfig where
  numCpus := 3
  dramPages := 1048576
  swapLatency := 100000
  pageTableLatency := 0
  numCpus_pos := by decide
  dramPages_pos := by decide

/-- With three cores the third core's number is rotated into the lowest bit of its pages. -/
theorem three_cpus_alias : ¬ ∀ cfg, NoAliasing cfg := by
  intro h
  have hpow : ¬ threeCpus.PowerOfTwo := by
    rintro ⟨k, -, hk⟩
    have hk : 3 = 2 ^ k := hk
    match k, hk with
    | 0, hk => cases hk
    | 1, hk => cases hk
    | k + 2, hk =>
      rw [Nat.pow_add] at hk
      omega
  have hover : ¬ threeCpus.Overflows := by
    rintro ⟨d, hd⟩
    have hd : 3 = 0x100000000 * d := hd
    omega
  exact not_noAliasing hpow hover (h threeCpus)

end

end Arishem
