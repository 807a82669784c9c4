import Arishem.Hierarchy.PageReads

/-!
# Stale translations

A run leaves nothing stale exactly when each swap in it finds all copies of its victim. They do not
all: with two cores, core 0 reads so many pages that the memory is full, and core 1 reads one more.
The victim is then a page of core 0, and `va_to_pa` looks into the TLBs of core 1 only.
-/

namespace Arishem

namespace MemorySystem

section
variable {cfg : PagingConfig} {m m' : MemorySystem}

/-! ## Runs -/

/-- The state at the end of a run is determined by its trace. -/
theorem run_unique {tr : Lts.Trace MemoryTurn Walked} (h : (lts cfg).Run (Allowed cfg) m tr)
    (h' : (lts cfg).Run (Allowed cfg) m' tr) : m = m' := by
  obtain ⟨s, rfl, hp⟩ := h
  obtain ⟨s', rfl, hp'⟩ := h'
  exact hp.unique hp'

/-- While all swaps are swept the translations are current. -/
theorem current_of_swept (h : (lts cfg).Reachable (SweptStep cfg) m) : m.Current cfg := by
  refine h.invariant ?_ fun s l s' os hI hl hs => hI.step hl.1 hl.2 hs
  rintro s rfl
  exact Current.init

/-- Where all swaps of a run are swept, so are those of its beginnings. -/
theorem AllSwept.of_isPrefix {tr tr' : Lts.Trace MemoryTurn Walked} (h : AllSwept cfg tr)
    (hp : tr' <+: tr) : AllSwept cfg tr' :=
  fun tr₁ x m hx => h tr₁ x m (hx.trans hp)

/-- A run whose swaps are swept takes such steps only. -/
theorem AllSwept.reachable {tr : Lts.Trace MemoryTurn Walked} (hall : AllSwept cfg tr)
    (h : (lts cfg).Run (Allowed cfg) m tr) : (lts cfg).Reachable (SweptStep cfg) m := by
  refine h.induct (P := fun m tr => AllSwept cfg tr → (lts cfg).Reachable (SweptStep cfg) m)
    ?_ ?_ hall
  · intro s hs _
    exact .init hs
  · intro s tr l s' os hrun ih hl hs hall
    have hsw : s.SwapsSwept cfg l := hall tr (l, os) s (List.prefix_refl _) hrun
    exact (ih (hall.of_isPrefix (List.prefix_append _ _))).step ⟨hl, hsw⟩ hs

/-- The swaps of a run of such steps are swept. -/
theorem allSwept_of_run {tr : Lts.Trace MemoryTurn Walked}
    (h : (lts cfg).Run (SweptStep cfg) m tr) : AllSwept cfg tr := by
  refine h.induct (P := fun _ tr => AllSwept cfg tr) ?_ fun s tr l s' os hrun ih hl hs => ?_
  · intro s _ tr₁ x m hp
    simp at hp
  · intro tr₁ x m₁ hp hrun₁
    rcases List.prefix_concat_iff.1 hp with he | hp
    · obtain ⟨rfl, hx⟩ := List.append_inj' he rfl
      obtain rfl : x = (l, os) := by simpa using hx
      obtain rfl := run_unique (hrun.mono fun _ _ hl => hl.1) hrun₁
      exact hl.2
    · exact ih tr₁ x m₁ hp hrun₁

/-- A run leaves nothing stale in any of its states exactly when each swap in it finds all copies of
its victim. -/
theorem neverStale_iff (cfg : PagingConfig) (tr : Lts.Trace MemoryTurn Walked) (m : MemorySystem)
    (h : (lts cfg).Run (Allowed cfg) m tr) : NeverStale cfg tr ↔ AllSwept cfg tr := by
  constructor
  · refine h.induct (P := fun _ tr => NeverStale cfg tr → AllSwept cfg tr) ?_ ?_
    · intro s _ _ tr₁ x m hp
      simp at hp
    · intro s tr l s' os hrun ih hl hs hnever
      have hall : AllSwept cfg tr :=
        ih fun tr₁ m hp => hnever tr₁ m (hp.trans (List.prefix_append _ _))
      intro tr₁ x m₁ hp hrun₁
      rcases List.prefix_concat_iff.1 hp with he | hp
      · -- the last step sweeps its swap, or it leaves something stale
        obtain ⟨rfl, hx⟩ := List.append_inj' he rfl
        obtain rfl : x = (l, os) := by simpa using hx
        obtain rfl := run_unique hrun hrun₁
        exact (current_of_swept (hall.reachable hrun)).swept hrun hl hs
          (hnever _ s' (List.prefix_refl _) (hrun.step hl hs))
      · exact hall tr₁ x m₁ hp hrun₁
  · intro hall tr₁ m₁ hp hrun
    have hall₁ := hall.of_isPrefix hp
    exact ⟨(current_of_swept (hall₁.reachable hrun)).fresh, fun k a ho => ho.not_allSwept hall₁⟩

end

/-! ## Two cores -/

/-- Two cores, and a memory of 4 GB. -/
def twoCpus : PagingConfig :=
  { threeCpus with
    numCpus := 2
    numCpus_pos := Nat.le_succ 1 }

/-! ## Filling the memory -/

theorem twoCpus_powerOfTwo : twoCpus.PowerOfTwo := ⟨1, by decide, rfl⟩

/-- The key of a page of one of two cores. -/
theorem key_of_two (cpu : ℕ) (hcpu : cpu < 2) (v : Addr) (hv : v.toNat < 2 ^ 52) :
    ∃ mask, highBitMask twoCpus (UInt32.ofNat cpu) = some mask ∧
      (v ||| mask).toNat = 2 ^ 63 * cpu + v.toNat := by
  have hmask := highBitMask_eq twoCpus_powerOfTwo.not_overflows (UInt32.ofNat cpu)
  have hcpus : (UInt32.ofNat cpu).toNat = cpu := by
    rw [UInt32.toNat_ofNat']
    omega
  refine ⟨_, hmask, ?_⟩
  have hkey {key : Addr} (h : pageKey twoCpus (UInt32.ofNat cpu) v = some key) :
      key.toNat = 2 ^ 63 * cpu + v.toNat := by
    rw [pageKey_toNat (k := 1) (by decide) rfl (hcpus.trans_lt hcpu) hv h, hcpus]
  exact hkey (by rw [pageKey, hmask, Option.map_some])

/-- Core 0 has read `k` pages, from the page `2 ^ 20 + 1` down, and core 1 has done nothing. -/
structure Filled (k : ℕ) (m : MemorySystem) : Prop where
  rest : AtRest twoCpus.numCpus (UInt64.ofNat (2 ^ 20 + 2 - k)) (m.tlb 0)
  other : m.tlb 1 = (coreTlbs 2 1).start
  lines : m.cache = (start twoCpus).cache
  allocated : m.tables.allocatedPages.toNat = k
  previous : m.tables.previousPpage.toNat = k
  recent : m.tables.recentPage = ∅
  pages : ∀ v ∈ m.tables.pageTable, 2 ^ 20 + 1 < v.toNat + k ∧ v.toNat ≤ 2 ^ 20 + 1
  ppages : ∀ p ∈ m.tables.inverseTable, p.toNat ≤ k
  last : 0 < k →
    HoldsPage (itlbConfig 2) (UInt64.ofNat (2 ^ 20 + 2 - k)) ((m.tlb 0).upper .icache) ∧
    HoldsPage (stlbConfig 2) (UInt64.ofNat (2 ^ 20 + 2 - k)) (m.tlb 0).lower

section
variable {m : MemorySystem} {k : ℕ}

theorem Filled.init : Filled 0 (start twoCpus) :=
  ⟨AtRest.start 2 0 _, rfl, rfl, rfl, rfl, rfl, fun v hv => by simp [start, PageTables.init] at hv,
    fun p hp => by simp [start, PageTables.init] at hp, fun h => absurd h (lt_irrefl 0)⟩

/-- What a walk for the next page does to the tables. -/
theorem Filled.allocate (h : Filled k m) (hk : k < 2 ^ 20) {w : Walk} {a key uniqueVa : Addr}
    {tables : PageTables} {r : Walked} (ha : a.toNat = 2 ^ 20 + 1 - k) (hkey : key.toNat = a.toNat)
    (hw : w.draws = [UInt64.ofNat (k + 1)])
    (ho : PageTables.Outcome twoCpus w m.tables key uniqueVa tables r) :
    r.victim = none ∧ r.pa >>> log2PageSize ≠ 0 ∧ tables.allocatedPages.toNat = k + 1 ∧
      tables.previousPpage.toNat = k + 1 ∧ tables.recentPage = ∅ ∧
      (∀ v ∈ tables.pageTable, 2 ^ 20 + 1 < v.toNat + (k + 1) ∧ v.toNat ≤ 2 ^ 20 + 1) ∧
      ∀ p ∈ tables.inverseTable, p.toNat ≤ k + 1 := by
  have hroom : ¬ twoCpus.dramPages ≤ m.tables.allocatedPages := by
    have hdram : twoCpus.dramPages.toNat = 2 ^ 20 := by decide
    rw [UInt64.le_iff_toNat_le, h.allocated, hdram]
    omega
  cases ho with
  | found hp =>
    have hmem : key ∈ m.tables.pageTable := by
      rw [← Std.TreeMap.isSome_getElem?_iff_mem, hp]
      rfl
    have hpage := (h.pages key hmem).1
    omega
  | swapped _ hfull => exact absurd hfull hroom
  | @allocated ppage adjacent hnone _ hppage hchosen =>
    have hppage' : ppage.toNat = k + 1 := by
      cases hchosen with
      | adjacent _ he =>
        rw [he, UInt64.toNat_add, h.previous]
        show (k + 1) % 2 ^ 64 = k + 1
        omega
      | drawn hd =>
        rw [hw, List.mem_singleton] at hd
        rw [hd, UInt64.toNat_ofNat']
        omega
    refine ⟨rfl, ?_, ?_, hppage', h.recent, fun v hv => ?_, fun p hp => ?_⟩
    · rw [byteOf_page (by rw [hppage', PageTables.ppageBound]; omega)]
      rintro rfl
      cases hppage'
    · show (m.tables.allocatedPages + 1).toNat = k + 1
      rw [UInt64.toNat_add, h.allocated]
      show (k + 1) % 2 ^ 64 = k + 1
      omega
    · rcases Std.TreeMap.mem_insertIfNew.1 hv with he | hv
      · obtain rfl : key = v := by simpa using he
        omega
      · have hpage := h.pages v hv
        omega
    · rcases Std.TreeMap.mem_insertIfNew.1 hp with he | hp
      · obtain rfl : ppage = p := by simpa using he
        omega
      · have hpage := h.ppages p hp
        omega

/-- The walk for the next page allocates a physical page. -/
theorem Filled.vaToPa (h : Filled k m) (hk : k < 2 ^ 20) {a : Addr} (ha : a.toNat = 2 ^ 20 + 1 - k)
    (env : Env) {n : ℕ} {p : Packet} (hp : Asks 0 a n p) :
    ∃ tables r, m.tables.vaToPa twoCpus (walkOf env p [UInt64.ofNat (k + 1)] 0) =
      some (tables, r) := by
  obtain ⟨mask, hmask, hkey⟩ := key_of_two 0 (by decide) a (by omega)
  have hnew : (UInt64.ofNat (k + 1)).toNat = k + 1 := by
    rw [UInt64.toNat_ofNat']
    omega
  have hfree (d : Addr) (hd : d.toNat = k + 1) : d ∉ m.tables.inverseTable := fun hm => by
    have hle := h.ppages d hm
    omega
  refine PageTables.vaToPa_free ?_ (show highBitMask twoCpus (UInt32.ofNat p.cpu) = some mask by
    rw [hp.cpu, hmask]) ?_ ?_ rfl (hfree _ hnew) (hfree _ ?_)
  · show p.fullAddr ≠ 0
    rw [hp.fullAddr]
    intro h0
    have hshift := congrArg UInt64.toNat h0
    have hlog : log2PageSize.toNat % 64 = 12 := by decide
    rw [UInt64.toNat_shiftLeft, hlog, Nat.shiftLeft_eq, Nat.mod_eq_of_lt (by omega)] at hshift
    have hzero : (0 : Addr).toNat = 0 := rfl
    omega
  · show p.address ||| mask ∉ m.tables.pageTable
    rw [hp.address]
    intro hm
    have hpage := (h.pages _ hm).1
    omega
  · rw [UInt64.lt_iff_toNat_lt, h.allocated]
    exact hk
  · rw [UInt64.toNat_add, h.previous]
    show (k + 1) % 2 ^ 64 = k + 1
    omega

theorem ofNat_toNat {i : ℕ} (hi : i ≤ 2 ^ 20 + 2) : (UInt64.ofNat i).toNat = i := by
  rw [UInt64.toNat_ofNat']
  omega

/-- Core 1 does nothing. -/
theorem Filled.others (h : Filled k m) (c : ℕ) (hc : c < twoCpus.numCpus) (hne : c ≠ 0) :
    (m.tlb c).calls = [] := by
  have hc : c < 2 := hc
  obtain rfl : c = 1 := by omega
  rw [h.other]
  rfl

/-- While the memory is not full no step swaps. -/
theorem swapsSwept_of_room (hroom : m.tables.allocatedPages < twoCpus.dramPages)
    (l : MemoryTurn) : m.SwapsSwept twoCpus l := by
  intro q victim hf
  cases l with
  | data => cases hf
  | tlb =>
    have hfull := (Option.filter_eq_some_iff.1 hf).2
    have hle : twoCpus.dramPages ≤ m.tables.allocatedPages := by
      simpa using (Bool.and_eq_true_iff.1 hfull).2
    exact absurd hroom (not_lt.2 hle)

/-- Core 0 reads one more page. -/
theorem Filled.step (hm : (lts twoCpus).Reachable (SweptStep twoCpus) m) (h : Filled k m)
    (hk : k < 2 ^ 20) :
    ∃ m', (lts twoCpus).Reachable (SweptStep twoCpus) m' ∧ Filled (k + 1) m' := by
  have hsub : 2 ^ 20 + 2 - (k + 1) = 2 ^ 20 + 1 - k := by omega
  set a : Addr := UInt64.ofNat (2 ^ 20 + 1 - k) with ha
  have haNat : a.toNat = 2 ^ 20 + 1 - k := ofNat_toNat (by omega)
  have ha0 : a ≠ 0 := by
    intro h0
    rw [h0] at haNat
    have hzero : (0 : Addr).toNat = 0 := rfl
    omega
  have hlt : a < UInt64.ofNat (2 ^ 20 + 2 - k) := by
    rw [UInt64.lt_iff_toNat_lt, haNat, ofNat_toNat (by omega)]
    omega
  have hroom : m.tables.allocatedPages < twoCpus.dramPages := by
    have hdram : twoCpus.dramPages.toNat = 2 ^ 20 := by decide
    rw [UInt64.lt_iff_toNat_lt, h.allocated, hdram]
    exact hk
  -- the request comes to the STLB
  obtain ⟨tlb₁, e, p, hmoves₁, hbefore, -⟩ :=
    h.rest.request 0 (32 * k) ha0 hlt (by decide) (by omega)
  have hm₁ := moves_reachable hm (by decide) h.others hmoves₁
  -- the STLB walks
  obtain ⟨tables, r, hva⟩ := h.vaToPa hk haNat (Env.clock (32 * k + 9)) hbefore.request
  have hdraws : ∀ d ∈ [UInt64.ofNat (k + 1)], d ≤ maxDraw := fun d hd => by
    obtain rfl := List.mem_singleton.1 hd
    have hmax : maxDraw.toNat = 2 ^ 36 - 1 := by decide
    rw [UInt64.le_iff_toNat_le, ofNat_toNat (by omega)]
    omega
  obtain ⟨-, hl, tlb₂, e', hs₂, hafter, hdata⟩ :=
    walk_step hbefore ha0 hlt (by decide) (by omega) h.others hdraws hva rfl rfl
  obtain ⟨key, uniqueVa, hkey, ho⟩ := walk_outcome hva
  have hkeyNat : key.toNat = a.toNat := by
    obtain ⟨mask, hmask, hmaskNat⟩ := key_of_two 0 (by decide) a (by omega)
    rw [hbefore.request.cpu, hbefore.request.address, pageKey, hmask] at hkey
    obtain rfl := Option.some.inj hkey
    rw [hmaskNat]
    omega
  obtain ⟨hr, hpa, hallocated, hprevious, hrecent, hpages, hppages⟩ :=
    h.allocate hk haNat hkeyNat rfl ho
  rw [walked, hr] at hs₂
  have hm₂ := hm₁.step ⟨hl, swapsSwept_of_room (by exact hroom) _⟩ hs₂
  -- the TLBs are filled
  obtain ⟨tlb₃, hmoves₃, hrest, hholds, hholds'⟩ :=
    hafter.respond (hdata ▸ hpa) hlt (by decide) (by omega)
  have htlb₂ : Function.update m.tlb 0 tlb₂ 0 = tlb₂ := Function.update_self 0 tlb₂ m.tlb
  have hm₃ := moves_reachable hm₂ (by decide) (fun c hc hne => by
    show (Function.update m.tlb 0 tlb₂ c).calls = []
    rw [Function.update_of_ne hne]
    exact h.others c hc hne) (htlb₂.symm ▸ hmoves₃)
  refine ⟨_, hm₃, ?_⟩
  have htlb₃ : Function.update (Function.update m.tlb 0 tlb₂) 0 tlb₃ 0 = tlb₃ :=
    Function.update_self 0 tlb₃ (Function.update m.tlb 0 tlb₂)
  refine ⟨?_, h.other, h.lines, hallocated, hprevious, hrecent, hpages, hppages, fun _ => ?_⟩
  · show AtRest twoCpus.numCpus _ (Function.update (Function.update m.tlb 0 tlb₂) 0 tlb₃ 0)
    rw [htlb₃, hsub]
    exact hrest
  · show HoldsPage _ _ ((Function.update (Function.update m.tlb 0 tlb₂) 0 tlb₃ 0).upper .icache) ∧
      HoldsPage _ _ (Function.update (Function.update m.tlb 0 tlb₂) 0 tlb₃ 0).lower
    rw [htlb₃, hsub]
    exact ⟨hholds, hholds'⟩

/-- The memory can be filled. -/
theorem exists_filled (hk : k ≤ 2 ^ 20) :
    ∃ m, (lts twoCpus).Reachable (SweptStep twoCpus) m ∧ Filled k m := by
  induction k with
  | zero => exact ⟨start twoCpus, .init rfl, Filled.init⟩
  | succ k ih =>
    obtain ⟨m, hm, hfilled⟩ := ih (by omega)
    exact hfilled.step hm (by omega)

/-- Core 0 has a translation of the second page, and this page is the next victim. -/
theorem Filled.victim (hm : m.Current twoCpus) (h : Filled (2 ^ 20) m) :
    ∃ ppage, m.tables.nru = some (2, ppage) ∧ ppage ∈ m.tables.inverseTable ∧
      ∃ s w, (((m.tlb 0).upper .icache).block s w).valid = true ∧
        (((m.tlb 0).upper .icache).block s w).tag = 2 := by
  obtain ⟨⟨w, hfind, -⟩, -⟩ := h.last (by decide)
  obtain ⟨-, hv, htag⟩ := Cache.findWay_some hfind
  have htag : (((m.tlb 0).upper .icache).block _ w).tag = 2 := htag
  obtain ⟨key, hkey, hp⟩ := ((hm.tlbs 0 (by decide)).caches (some .icache)).blocks _ w hv
  have hkey : pageKey twoCpus (UInt32.ofNat 0) (((m.tlb 0).upper .icache).block _ w).tag =
    some key := hkey
  obtain ⟨mask, hmask, hmaskNat⟩ := key_of_two 0 (by decide) 2 (by decide)
  rw [htag, pageKey, hmask] at hkey
  have htwo : key = 2 := (Option.some.inj hkey).symm.trans (UInt64.toNat_inj.1 hmaskNat)
  rw [htwo] at hp
  refine ⟨_, PageTables.nru_of_least h.recent hp fun v hv' => ?_, ?_, _, w, hv, htag⟩
  · have hpage := (h.pages v hv').1
    rw [UInt64.le_iff_toNat_le]
    show 2 ≤ v.toNat
    omega
  · have hinverse : m.tables.inverseTable[(((m.tlb 0).upper .icache).block _ w).data]? = some 2 :=
      (hm.tables.inverse _ _).1 hp
    rw [← Std.TreeMap.isSome_getElem?_iff_mem]
    exact Option.isSome_iff_exists.2 ⟨2, hinverse⟩

/-- A core is about to walk for the first page. The memory is full of pages of core 0, and the walk swaps
out the second one. -/
structure Faulting (cpu : ℕ) (m m₁ : MemorySystem) (l : MemoryTurn) (p : Packet) (ppage : Addr) :
    Prop where
  reachable : (lts twoCpus).Reachable (SweptStep twoCpus) m₁
  tlb : ∃ tlb e, m₁ = { m with tlb := Function.update m.tlb cpu tlb } ∧
    BeforeWalk twoCpus.numCpus cpu 1 2 (32 * 2 ^ 20) e p tlb ∧
    (tlb.upper .icache).block = ((m.tlb cpu).upper .icache).block ∧
    tlb.lower.block = (m.tlb cpu).lower.block
  nru : m₁.tables.nru = some (2, ppage)
  faults : m₁.Faults twoCpus l = some p
  allowed : Allowed twoCpus m₁ l
  steps : ∃ m' r, m₁.step twoCpus l = some (m', [r]) ∧ r.victim = some (2, ppage)

/-- A core that asks for the first page faults. -/
theorem Filled.fault (hm : (lts twoCpus).Reachable (SweptStep twoCpus) m) (h : Filled (2 ^ 20) m)
    {cpu : ℕ} (hcpu : cpu < twoCpus.numCpus) (hrest : AtRest twoCpus.numCpus 2 (m.tlb cpu))
    (hothers : ∀ c < twoCpus.numCpus, c ≠ cpu → (m.tlb c).calls = []) :
    ∃ m₁ l p ppage, Faulting cpu m m₁ l p ppage := by
  obtain ⟨ppage, hnru, hppage, -⟩ := h.victim (current_of_swept hm)
  obtain ⟨tlb₁, e, p, hmoves, hbefore, hicache, hlower⟩ := hrest.request (a := 1) cpu (32 * 2 ^ 20)
    (by decide) (by decide) hcpu (by decide)
  have hm₁ := moves_reachable hm hcpu hothers hmoves
  have hlt : cpu < 2 := hcpu
  obtain ⟨mask, hmask, hkeyNat⟩ := key_of_two cpu hlt 1 (by decide)
  have hone : (1 : Addr).toNat = 1 := rfl
  have hkey : pageKey twoCpus (UInt32.ofNat p.cpu) p.address = some (1 ||| mask) := by
    rw [hbefore.request.cpu, hbefore.request.address, pageKey, hmask, Option.map_some]
  have hfree : (1 : Addr) ||| mask ∉ m.tables.pageTable := fun hmem => by
    have hpage := h.pages _ hmem
    omega
  have hfull : twoCpus.dramPages ≤ m.tables.allocatedPages := by
    have hdram : twoCpus.dramPages.toNat = 2 ^ 20 := by decide
    rw [UInt64.le_iff_toNat_le, h.allocated, hdram]
  obtain ⟨tables, r, hva⟩ : ∃ tables r, m.tables.vaToPa twoCpus
      (walkOf (Env.clock (32 * 2 ^ 20 + 9)) p [] 0) = some (tables, r) := by
    refine PageTables.vaToPa_full ?_ (show highBitMask twoCpus (UInt32.ofNat p.cpu) = some mask by
      rw [hbefore.request.cpu, hmask]) ?_ hfull hnru hppage
    · show p.fullAddr ≠ 0
      rw [hbefore.request.fullAddr]
      decide
    · show p.address ||| mask ∉ m.tables.pageTable
      rw [hbefore.request.address]
      exact hfree
  obtain ⟨hwalk, hl, tlb₂, e', hs, -, -⟩ := walk_step hbefore (by decide) (by decide) hcpu
    (by decide) hothers (by simp) hva rfl rfl
  refine ⟨_, _, p, ppage, hm₁, ⟨tlb₁, e, rfl, hbefore, hicache, hlower⟩, hnru,
    faults_of_walker hwalk hkey hfree hfull, hl, _, r, hs, ?_⟩
  obtain ⟨key, uniqueVa, hkey', ho⟩ := walk_outcome hva
  obtain rfl := Option.some.inj (hkey'.symm.trans hkey)
  cases ho with
  | found hp =>
    refine absurd ?_ hfree
    rw [← Std.TreeMap.isSome_getElem?_iff_mem, hp]
    rfl
  | allocated _ hroom => exact absurd hroom (not_lt.2 hfull)
  | swapped _ _ hvictim => exact hvictim.symm.trans hnru

/-- With two cores, the TLBs of the core whose page is swapped out keep its translation. -/
theorem stale_translation : ¬ ∀ (cfg : PagingConfig) (tr : Lts.Trace MemoryTurn Walked)
    (m : MemorySystem), (lts cfg).Run (Allowed cfg) m tr → NoStale cfg tr m := by
  intro hall
  obtain ⟨m, hm, hfilled⟩ := exists_filled (le_refl (2 ^ 20))
  obtain ⟨-, -, -, s, w, hv, htag⟩ := hfilled.victim (current_of_swept hm)
  -- core 1 asks for a page
  have hrest : AtRest twoCpus.numCpus 2 (m.tlb 1) := by
    rw [hfilled.other]
    exact AtRest.start 2 1 2
  obtain ⟨m₁, l, p, ppage, hf⟩ := hfilled.fault hm (by decide) hrest fun c hc hne => by
    have hc : c < 2 := hc
    obtain rfl : c = 0 := by omega
    exact hfilled.rest.calls
  obtain ⟨tlb₁, e, hm₁, hbefore, -⟩ := hf.tlb
  obtain ⟨m', r, hs, -⟩ := hf.steps
  -- were nothing stale afterwards, the swap would have looked into the TLBs of core 0
  obtain ⟨tr, hrun⟩ := hf.reachable.mono fun _ _ h => h.1
  have hswept := (current_of_swept hf.reachable).swept hrun hf.allowed hs
    (hall _ _ _ (hrun.step hf.allowed hs))
  have hsweeps := hswept p (2, ppage) hf.faults hf.nru
  obtain ⟨mask₀, hmask₀, hkey₀⟩ := key_of_two 0 (by decide) 2 (by decide)
  have htlb₀ : m₁.tlb 0 = m.tlb 0 := by
    rw [hm₁]
    exact Function.update_of_ne Nat.zero_ne_one tlb₁ m.tlb
  have hcore := (hsweeps.blocks 0 (by decide) (some .icache) s w (by rw [htlb₀]; exact hv) (by
    have htag' : (((m₁.tlb 0).cache (some .icache)).block s w).tag = 2 := by
      rw [htlb₀]
      exact htag
    rw [htag', pageKey, hmask₀, Option.map_some]
    exact congrArg some (UInt64.toNat_inj.1 hkey₀))).1
  rw [hbefore.request.cpu] at hcore
  cases hcore

/-! ## A swap of the core's own page -/

/-- The keys of core 0 are its pages. -/
theorem key_of_zero {v key : Addr} (h : pageKey twoCpus (UInt32.ofNat 0) v = some key) :
    key = v := by
  obtain ⟨mask, hmask, hmaskNat⟩ := key_of_two 0 (by decide) 0 (by decide)
  rw [UInt64.zero_or] at hmaskNat
  obtain rfl : mask = 0 := UInt64.toNat_inj.1 hmaskNat
  rw [pageKey, hmask, Option.map_some, UInt64.or_zero] at h
  exact (Option.some.inj h).symm

/-- A TLB in which nothing has happened holds no page. -/
theorem not_valid_start (c : ℕ) (x : Option Side) (set way : ℕ) :
    (((coreTlbs 2 c).start.cache x).block set way).valid ≠ true := by
  rcases x with - | - | - <;> exact Bool.false_ne_true

/-- Nothing is answered in a table in which nothing is outstanding. -/
theorem not_completed_of_vacant {n k : ℕ} {t : Mshr} {e : Packet} (h : Mshr.Vacant n k t)
    (he : e ∈ t.entry) : e.returned ≠ .completed := by
  rw [h.entry] at he
  rw [List.eq_of_mem_replicate he]
  exact fun hx => by cases hx

/-- A swap by core 0 finds all copies of its own page. -/
theorem Faulting.swept {m₁ : MemorySystem} {l : MemoryTurn} {p : Packet} {ppage : Addr}
    (hf : Faulting 0 m m₁ l p ppage) (h : Filled (2 ^ 20) m) : m₁.SwapsSwept twoCpus l := by
  intro q victim hq hnru
  obtain rfl : p = q := Option.some.inj (hf.faults.symm.trans hq)
  obtain rfl : (2, ppage) = victim := Option.some.inj (hf.nru.symm.trans hnru)
  obtain ⟨tlb₁, e, rfl, hbefore, hicache, hlower⟩ := hf.tlb
  have hother : Function.update m.tlb 0 tlb₁ 1 = (coreTlbs 2 1).start := by
    rw [Function.update_of_ne Nat.one_ne_zero, h.other]
  have hown : Function.update m.tlb 0 tlb₁ 0 = tlb₁ := Function.update_self 0 tlb₁ m.tlb
  obtain ⟨hholds, hholds'⟩ := h.last (by decide)
  have hholds := hholds.of_block hicache
  have hholds' := hholds'.of_block hlower
  refine ⟨fun c hc x set way hv hkey => ?_, fun c hc x e' he' hx hkey => ?_,
    fun k set way hv => ?_⟩
  · have hc : c < 2 := hc
    obtain rfl | rfl : c = 0 ∨ c = 1 := by omega
    · simp only [hown] at hv hkey ⊢
      have htag := (key_of_zero hkey).symm
      refine ⟨hbefore.request.cpu.symm, htag, ?_⟩
      rcases x with - | - | -
      · obtain ⟨w, hfind, honly⟩ := hholds'
        obtain ⟨rfl, rfl⟩ := honly set way hv htag
        exact ⟨rfl, hfind⟩
      · obtain ⟨w, hfind, honly⟩ := hholds
        obtain ⟨rfl, rfl⟩ := honly set way hv htag
        exact ⟨rfl, hfind⟩
      · have hv : ((tlb₁.upper .dcache).block set way).valid = true := hv
        rw [hbefore.dcache] at hv
        cases hv
    · simp only [hother] at hv
      exact absurd hv (not_valid_start 1 x set way)
  · have hc : c < 2 := hc
    obtain rfl | rfl : c = 0 ∨ c = 1 := by omega
    · simp only [hown] at he'
      rcases x with - | - | -
      · exact not_completed_of_vacant hbefore.lowerMshr he' hx
      · -- the miss in the ITLB is for the first page
        have he' : e' ∈ (tlb₁.upper .icache).mshr.entry := he'
        rw [hbefore.icacheMshr.entry] at he'
        rcases List.mem_cons.1 he' with rfl | he'
        · have hone : (2 : Addr) = e'.address := key_of_zero hkey
          rw [hbefore.entry.address] at hone
          exact absurd hone (by decide)
        · rw [List.eq_of_mem_replicate he'] at hx
          cases hx
      · have he' : e' ∈ (tlb₁.upper .dcache).mshr.entry := he'
        rw [hbefore.dcache] at he'
        exact not_completed_of_vacant Mshr.Vacant.init he' hx
    · simp only [hother] at he'
      rcases x with - | - | -
      all_goals exact not_completed_of_vacant Mshr.Vacant.init he' hx
  · have hv : ((m.cache k).block set way).valid = true := hv
    rw [h.lines] at hv
    cases hv

/-- Core 0 fills the memory and reads one more page, and the walk for it swaps out one of its own. -/
theorem neverStale_swap : ∃ tr m l r, (lts twoCpus).Run (Allowed twoCpus) m tr ∧ (l, [r]) ∈ tr ∧
    r.victim.isSome = true ∧ NeverStale twoCpus tr := by
  obtain ⟨m, hm, hfilled⟩ := exists_filled (le_refl (2 ^ 20))
  obtain ⟨m₁, l, p, ppage, hf⟩ := hfilled.fault hm (by decide) hfilled.rest fun c hc hne =>
    hfilled.others c hc hne
  obtain ⟨m', r, hs, hvictim⟩ := hf.steps
  obtain ⟨tr, hrun⟩ := hf.reachable
  have hrun' := hrun.step ⟨hf.allowed, hf.swept hfilled⟩ hs
  have hallowed : (lts twoCpus).Run (Allowed twoCpus) m' (tr ++ [(l, [r])]) :=
    hrun'.mono fun _ _ hl => hl.1
  refine ⟨_, m', l, r, hallowed, List.mem_append_right _ (List.mem_singleton_self _), ?_,
    (neverStale_iff twoCpus _ m' hallowed).2 (allSwept_of_run hrun')⟩
  rw [hvictim]
  rfl

end

end MemorySystem

end Arishem
