import Arishem.Hierarchy.CoreTlbs
import Arishem.Paging.Faults

/-!
# Swaps and the copies of their victims

A walk without a victim changes no translation that a TLB can hold. A swap makes the translation of
the victim stale everywhere, and the calls of `invalidate_entry` after it take out just what they
find: where they find all copies of the victim nothing stale is left, and otherwise something is.
-/

namespace Arishem

namespace MemorySystem

section
variable {cfg : PagingConfig} {m m' : MemorySystem} {l : MemoryTurn} {os : List Walked}
variable {cpu : ℕ} {v p : Addr} {tlb : Machine Side}

/-! ## Steps -/

/-- What a step can be. -/
inductive StepCases (cfg : PagingConfig) (m : MemorySystem) :
    MemoryTurn → MemorySystem → List Walked → Prop
  | data {k : DataCache} {env : Env} {a : Action} {c : Cache} {evs : List Event} :
      (m.cache k).act (k.config cfg.numCpus) env a = some (c, evs) →
      StepCases cfg m (.data k env a) { m with cache := Function.update m.cache k c } []
  | tlb {cpu : ℕ} {env : Env} {t : Turn Side} {draws : List Addr} {rand : ℕ} {tlb : Machine Side}
      {evs : List Event} : walker cfg.numCpus env (m.tlb cpu) t = none →
      (coreTlbs cfg.numCpus cpu).step (m.tlb cpu) (env, t) = some (tlb, evs) →
      StepCases cfg m (.tlb cpu env t draws rand)
        { m with tlb := Function.update m.tlb cpu tlb } []
  | walk {cpu : ℕ} {env : Env} {t : Turn Side} {draws : List Addr} {rand : ℕ} {p : Packet}
      {tables : PageTables} {r : Walked} {tlb : Machine Side} {evs : List Event} :
      walker cfg.numCpus env (m.tlb cpu) t = some p →
      m.tables.vaToPa cfg (walkOf env p draws rand) = some (tables, r) →
      (coreTlbs cfg.numCpus cpu).step (m.tlb cpu) ({ env with physicalAddress := r.pa }, t) =
        some (tlb, evs) →
      StepCases cfg m (.tlb cpu env t draws rand)
        (walked cfg p.cpu r { m with tables := tables, tlb := Function.update m.tlb cpu tlb }) [r]

theorem step_cases (h : m.step cfg l = some (m', os)) : StepCases cfg m l m' os := by
  cases l with
  | data k env a =>
    simp only [step] at h
    split at h
    · cases h
    · rename_i hx
      cases h
      exact .data hx
  | tlb cpu env t draws rand =>
    simp only [step] at h
    split at h
    · rename_i hw
      split at h
      · cases h
      · rename_i hx
        cases h
        exact .tlb hw hx
    · rename_i hw
      split at h
      · cases h
      · rename_i hx
        split at h
        · cases h
        · rename_i hx'
          cases h
          exact .walk hw hx hx'

/-- A turn without a page walk. -/
theorem step_of_tlb {env : Env} {t : Turn Side} {draws : List Addr} {rand : ℕ}
    {evs : List Event} (hw : walker cfg.numCpus env (m.tlb cpu) t = none)
    (hs : (coreTlbs cfg.numCpus cpu).step (m.tlb cpu) (env, t) = some (tlb, evs)) :
    m.step cfg (.tlb cpu env t draws rand) =
      some ({ m with tlb := Function.update m.tlb cpu tlb }, []) := by
  simp only [step, hw, hs]

/-- A turn with a page walk. -/
theorem step_of_walk {env : Env} {t : Turn Side} {draws : List Addr} {rand : ℕ}
    {evs : List Event} {p : Packet} {tables : PageTables} {r : Walked}
    (hw : walker cfg.numCpus env (m.tlb cpu) t = some p)
    (hva : m.tables.vaToPa cfg (walkOf env p draws rand) = some (tables, r))
    (hs : (coreTlbs cfg.numCpus cpu).step (m.tlb cpu) ({ env with physicalAddress := r.pa }, t) =
      some (tlb, evs)) :
    m.step cfg (.tlb cpu env t draws rand) =
      some (walked cfg p.cpu r
        { m with tables := tables, tlb := Function.update m.tlb cpu tlb }, [r]) := by
  simp only [step, hw, hva, hs]

/-! ## One step -/

/-- The tables are well formed, and the TLBs of each core hold what the page table says. -/
structure Current (cfg : PagingConfig) (m : MemorySystem) : Prop where
  tables : m.tables.WellFormed
  tlbs : ∀ cpu < cfg.numCpus, Translating cfg.numCpus cpu (m.Maps cfg cpu) (m.tlb cpu)

theorem Current.init : Current cfg (start cfg) :=
  ⟨PageTables.init_wellFormed, fun _ _ => Translating.init⟩

/-- Current translations are fresh. -/
theorem Current.fresh (h : Current cfg m) : m.Fresh cfg :=
  ⟨h.tables.inverse, fun cpu hc x => ((h.tlbs cpu hc).caches x).blocks,
    fun cpu hc x => ((h.tlbs cpu hc).caches x).entries⟩

/-- The call that a walk makes. -/
theorem walk_outcome {env : Env} {q : Packet} {draws : List Addr} {rand : ℕ} {tables : PageTables}
    {r : Walked} (h : m.tables.vaToPa cfg (walkOf env q draws rand) = some (tables, r)) :
    ∃ key uniqueVa, pageKey cfg (UInt32.ofNat q.cpu) q.address = some key ∧
      PageTables.Outcome cfg (walkOf env q draws rand) m.tables key uniqueVa tables r := by
  obtain ⟨-, mask, hmask, ho⟩ := PageTables.vaToPa_cases h
  have hmask : highBitMask cfg (UInt32.ofNat q.cpu) = some mask := hmask
  exact ⟨_, _, by rw [pageKey, hmask, Option.map_some]; rfl, ho⟩

/-- A walk for a page that is not mapped while the memory is full. -/
theorem faults_of_walker {env : Env} {t : Turn Side} {draws : List Addr} {rand : ℕ} {q : Packet}
    {key : Addr} (hw : walker cfg.numCpus env (m.tlb cpu) t = some q)
    (hkey : pageKey cfg (UInt32.ofNat q.cpu) q.address = some key)
    (hfree : key ∉ m.tables.pageTable) (hfull : cfg.dramPages ≤ m.tables.allocatedPages) :
    m.Faults cfg (.tlb cpu env t draws rand) = some q := by
  simp [Faults, hw, hkey, hfree, hfull]

/-- A walk without a victim. -/
theorem Current.walk (h : m.Current cfg) (hcpu : cpu < cfg.numCpus) {env : Env} {t : Turn Side}
    (ht : TlbTurn cfg cpu t) {q : Packet} (hw : walker cfg.numCpus env (m.tlb cpu) t = some q)
    {key uniqueVa : Addr} {w : Walk} {tables : PageTables} {r : Walked} {tlb : Machine Side}
    {evs : List Event} (hkey : pageKey cfg (UInt32.ofNat cpu) q.address = some key)
    (ho : PageTables.Outcome cfg w m.tables key uniqueVa tables r) (hwf : tables.WellFormed)
    (hr : r.victim = none)
    (hs : (coreTlbs cfg.numCpus cpu).step (m.tlb cpu) ({ env with physicalAddress := r.pa }, t) =
      some (tlb, evs)) :
    Current cfg { m with tables := tables, tlb := Function.update m.tlb cpu tlb } := by
  have hkeeps (c : ℕ) (a d : Addr) (hm : m.Maps cfg c a d) : ∃ k,
      pageKey cfg (UInt32.ofNat c) a = some k ∧ tables.pageTable[k]? = some d := by
    obtain ⟨k, hk, hd⟩ := hm
    exact ⟨k, hk, ho.keeps hr hd⟩
  refine ⟨hwf, fun c hc => ?_⟩
  show Translating cfg.numCpus c _ (Function.update m.tlb cpu tlb c)
  rcases eq_or_ne c cpu with rfl | hne
  · rw [Function.update_self]
    refine ((h.tlbs c hc).mono (hkeeps c)).turn ht
      (fun q' hq' => ?_) hs
    obtain rfl : q = q' := Option.some.inj (hw.symm.trans hq')
    exact ⟨key, hkey, ho.data hwf⟩
  · rw [Function.update_of_ne hne]
    exact (h.tlbs c hc).mono (hkeeps c)

/-- A translation that is not the victim's stays. -/
theorem Maps.keeps {victim : Addr × Addr} {key uniqueVa : Addr} {w : Walk} {r : Walked} {c : ℕ}
    (hm : m.Maps cfg c v p)
    (ho : PageTables.Outcome cfg w m.tables key uniqueVa m'.tables r) (hr : r.victim = some victim)
    (hne : pageKey cfg (UInt32.ofNat c) v ≠ some victim.1) : m'.Maps cfg c v p := by
  obtain ⟨k, hk, hd⟩ := hm
  refine ⟨k, hk, ho.keeps_of_ne (fun victim' hv' he => hne ?_) hd⟩
  obtain rfl : victim = victim' := Option.some.inj (hr.symm.trans hv')
  rw [hk, he]

/-- The TLBs after a walk with a victim. -/
theorem swapOut_tlb {victim : Addr × Addr} {tables : PageTables} {tlb : Machine Side} :
    (swapOut cfg cpu victim { m with tables := tables, tlb := Function.update m.tlb cpu tlb }).tlb =
      Function.update m.tlb cpu (invalidateTlbs (coreTlbs cfg.numCpus cpu) victim.1 tlb) := by
  simp [swapOut]

/-- A swap that finds all copies of the victim. -/
theorem Current.swap (h : m.Current cfg) (hcpu : cpu < cfg.numCpus) {env : Env} {t : Turn Side}
    (hcalls : ∀ c < cfg.numCpus, c ≠ cpu → (m.tlb c).calls = [])
    {q : Packet} (hw : walker cfg.numCpus env (m.tlb cpu) t = some q)
    {key uniqueVa : Addr} {w : Walk} {tables : PageTables} {r : Walked} {tlb : Machine Side}
    {evs : List Event} (hkey : pageKey cfg (UInt32.ofNat cpu) q.address = some key)
    (ho : PageTables.Outcome cfg w m.tables key uniqueVa tables r) (hwf : tables.WellFormed)
    {victim : Addr × Addr} (hr : r.victim = some victim) (hsweeps : m.Sweeps cfg cpu victim)
    (hs : (coreTlbs cfg.numCpus cpu).step (m.tlb cpu) ({ env with physicalAddress := r.pa }, t) =
      some (tlb, evs)) :
    Current cfg (swapOut cfg cpu victim
      { m with tables := tables, tlb := Function.update m.tlb cpu tlb }) := by
  set m₂ := swapOut cfg cpu victim { m with tables := tables, tlb := Function.update m.tlb cpu tlb }
    with hm₂
  have ho₂ : PageTables.Outcome cfg w m.tables key uniqueVa m₂.tables r := ho
  refine ⟨hwf, fun c hc => ?_⟩
  have hentries (x : Option Side) (e : Packet) (he : e ∈ ((m.tlb c).cache x).mshr.entry)
      (hret : e.returned = .completed) : m₂.Maps cfg c e.address e.data :=
    (((h.tlbs c hc).caches x).entries e he hret).keeps ho₂ hr (hsweeps.entries c hc x e he hret)
  have htlb : m₂.tlb c = Function.update m.tlb cpu
      (invalidateTlbs (coreTlbs cfg.numCpus cpu) victim.1 tlb) c := by
    rw [← swapOut_tlb]
  rw [htlb]
  rcases eq_or_ne c cpu with rfl | hne
  · rw [Function.update_self]
    obtain ⟨hbacked, hcalls', hcaches⟩ :=
      (h.tlbs c hc).walk hw hs hentries ⟨key, hkey, ho.data hwf⟩
    refine hbacked.invalidate hcalls' hcaches fun x s w hv hno => ?_
    rw [walk_block hw hs x] at hv ⊢
    refine Maps.keeps (((h.tlbs c hc).caches x).blocks s w hv) ho₂ hr fun hvictim => hno ?_
    obtain ⟨hset, hway⟩ := (hsweeps.blocks c hc x s w hv hvictim).2.2
    refine ⟨hset, ?_⟩
    rw [Cache.findWay, walk_block hw hs x]
    exact hway
  · rw [Function.update_of_ne hne]
    refine (h.tlbs c hc).refresh (hcalls c hc hne) (fun x s w hv => ?_) hentries
    refine Maps.keeps (((h.tlbs c hc).caches x).blocks s w hv) ho₂ hr fun hvictim => hne ?_
    exact (hsweeps.blocks c hc x s w hv hvictim).1

/-- Each allowed step whose swap is swept keeps the translations current. -/
theorem Current.step (h : m.Current cfg) (hl : Allowed cfg m l) (hsw : m.SwapsSwept cfg l)
    (hs : m.step cfg l = some (m', os)) : m'.Current cfg := by
  cases step_cases hs with
  | data => exact ⟨h.tables, h.tlbs⟩
  | @tlb cpu env t draws rand tlb evs hw hx =>
    obtain ⟨hcpu, -, ht, -⟩ := hl
    refine ⟨h.tables, fun c hc => ?_⟩
    show Translating cfg.numCpus c _ (Function.update m.tlb cpu tlb c)
    rcases eq_or_ne c cpu with rfl | hne
    · rw [Function.update_self]
      refine (h.tlbs c hc).turn ht (fun q hq => ?_) hx
      rw [hw] at hq
      cases hq
    · rw [Function.update_of_ne hne]
      exact h.tlbs c hc
  | @walk cpu env t draws rand q tables r tlb evs hw hva hx =>
    obtain ⟨hcpu, hcalls, ht, hdraws⟩ := hl
    obtain rfl : q.cpu = cpu := walker_cpu (h.tlbs cpu hcpu).backed hw
    obtain ⟨key, uniqueVa, hkey, ho⟩ := walk_outcome hva
    have hwf : tables.WellFormed := by
      have hle : (UInt32.ofNat q.cpu).toNat ≤ q.cpu := by
        rw [UInt32.toNat_ofNat']
        exact Nat.mod_le _ _
      have hallowed : PageTables.Allowed cfg m.tables (walkOf env q draws rand) :=
        ⟨hle.trans_lt hcpu, hdraws⟩
      exact h.tables.step hallowed ho
    rw [walked]
    split
    · rename_i hr
      exact h.walk hcpu ht hw hkey ho hwf hr hx
    · rename_i victim hr
      obtain ⟨hfree, hfull, hnru⟩ := ho.fault hr
      have hsweeps := hsw q victim (faults_of_walker hw hkey hfree hfull) hnru
      exact h.swap hcpu hcalls hw hkey ho hwf hr hsweeps hx

/-! ## Lines -/

/-- What the caches hold after a swap they held before, and the swap did not find it. -/
theorem swapOut_valid {victim : Addr × Addr} {k : DataCache} {s w : ℕ}
    (hv : (((swapOut cfg cpu victim m).cache k).block s w).valid = true) :
    ((swapOut cfg cpu victim m).cache k).block s w = (m.cache k).block s w ∧
      (k.serves cpu = true → ∀ a, a >>> log2BlockSize = victim.2 →
        ¬ (m.cache k).Finds (k.config cfg.numCpus) a s w) := by
  simp only [swapOut] at hv ⊢
  split at hv
  · rename_i hk
    rw [if_pos hk]
    obtain ⟨heq, hno⟩ := Cache.invalidatePage_valid hv
    exact ⟨heq, fun _ => hno⟩
  · rename_i hk
    rw [if_neg hk]
    exact ⟨rfl, fun hs => absurd hs hk⟩

/-- A line that a swap does not find stays. -/
theorem swapOut_block {victim : Addr × Addr} {k : DataCache} {s w : ℕ}
    (h : ¬ (k.serves cpu = true ∧
      (m.cache k).Finds (k.config cfg.numCpus) ((m.cache k).block s w).tag s w)) :
    ((swapOut cfg cpu victim m).cache k).block s w = (m.cache k).block s w := by
  simp only [swapOut]
  split
  · rename_i hk
    exact Cache.invalidatePage_block fun hf => h ⟨hk, hf⟩
  · rfl

/-- A swap that is swept leaves no line of the page. -/
theorem Sweeps.not_cached {victim : Addr × Addr} (h : m.Sweeps cfg cpu victim)
    (hm : m'.cache = m.cache) {k : DataCache} {a : Addr} (ha : a >>> log2BlockSize = victim.2) :
    ¬ (swapOut cfg cpu victim m').Cached k a := by
  rintro ⟨s, w, hv, rfl⟩
  obtain ⟨heq, hno⟩ := swapOut_valid hv
  rw [heq, hm] at hv ha
  obtain ⟨hserves, hfinds⟩ := h.lines k s w hv ha
  refine hno hserves _ ha ?_
  rw [hm]
  exact hfinds

/-- A walk with a victim is a swap of it. -/
theorem SwapsSwept.sweeps {env : Env} {t : Turn Side} {draws : List Addr} {rand : ℕ} {q : Packet}
    {tables : PageTables} {r : Walked} {victim : Addr × Addr}
    (h : m.SwapsSwept cfg (.tlb cpu env t draws rand))
    (hw : walker cfg.numCpus env (m.tlb cpu) t = some q)
    (hva : m.tables.vaToPa cfg (walkOf env q draws rand) = some (tables, r))
    (hr : r.victim = some victim) : m.Sweeps cfg q.cpu victim := by
  obtain ⟨key, uniqueVa, hkey, ho⟩ := walk_outcome hva
  obtain ⟨hfree, hfull, hnru⟩ := ho.fault hr
  exact h q victim (faults_of_walker hw hkey hfree hfull) hnru

/-- The end of a walk with a victim. -/
theorem walked_of_victim {r : Walked} {victim : Addr × Addr} (hr : r.victim = some victim) :
    walked cfg cpu r m = swapOut cfg cpu victim m := by
  rw [walked, hr]

/-- Where each swap is swept, no line outlives its page. -/
theorem Outlives.not_allSwept {k : DataCache} {a : Addr} {tr : Lts.Trace MemoryTurn Walked}
    (h : Outlives cfg k a tr m) : ¬ AllSwept cfg tr := by
  induction h with
  | @swap tr m m' l os r vpage hrun hl hs hr hvictim hc hc' =>
    intro hall
    have hsw := hall tr (l, os) m (List.prefix_refl _) hrun
    cases step_cases hs with
    | data => cases hr
    | tlb => cases hr
    | walk hw hva hx =>
      obtain rfl := List.mem_singleton.1 hr
      rw [walked_of_victim hvictim] at hc'
      exact (hsw.sweeps hw hva hvictim).not_cached rfl rfl hc'
  | @stay tr m m' l os _ _ _ _ ih =>
    exact fun hall => ih fun tr₁ x m₁ hp => hall tr₁ x m₁ (hp.trans (List.prefix_append _ _))

/-! ## Swaps that are not swept -/

/-- The blocks and the answered misses of the TLBs stay over a swap, but for the blocks that the
swap finds. -/
theorem Current.swap_keeps (h : m.Current cfg) (hcpu : cpu < cfg.numCpus) {env : Env}
    {t : Turn Side} {q : Packet} (hw : walker cfg.numCpus env (m.tlb cpu) t = some q)
    {tables : PageTables} {r : Walked} {tlb : Machine Side} {evs : List Event}
    {victim : Addr × Addr}
    (hs : (coreTlbs cfg.numCpus cpu).step (m.tlb cpu) ({ env with physicalAddress := r.pa }, t) =
      some (tlb, evs)) {m₂ : MemorySystem}
    (hm₂ : m₂ = swapOut cfg cpu victim
      { m with tables := tables, tlb := Function.update m.tlb cpu tlb }) (c : ℕ)
    (x : Option Side) :
    (∀ s w, (c = cpu → ¬ ((m.tlb c).cache x).Finds ((coreTlbs cfg.numCpus c).config x) victim.1 s w)
      → ((m₂.tlb c).cache x).block s w = ((m.tlb c).cache x).block s w) ∧
    ∀ e ∈ ((m.tlb c).cache x).mshr.entry, e.returned = .completed →
      e ∈ ((m₂.tlb c).cache x).mshr.entry := by
  have htlb : m₂.tlb c = Function.update m.tlb cpu
      (invalidateTlbs (coreTlbs cfg.numCpus cpu) victim.1 tlb) c := by
    rw [hm₂, swapOut_tlb]
  rcases eq_or_ne c cpu with rfl | hne
  · rw [Function.update_self] at htlb
    have hcache : (m₂.tlb c).cache x =
        (tlb.cache x).invalidateEntry ((coreTlbs cfg.numCpus c).config x) victim.1 := by
      rw [htlb]
      cases x <;> rfl
    have hblock := walk_block hw hs x
    refine ⟨fun s w hno => ?_, fun e he hr => ?_⟩
    · rw [hcache, Cache.invalidateEntry_block, hblock]
      refine fun hf => hno rfl ⟨hf.1, ?_⟩
      rw [Cache.findWay, ← hblock]
      exact hf.2
    · rw [hcache, Cache.invalidateEntry_mshr]
      exact (h.tlbs c hcpu).walk_keeps hw hs he hr
  · rw [Function.update_of_ne hne] at htlb
    rw [htlb]
    exact ⟨fun _ _ _ => rfl, fun _ he _ => he⟩

/-- A step that leaves nothing stale swept its swap. -/
theorem Current.swept (h : m.Current cfg) {tr : Lts.Trace MemoryTurn Walked}
    (hrun : (lts cfg).Run (Allowed cfg) m tr) (hl : Allowed cfg m l)
    (hs : m.step cfg l = some (m', os)) (hno : NoStale cfg (tr ++ [(l, os)]) m') :
    m.SwapsSwept cfg l := by
  intro q victim hf hnru
  have hs' := step_cases hs
  cases hs' with
  | data => cases hf
  | tlb hw _ =>
    rw [Faults, hw] at hf
    cases hf
  | @walk cpu env t draws rand q' tables r tlb evs hw hva hx =>
    have hcpu : cpu < cfg.numCpus := hl.1
    obtain rfl : q'.cpu = cpu := walker_cpu (h.tlbs cpu hcpu).backed hw
    obtain ⟨key, uniqueVa, hkey, ho⟩ := walk_outcome hva
    obtain ⟨rfl, hfree, hfull⟩ : q' = q ∧
        (∀ key ∈ pageKey cfg (UInt32.ofNat q.cpu) q.address, key ∉ m.tables.pageTable) ∧
          cfg.dramPages ≤ m.tables.allocatedPages := by
      simpa [Faults, hw, Option.filter_eq_some_iff, Option.all_eq_true] using hf
    obtain ⟨hr, hgone⟩ := ho.swaps (hfree key hkey) hfull hnru
    rw [walked_of_victim hr] at hno hs
    set m₂ := swapOut cfg q'.cpu victim
      { m with tables := tables, tlb := Function.update m.tlb q'.cpu tlb } with hm₂
    have hnot (c : ℕ) (a d : Addr) (hk : pageKey cfg (UInt32.ofNat c) a = some victim.1) :
        ¬ m₂.Maps cfg c a d := by
      rintro ⟨k, hk', hd⟩
      obtain rfl : victim.1 = k := Option.some.inj (hk.symm.trans hk')
      have hnone : tables.pageTable[victim.1]? = some d := hd
      rw [hgone] at hnone
      cases hnone
    have hkeeps := h.swap_keeps hcpu hw hx hm₂
    refine ⟨fun c hc x s w hv hk => ?_, fun c hc x e he hret hk => ?_, fun k s w hv hpage => ?_⟩
    · -- a block that the swap does not find is stale
      by_contra hlost
      have hblock := (hkeeps c x).1 s w fun hcc hfind => hlost ⟨hcc, hfind.tag, hfind⟩
      have hmap := hno.fresh.blocks c hc x s w
      rw [hblock] at hmap
      exact hnot c _ _ hk (hmap hv)
    · exact hnot c _ _ hk (hno.fresh.entries c hc x e ((hkeeps c x).2 e he hret) hret)
    · -- a line that the swap does not find outlives its page
      by_contra hlost
      have hblock : (m₂.cache k).block s w = (m.cache k).block s w := swapOut_block hlost
      have hpages : r.victim = some (victim.1, ((m.cache k).block s w).tag >>> log2BlockSize) := by
        rw [hr, hpage]
      exact hno.lines k ((m.cache k).block s w).tag
        (.swap hrun hl hs (List.mem_singleton_self r) hpages ⟨s, w, hv, rfl⟩
          ⟨s, w, by rw [hblock, hv], by rw [hblock]⟩)

end

end MemorySystem

end Arishem
