import Arishem.Hierarchy.Translation

/-!
# TLBs that hold translations

What a TLB holds is what its level below answered, and the STLB what the page table answered: no step
of a TLB brings in a translation that was not in its answered misses or in its blocks.
-/

namespace Arishem

namespace Cache

section
variable {cfg : Config} {set way s w : ℕ} {type : AccessType} {hit : Bool} {p : Packet}
variable {bs : ℕ → ℕ → Block} {c : Cache}

@[simp] theorem updateReplacementState_data :
    (updateReplacementState cfg set way type hit bs s w).data = (bs s w).data := by
  obtain ⟨n, h⟩ := updateReplacementState_eq cfg set way s w type hit bs
  rw [h]

@[simp] theorem markUsed_data : (markUsed set way bs s w).data = (bs s w).data := by
  simp only [markUsed, setBlock]
  split_ifs with h
  · rw [h.1, h.2]
  · rfl

theorem install_data : ((c.install cfg set way p).block s w).data =
    if s = set ∧ w = way then p.data else (c.block s w).data := by
  simp only [install, fillCache, setBlock]
  split_ifs with h
  · rfl
  · simp

end

/-! ## Page walks -/

section
variable {cfg : Config} {env : Env} {c c' : Cache} {evs : List Event} {p e : Packet}
variable {rest : List Packet} {buffer : List UInt64}

/-- A head of the read queue for which the STLB walks. -/
theorem walking_eq (hq : c.rq = p :: rest)
    (hr : c.readsAvailable ≠ 0 ∧ p.cpu ≠ cfg.numCpus ∧ p.eventCycle ≤ env.cycle p.cpu)
    (hh : c.checkHit cfg p = (none, buffer)) (ha : c.mshr.checkMshr p.address = none)
    (hlt : c.mshr.occupancy < cfg.mshrSize) : c.walking cfg env = some p := by
  obtain ⟨h1, h2, h3⟩ := hr
  simp [walking, hq, h1, h2, h3, hh, ha, hlt]

/-- What the STLB walks for is a new read miss. -/
theorem walking_some (h : c.walking cfg env = some p) (ht : cfg.cacheType ≠ .llc) :
    ∃ rest buffer, c.rq = p :: rest ∧ c.mshr.checkMshr p.address = none ∧
      c.readOne cfg env = { c with pageBuffer := buffer }.readNew cfg env p rest := by
  rw [walking] at h
  split at h
  · cases h
  · rename_i p' rest hq
    split at h
    · cases h
    · rename_i hready
      split at h
      · rename_i hcy
        split at h
        · rename_i buffer hh ha
          split at h
          · rename_i hlt
            cases h
            refine ⟨rest, buffer, hq, ha, ?_⟩
            simp only [readOne, hq, if_neg hready, if_pos hcy, hh, readMiss, ha, if_pos hlt, ht,
              false_and, if_false]
          · cases h
        · cases h
      · cases h

/-- The answer of the page table to a miss. -/
def walkAnswer (env : Env) (p : Packet) : Packet :=
  { stamped env p with
    data := env.physicalAddress >>> log2PageSize, eventCycle := env.cycle p.cpu }

/-- A new read miss goes into the table and is sent below, or it is answered at once. -/
theorem readNew_some (h : c.readNew cfg env p rest = some (c', evs)) :
    ∃ m, c' = { c with mshr := m }.popRq rest ∧
      (m = c.mshr.addMshr (stamped env p) ∧ (∀ ev ∈ evs, ev = .lowerAddRq (stamped env p)) ∨
        cfg.hasLower = false ∧ evs = [] ∧
          ∃ i e due, (c.mshr.addMshr (stamped env p)).checkMshr p.address = some (i, e) ∧
            m = (c.mshr.addMshr (stamped env p)).complete i e (walkAnswer env p) due) := by
  simp only [readNew] at h
  split at h
  · cases h
    exact ⟨_, rfl, .inl ⟨rfl, by simp⟩⟩
  · rename_i hlow
    split at h
    · split at h
      · cases h
      · rename_i c₁ hret
        cases h
        rw [returnData] at hret
        split at hret
        · cases hret
        · rename_i i e hf
          cases hret
          exact ⟨_, rfl, .inr ⟨by simpa using hlow, rfl, i, e, _, hf, rfl⟩⟩
    · cases h
      exact ⟨_, rfl, .inl ⟨rfl, by simp⟩⟩

/-- A walk leaves the blocks alone. -/
theorem walked_block (hw : c.walking cfg env = some p) (ht : cfg.cacheType ≠ .llc)
    (hs : c.readOne cfg env = some (c', evs)) : c'.block = c.block := by
  obtain ⟨rest, buffer, -, -, hone⟩ := walking_some hw ht
  rw [hone] at hs
  obtain ⟨m, rfl, -⟩ := readNew_some hs
  rfl

/-- A new miss leaves the answered misses in the table. -/
theorem mem_addMshr (hok : c.mshr.Ok) (he : e ∈ c.mshr.entry) (hr : e.returned = .completed) :
    e ∈ (c.mshr.addMshr p).entry := by
  cases hf : c.mshr.checkMshr 0 with
  | none =>
    rw [Mshr.addMshr, hf]
    exact he
  | some ie =>
    rw [Mshr.addMshr_of_free (i := ie.1) (e := ie.2) hf]
    obtain ⟨hi, hie, h0⟩ := Mshr.checkMshr_some (i := ie.1) (e := ie.2) hf
    refine Slots.mem_set_of_ne hi he fun heq => ?_
    have hfree := (hok.free ie.2 (Mshr.mem_of_checkMshr hf)).1 h0
    rw [← hie, heq, hr] at hfree
    cases hfree

/-- So does a walk. -/
theorem walked_keeps (hok : c.mshr.Ok) (hw : c.walking cfg env = some p)
    (ht : cfg.cacheType ≠ .llc) (he : e ∈ c.mshr.entry) (hr : e.returned = .completed)
    (hs : c.readOne cfg env = some (c', evs)) : e ∈ c'.mshr.entry := by
  obtain ⟨rest, buffer, -, ha, hone⟩ := walking_some hw ht
  rw [hone] at hs
  have hadd : e ∈ (c.mshr.addMshr (stamped env p)).entry := mem_addMshr hok he hr
  obtain ⟨m, rfl, ⟨rfl, -⟩ | ⟨-, -, i, e', due, hf, rfl⟩⟩ := readNew_some hs
  · exact hadd
  · -- the walk answers another miss
    obtain ⟨hi, hie, haddr⟩ := Mshr.checkMshr_some hf
    refine Slots.mem_set_of_ne hi hadd fun heq => ?_
    rw [hie] at heq
    exact Mshr.checkMshr_none.1 ha e he (heq ▸ haddr)

end

end Cache

/-! ## One TLB -/

/-- A TLB whose answered misses satisfy `P` and whose blocks satisfy `Q`; it only reads, and it has
no dirty block. -/
structure Translates (P Q : Addr → UInt64 → Prop) (c : Cache) : Prop where
  wq : c.wq = []
  pq : c.pq = []
  reads : ∀ p ∈ c.rq, p.type ≠ .prefetch
  clean : ∀ set way, (c.block set way).dirty = false
  blocks : ∀ set way, (c.block set way).valid = true →
    Q (c.block set way).tag (c.block set way).data
  misses : ∀ e ∈ c.mshr.entry, e.type ≠ .prefetch
  entries : ∀ e ∈ c.mshr.entry, e.returned = .completed → P e.address e.data

/-- What a TLB may be asked and told. -/
def TlbMay (P : Addr → UInt64 → Prop) (cfg : Config) (env : Env) (c : Cache) : Action → Prop
  | .addRq p => p.type ≠ .prefetch
  | .returnData p => P p.address p.data
  | .readOne => cfg.hasLower = false → ∀ p, c.walking cfg env = some p →
      P p.address (env.physicalAddress >>> log2PageSize)
  | .invalidateEntry _ | .updateRob _ | .handleFill | .handleWriteback | .startReads
  | .prefetchOne => True
  | .addWq _ | .addPq _ | .prefetchLine .. => False

/-- What a TLB does outside. The STLB answers with translations. -/
def TlbEvent (Q : Addr → UInt64 → Prop) (cfg : Config) : Event → Prop
  | .upperReturn p => cfg.cacheType = .stlb → Q p.address p.data
  | .lowerAddRq p => p.type ≠ .prefetch
  | .lowerAddWq _ | .lowerAddPq _ => False
  | .processed _ | .dropped _ | .result _ => True

section
variable {P Q : Addr → UInt64 → Prop} {cfg : Config} {env : Env} {c c' : Cache} {evs : List Event}
  {p e : Packet}

/-- The blocks and the table are those before, and the requests are among those before. -/
theorem Translates.frame (h : Translates P Q c) (hw : c'.wq = c.wq) (hp : c'.pq = c.pq)
    (hr : ∀ p ∈ c'.rq, p ∈ c.rq) (hb : c'.block = c.block) (hm : c'.mshr = c.mshr) :
    Translates P Q c' :=
  ⟨hw ▸ h.wq, hp ▸ h.pq, fun p hp => h.reads p (hr p hp), hb ▸ h.clean, hb ▸ h.blocks,
    hm ▸ h.misses, hm ▸ h.entries⟩

/-- A slot is overwritten. -/
theorem Translates.setEntry (h : Translates P Q c) {i : ℕ} (hw : c'.wq = c.wq) (hp : c'.pq = c.pq)
    (hr : ∀ p ∈ c'.rq, p ∈ c.rq) (hb : c'.block = c.block)
    (hm : c'.mshr.entry = c.mshr.entry.set i e) (ht : e.type ≠ .prefetch)
    (he : e.returned = .completed → P e.address e.data) : Translates P Q c' := by
  refine ⟨hw ▸ h.wq, hp ▸ h.pq, fun p hp => h.reads p (hr p hp), hb ▸ h.clean, hb ▸ h.blocks,
    fun q hq => ?_, fun q hq => ?_⟩
  · rw [hm] at hq
    rcases List.mem_or_eq_of_mem_set hq with hq | rfl
    · exact h.misses q hq
    · exact ht
  · rw [hm] at hq
    rcases List.mem_or_eq_of_mem_set hq with hq | rfl
    · exact h.entries q hq
    · exact he

/-- A new miss. -/
theorem Translates.addMshr (h : Translates P Q c) (hw : c'.wq = c.wq) (hp : c'.pq = c.pq)
    (hr : ∀ p ∈ c'.rq, p ∈ c.rq) (hb : c'.block = c.block) (hm : c'.mshr = c.mshr.addMshr p)
    (ht : p.type ≠ .prefetch) : Translates P Q c' := by
  cases hf : c.mshr.checkMshr 0 with
  | none =>
    rw [Mshr.addMshr, hf] at hm
    exact h.frame hw hp hr hb hm
  | some ie =>
    rw [Mshr.addMshr_of_free (i := ie.1) (e := ie.2) hf] at hm
    exact h.setEntry (e := { p with returned := .inflight }) hw hp hr hb (by rw [hm]) ht
      fun hc => by cases hc

/-- The answer to a miss. -/
theorem Translates.returnData (h : Translates P Q c) (hp : P p.address p.data)
    (hs : c.returnData cfg env p = some c') : Translates P Q c' := by
  rw [Cache.returnData] at hs
  split at hs
  · cases hs
  · rename_i i e hf
    obtain ⟨_, _, ha⟩ := Mshr.checkMshr_some hf
    cases hs
    exact h.setEntry rfl rfl (fun _ hq => hq) rfl Mshr.entry_complete
      (h.misses e (Mshr.mem_of_checkMshr hf)) fun _ => by rw [ha]; exact hp

/-- A read merged into a miss. -/
theorem mergedRead_eq (ht : e.type ≠ .prefetch) : (Cache.mergedRead p e).type = e.type ∧
    (Cache.mergedRead p e).returned = e.returned ∧ (Cache.mergedRead p e).address = e.address ∧
      (Cache.mergedRead p e).data = e.data := by
  have hm : (Cache.lowerFillLevel p (Cache.markConsumers p e)).type = e.type ∧
      (Cache.lowerFillLevel p (Cache.markConsumers p e)).returned = e.returned ∧
      (Cache.lowerFillLevel p (Cache.markConsumers p e)).address = e.address ∧
      (Cache.lowerFillLevel p (Cache.markConsumers p e)).data = e.data := by
    simp only [Cache.lowerFillLevel, Cache.markConsumers]
    split_ifs <;> exact ⟨rfl, rfl, rfl, rfl⟩
  rw [Cache.mergedRead, Cache.replacePrefetch, if_neg (hm.1 ▸ ht)]
  exact hm

/-- The answer to the level above. -/
theorem tlbEvent_answer (hp : cfg.cacheType = .stlb → Q p.address p.data) :
    ∀ ev ∈ Cache.answer cfg p, TlbEvent Q cfg ev := by
  intro ev hev
  rw [Cache.answer] at hev
  split at hev
  · obtain rfl := List.mem_singleton.1 hev
    exact hp
  · cases hev

/-- A finished access calls nobody. -/
theorem tlbEvent_finish {l : List Packet} : ∀ ev ∈ Cache.finishEvents cfg p l, TlbEvent Q cfg ev := by
  intro ev hev
  rw [Cache.finishEvents] at hev
  split_ifs at hev
  · obtain rfl := List.mem_singleton.1 hev
    trivial
  · obtain rfl := List.mem_singleton.1 hev
    trivial
  · cases hev

/-- The packet of a TLB passes its prefetcher unchanged. -/
theorem withMetadata_tlb (ht : cfg.isTlb = true) : Cache.withMetadata cfg env p = p := by
  rw [Cache.withMetadata]
  cases hc : cfg.cacheType <;> simp_all [Config.isTlb]

/-- A TLB looks a page up by its tag. -/
theorem checkHit_tlb (ht : cfg.isTlb = true) :
    c.checkHit cfg p = (c.findWay cfg p.address, c.pageBuffer) := by
  have hk : cfg.hasKnob = false := by
    cases hc : cfg.cacheType <;> simp_all [Config.isTlb, Config.hasKnob]
  simp [Cache.checkHit, hk]

/-- `handle_fill` of a TLB. -/
theorem Translates.handleFill (h : Translates P Q c) (hok : MshrOk cfg c) (ht : cfg.isTlb = true)
    (hPQ : ∀ a d, P a d → Q a d) (hs : c.handleFill cfg env = some (c', evs)) :
    Translates P Q c' ∧ ∀ ev ∈ evs, TlbEvent Q cfg ev := by
  cases Cache.handleFill_cases hs with
  | idle => exact ⟨h, by simp⟩
  | bypass _ hllc =>
    rw [Config.isTlb, hllc] at ht
    cases ht
  | @fill p way evs' hd hv =>
    obtain ⟨hi, hp, hc⟩ := hd.completed hok.ok
    have hdata : Q p.address p.data := hPQ _ _ (h.entries p (hp ▸ List.getElem_mem hi) hc)
    have hl1d : cfg.cacheType ≠ .l1d := fun hl1d => by
      rw [Config.isTlb, hl1d] at ht
      cases ht
    have hrfo (bs : ℕ → ℕ → Block) (set way : ℕ) : Cache.markRfo cfg set way p bs = bs := by
      rw [Cache.markRfo, if_neg fun hr => hl1d hr.1]
    -- no dirty block is replaced
    have hclean : evs' = [] := by
      obtain ⟨v, hev, he⟩ := hv.evicted
      simp only [Cache.evict, h.clean, Bool.false_eq_true, if_false, Option.some.injEq] at hev
      subst hev
      cases he
      rfl
    subst hclean
    rw [withMetadata_tlb ht]
    refine ⟨⟨h.wq, h.pq, h.reads, fun s w => ?_, fun s w hv' => ?_, fun e he => ?_, fun e he => ?_⟩,
      fun ev hev => ?_⟩
    · simp only [Cache.fillWay, Cache.releaseMshr, hrfo, Cache.install_dirty]
      split_ifs
      · rfl
      · exact h.clean s w
    · simp only [Cache.fillWay, Cache.releaseMshr, hrfo, Cache.install_valid, Cache.install_tag,
        Cache.install_data] at hv' ⊢
      split_ifs at hv' ⊢
      · exact hdata
      · exact h.blocks s w hv'
    · rcases List.mem_or_eq_of_mem_set he with he | rfl
      · exact h.misses e he
      · simp
    · intro hr
      rcases List.mem_or_eq_of_mem_set he with he | rfl
      · exact h.entries e he hr
      · cases hr
    · rw [List.nil_append, Cache.fillWay] at hev
      rcases List.mem_append.1 hev with hev | hev
      · exact tlbEvent_answer (fun _ => hdata) ev hev
      · exact tlbEvent_finish ev hev

/-- A new read miss of a TLB. -/
theorem Translates.readNew (h : Translates P Q c) {rest : List Packet} (hq : c.rq = p :: rest)
    (hwalk : cfg.hasLower = false → P p.address (env.physicalAddress >>> log2PageSize))
    (hs : c.readNew cfg env p rest = some (c', evs)) :
    Translates P Q c' ∧ ∀ ev ∈ evs, TlbEvent Q cfg ev := by
  have hp : p.type ≠ .prefetch := h.reads p (hq ▸ List.mem_cons_self)
  have hrest : ∀ q ∈ rest, q ∈ c.rq := fun q hr => hq ▸ List.mem_cons_of_mem _ hr
  have hadd : Translates P Q { c with mshr := c.mshr.addMshr (Cache.stamped env p) } :=
    h.addMshr rfl rfl (fun _ hr => hr) rfl rfl hp
  obtain ⟨m, rfl, ⟨rfl, hevs⟩ | ⟨hlow, rfl, i, e, due, hf, rfl⟩⟩ := Cache.readNew_some hs
  · refine ⟨hadd.frame rfl rfl hrest rfl rfl, fun ev hev => ?_⟩
    rw [hevs ev hev]
    exact hp
  · obtain ⟨-, -, ha⟩ := Mshr.checkMshr_some hf
    refine ⟨?_, by simp⟩
    refine hadd.setEntry rfl rfl hrest rfl Mshr.entry_complete
      (hadd.misses e (Mshr.mem_of_checkMshr hf)) fun _ => ?_
    rw [ha]
    exact hwalk hlow

/-- A round of `handle_read` of a TLB. -/
theorem Translates.readOne (h : Translates P Q c) (ht : cfg.isTlb = true)
    (hm : TlbMay P cfg env c .readOne) (hs : c.readOne cfg env = some (c', evs)) :
    Translates P Q c' ∧ ∀ ev ∈ evs, TlbEvent Q cfg ev := by
  rcases Cache.readOne_ready hs with ⟨rfl, rfl⟩ | ⟨p₀, rest₀, hq₀, hready⟩
  · exact ⟨h, by simp⟩
  cases Cache.readOne_cases hs with
  | idle => exact ⟨h.frame rfl rfl (fun _ hr => hr) rfl rfl, by simp⟩
  | @hit p rest way buffer hq hh =>
    rw [checkHit_tlb ht, Prod.mk.injEq] at hh
    obtain ⟨_, hv, htag⟩ := Cache.findWay_some hh.1
    have hdata := h.blocks _ _ hv
    rw [htag] at hdata
    refine ⟨⟨h.wq, h.pq, fun q hr => h.reads q (hq ▸ List.mem_cons_of_mem _ hr), fun s w => ?_,
      fun s w hv' => ?_, h.misses, h.entries⟩, fun ev hev => ?_⟩
    · simpa [Cache.readHit] using h.clean s w
    · simp only [Cache.readHit, Cache.markUsed_valid, Cache.markUsed_tag, Cache.markUsed_data,
        Cache.updateReplacementState_valid, Cache.updateReplacementState_tag,
        Cache.updateReplacementState_data] at hv' ⊢
      exact h.blocks s w hv'
    · rcases List.mem_append.1 hev with hev | hev
      · exact tlbEvent_finish ev hev
      · refine tlbEvent_answer (fun hstlb => ?_) ev hev
        rw [Cache.withTranslation, if_pos hstlb]
        exact hdata
  | @new p rest buffer _ _ hq hh ha hlt hn =>
    obtain ⟨rfl, rfl⟩ := List.cons.inj (hq₀.symm.trans hq)
    have hb : Translates P Q { c with pageBuffer := buffer } :=
      h.frame rfl rfl (fun _ hr => hr) rfl rfl
    exact hb.readNew hq (fun hlow => hm hlow p₀ (Cache.walking_eq hq hready hh ha hlt)) hn
  | @merge p rest i e buffer hq hh hf =>
    obtain ⟨hty, hr, ha, hd⟩ := mergedRead_eq (p := p) (h.misses e (Mshr.mem_of_checkMshr hf))
    have he := Mshr.mem_of_checkMshr hf
    refine ⟨h.setEntry rfl rfl (fun q hq' => hq ▸ List.mem_cons_of_mem _ hq') rfl
      (Mshr.entry_update (p := Cache.mergedRead p e)) (hty ▸ h.misses e he) fun hc => ?_, by simp⟩
    rw [ha, hd]
    exact h.entries e he (hr.symm.trans hc)

/-- A round of `handle_read` of the STLB that walks. -/
theorem Translates.walked (h : Translates P Q c) (hw : c.walking cfg env = some p)
    (ht : cfg.cacheType ≠ .llc) (hp : P p.address (env.physicalAddress >>> log2PageSize))
    (hs : c.readOne cfg env = some (c', evs)) :
    Translates P Q c' ∧ evs.filterMap Event.above = [] := by
  obtain ⟨rest, buffer, hq, -, hone⟩ := Cache.walking_some hw ht
  rw [hone] at hs
  have hb : Translates P Q { c with pageBuffer := buffer } :=
    h.frame rfl rfl (fun _ hr => hr) rfl rfl
  exact ⟨(hb.readNew hq (fun _ => hp) hs).1, (Cache.readNew_cases hs).2⟩

/-- `invalidate_entry`. -/
theorem Translates.invalidateEntry (h : Translates P Q c) (cfg : Config) (a : Addr) :
    Translates P Q (c.invalidateEntry cfg a) := by
  rw [Cache.invalidateEntry]
  split
  · exact h
  · refine ⟨h.wq, h.pq, h.reads, fun s w => ?_, fun s w hv => ?_, h.misses, h.entries⟩
    · simp only [Cache.setBlock]
      split_ifs
      · exact h.clean _ _
      · exact h.clean s w
    · simp only [Cache.setBlock] at hv ⊢
      split_ifs at hv ⊢
      exact h.blocks s w hv

/-- A call to a TLB, or a part of `operate`. -/
theorem Translates.act (h : Translates P Q c) (hok : MshrOk cfg c) (ht : cfg.isTlb = true)
    (hPQ : ∀ a d, P a d → Q a d) {a : Action} (hm : TlbMay P cfg env c a)
    (hs : c.act cfg env a = some (c', evs)) : Translates P Q c' ∧ ∀ ev ∈ evs, TlbEvent Q cfg ev := by
  cases a with
  | addRq p =>
    obtain ⟨r, evs', hx, rfl⟩ := Cache.replied_some hs
    have hevs : ∀ ev ∈ ([] : List Event) ++ [.result r], TlbEvent Q cfg ev := by simp [TlbEvent]
    have hnone : Cache.checkWq cfg p c.wq = none := by
      rw [h.wq]
      rfl
    cases Cache.addRq_cases hx with
    | forward hw _ =>
      rw [hnone] at hw
      cases hw
    | @merge i e _ hq =>
      refine ⟨⟨h.wq, h.pq, fun q hr => ?_, h.clean, h.blocks, h.misses, h.entries⟩, hevs⟩
      rcases List.mem_or_eq_of_mem_set hr with hr | rfl
      · exact h.reads q hr
      · have hreq : (Cache.mergeConsumer p e).type = e.type := by
          rw [Cache.mergeConsumer]
          split_ifs <;> rfl
        rw [hreq]
        exact h.reads e (Slots.mem_of_lookup hq)
    | full => exact ⟨h, hevs⟩
    | append =>
      refine ⟨⟨h.wq, h.pq, fun q hr => ?_, h.clean, h.blocks, h.misses, h.entries⟩, hevs⟩
      rcases List.mem_append.1 hr with hr | hr
      · exact h.reads q hr
      · obtain rfl := List.mem_singleton.1 hr
        exact hm
  | addWq | addPq | prefetchLine => exact hm.elim
  | returnData p =>
    obtain ⟨c₁, hx, he⟩ := Option.map_eq_some_iff.1 hs
    cases he
    exact ⟨h.returnData hm hx, by simp⟩
  | invalidateEntry a =>
    cases hs
    exact ⟨h.invalidateEntry cfg a, by simp⟩
  | updateRob cpu =>
    cases hs
    refine ⟨?_, by simp⟩
    rw [Cache.updateRob]
    split
    · exact h
    · split
      · exact h.frame rfl rfl (fun _ hr => hr) rfl rfl
      · exact h
  | handleFill => exact h.handleFill hok ht hPQ hs
  | handleWriteback =>
    cases Cache.handleWriteback_cases hs with
    | idle => exact ⟨h.frame rfl rfl (fun _ hr => hr) rfl rfl, by simp⟩
    | hit hq | rfoNew hq | rfoMerge hq | fill hq =>
      rw [h.wq] at hq
      cases hq
  | startReads =>
    cases hs
    exact ⟨h.frame rfl rfl (fun _ hr => hr) rfl rfl, by simp⟩
  | readOne => exact h.readOne ht hm hs
  | prefetchOne =>
    cases Cache.prefetchOne_cases hs with
    | idle => exact ⟨h.frame rfl rfl (fun _ hr => hr) rfl rfl, by simp⟩
    | hit hq | new hq | drop hq | merge hq =>
      rw [h.pq] at hq
      cases hq

end

end Arishem
