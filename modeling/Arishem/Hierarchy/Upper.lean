import Arishem.Hierarchy.Routes

/-!
# Steps of an upper cache

What a step of an upper cache does to its misses: a new one comes with the request for it to the
lower cache, and no other step of its own starts or ends one. A prefetch that is not to be filled
into this cache is passed on without a miss.
-/

namespace Arishem

section
variable {cfg : Config} {p q : Packet} {l : List Packet}

/-- An answer goes up. -/
@[simp] theorem below_answer : (Cache.answer cfg p).filterMap Event.below = [] := by
  rw [Cache.answer]
  split <;> rfl

/-- What a finished access reports is no call. -/
@[simp] theorem below_finishEvents :
    (Cache.finishEvents cfg p l).filterMap Event.below = [] := by
  rw [Cache.finishEvents]
  split_ifs <;> rfl

/-- An address that misses is not in flight. -/
theorem Mshr.not_inflight_of_miss {m : Mshr} {a : Addr} (h : m.checkMshr a = none) :
    m.inflight a = false := by
  rw [Mshr.inflight, List.any_eq_false]
  intro e he
  simp [Mshr.checkMshr_none.1 h e he]

/-- A new miss of a well-kept table. -/
theorem MshrOk.inflight_new {cfg : Config} {c : Cache} (h : MshrOk cfg c)
    (hlt : c.mshr.occupancy < cfg.mshrSize) (ha : c.mshr.checkMshr p.address = none)
    (hq : q.request = p.request) :
    q.address ≠ 0 ∧ c.mshr.inflight q.address = false ∧
      ∀ b, (c.mshr.addMshr q).inflight b = (c.mshr.inflight b || q.address == b) := by
  have hqa : q.address = p.address := congrArg Prod.fst hq
  rw [← h.size] at hlt
  exact ⟨hqa ▸ h.ok.address_ne_zero hlt ha, hqa ▸ Mshr.not_inflight_of_miss ha,
    h.ok.inflight_addMshr hlt⟩

end

namespace Wiring

section
variable {U : Type} (W : Wiring U)

/-- The invariant of an upper cache: its MSHR table is well kept, and its queues hold what it may
get. -/
structure UpperOk (u : U) (c : Cache) : Prop where
  mshr : MshrOk (W.upper u) c
  rq : ∀ p ∈ c.rq, W.Reads u p
  wq : (W.upper u).cacheType = .l1d → ∀ p ∈ c.wq, W.Reads u p
  pq : ∀ p ∈ c.pq, W.Prefetches u p

/-- What a step of an upper cache does to its misses. -/
inductive UpperStep (u : U) (env : Env) (c c' : Cache) (evs : List Event) : Prop
  /-- The misses stay, at most a block is written back. -/
  | quiet : (∀ b, c'.mshr.inflight b = c.mshr.inflight b) →
      (evs.filterMap Event.below = [] ∨ ∃ p : Packet, W.lower.fillLevel ≤ p.fillLevel ∧
        evs.filterMap Event.below = [.below (.addWq p)]) → UpperStep u env c c' evs
  /-- A new miss of a demand. -/
  | miss {p : Packet} : W.Reads u p → p.address ≠ 0 → c.mshr.inflight p.address = false →
      (∀ b, c'.mshr.inflight b = (c.mshr.inflight b || p.address == b)) →
      evs.filterMap Event.below = [.below (.addRq p)] → UpperStep u env c c' evs
  /-- A new miss of a prefetch. -/
  | prefetch {p : Packet} : W.Prefetches u p → p.fillLevel ≤ (W.upper u).fillLevel →
      p.address ≠ 0 → c.mshr.inflight p.address = false → env.lowerFull .pq p.address = false →
      (∀ b, c'.mshr.inflight b = (c.mshr.inflight b || p.address == b)) →
      evs.filterMap Event.below = [.below (.addPq p)] → UpperStep u env c c' evs
  /-- A prefetch for the levels below is passed on. -/
  | pass {p : Packet} : W.Prefetches u p → W.lower.fillLevel ≤ p.fillLevel → p.address ≠ 0 →
      env.lowerFull .pq p.address = false → (∀ b, c'.mshr.inflight b = c.mshr.inflight b) →
      evs.filterMap Event.below = [.below (.addPq p)] → UpperStep u env c c' evs

/-- What an upper cache may be asked. -/
def UpperMay (u : U) (env : Env) : Action → Prop
  | .addRq p => W.Reads u p
  | .addWq p => (W.upper u).cacheType = .l1d → W.Reads u p
  | .addPq p => W.Prefetches u p
  | .prefetchLine cpu ip pfAddr fill metadata =>
    W.Prefetches u (Cache.prefetchPacket (W.upper u) env cpu ip pfAddr fill metadata)
  | .returnData _ => False
  | _ => True

end

section
variable {U : Type} {W : Wiring U} {u : U} {env : Env} {c c' : Cache} {evs : List Event}
  {p q : Packet}

/-- A read is decided by the request fields. -/
theorem Reads.congr (h : p.request = q.request) (hp : W.Reads u p) : W.Reads u q := by
  simp only [Packet.request, Prod.mk.injEq] at h
  obtain ⟨_, hi, hc, hf, ht⟩ := h
  simpa only [Reads, origin, hi, hc, hf, ht] using hp

/-- A prefetch is decided by the request fields. -/
theorem Prefetches.congr (h : p.request = q.request) (hp : W.Prefetches u p) :
    W.Prefetches u q := by
  simp only [Packet.request, Prod.mk.injEq] at h
  obtain ⟨_, hi, hc, hf, ht⟩ := h
  simpa only [Prefetches, origin, hi, hc, hf, ht] using hp

/-- An upper cache's read is a demand at the lower cache. -/
theorem Reads.demand (h : W.Reads u p) : W.Demand p :=
  ⟨Option.isSome_iff_exists.2 ⟨u, h.1⟩, lt_of_le_of_lt h.2.1 (W.fill_lt u), h.2.2⟩

/-- An upper cache's prefetch is one at the lower cache. -/
theorem Prefetches.prefetch (h : W.Prefetches u p) : W.Prefetch p := by
  refine ⟨Option.isSome_iff_exists.2 ⟨u, h.1⟩, h.2.2.1, h.2.2.2.1, ?_⟩
  by_contra ht
  have hu := W.upper_isTlb u (by simpa using ht)
  rw [h.2.2.2.2] at hu
  cases hu

/-- The eviction of a victim at most writes it back, past the lower cache. -/
theorem below_victim {way : ℕ} (h : Cache.Victim (W.upper u) env c p way evs) :
    evs.filterMap Event.below = [] ∨ ∃ q : Packet, W.lower.fillLevel ≤ q.fillLevel ∧
      evs.filterMap Event.below = [.below (.addWq q)] := by
  rcases h.calls with rfl | ⟨victim, rfl⟩
  · exact .inl rfl
  · exact .inr ⟨_, W.fill_le u, rfl⟩

/-- A step that leaves the queues and the table alone. -/
theorem UpperOk.frame (h : W.UpperOk u c) (hrq : ∀ p ∈ c'.rq, p ∈ c.rq)
    (hpq : ∀ p ∈ c'.pq, p ∈ c.pq) (hwq : ∀ p ∈ c'.wq, p ∈ c.wq) (hm : MshrOk (W.upper u) c') :
    W.UpperOk u c' :=
  ⟨hm, fun p hp => h.rq p (hrq p hp), fun ht p hp => h.wq ht p (hwq p hp),
    fun p hp => h.pq p (hpq p hp)⟩

/-- `add_rq`. -/
theorem UpperOk.addRq (h : W.UpperOk u c) (hp : W.Reads u p)
    (hs : c.act (W.upper u) env (.addRq p) = some (c', evs)) :
    W.UpperOk u c' ∧ W.UpperStep u env c c' evs := by
  obtain ⟨r, evs', hx, rfl⟩ := Cache.replied_some hs
  cases Cache.addRq_cases hx with
  | forward _ _ =>
    refine ⟨⟨h.mshr.frame rfl, h.rq, h.wq, h.pq⟩, .quiet (fun _ => rfl) (.inl ?_)⟩
    simp only [List.filterMap_append, below_answer, below_finishEvents, List.nil_append]
    rfl
  | @merge i e _ hq =>
    refine ⟨⟨h.mshr.frame rfl, fun q hq' => ?_, h.wq, h.pq⟩, .quiet (fun _ => rfl) (.inl rfl)⟩
    rcases List.mem_or_eq_of_mem_set hq' with hq' | rfl
    · exact h.rq q hq'
    · exact (h.rq e (Slots.mem_of_lookup hq)).congr request_mergeConsumer.symm
  | full _ _ _ => exact ⟨h, .quiet (fun _ => rfl) (.inl rfl)⟩
  | append _ _ _ _ =>
    refine ⟨⟨h.mshr.frame rfl, fun q hq' => ?_, h.wq, h.pq⟩, .quiet (fun _ => rfl) (.inl rfl)⟩
    rcases List.mem_append.1 hq' with hq' | hq'
    · exact h.rq q hq'
    · rw [List.mem_singleton.1 hq']
      exact hp.congr rfl

/-- `add_wq`. -/
theorem UpperOk.addWq (h : W.UpperOk u c) (hp : (W.upper u).cacheType = .l1d → W.Reads u p)
    (hs : c.act (W.upper u) env (.addWq p) = some (c', evs)) :
    W.UpperOk u c' ∧ W.UpperStep u env c c' evs := by
  obtain ⟨r, evs', hx, rfl⟩ := Cache.replied_some hs
  obtain ⟨hstep, rfl⟩ := Cache.addWq_cases hx
  cases hstep with
  | merge _ => exact ⟨h, .quiet (fun _ => rfl) (.inl rfl)⟩
  | append _ _ =>
    refine ⟨⟨h.mshr.frame rfl, h.rq, fun ht q hq => ?_, h.pq⟩, .quiet (fun _ => rfl) (.inl rfl)⟩
    rcases List.mem_append.1 hq with hq | hq
    · exact h.wq ht q hq
    · rw [List.mem_singleton.1 hq]
      exact (hp ht).congr rfl

/-- A prefetch enters the queue. -/
theorem UpperOk.pqStep (h : W.UpperOk u c) (hp : W.Prefetches u p) {r : Reply}
    (hs : Cache.PqStep (W.upper u) env c p r c' evs) :
    W.UpperOk u c' ∧ c'.mshr = c.mshr ∧ evs.filterMap Event.below = [] := by
  cases hs with
  | forward _ => exact ⟨h, rfl, below_answer⟩
  | @merge i e _ hq =>
    refine ⟨⟨h.mshr.frame rfl, h.rq, h.wq, fun q hq' => ?_⟩, rfl, rfl⟩
    rcases List.mem_or_eq_of_mem_set hq' with hq' | rfl
    · exact h.pq q hq'
    · obtain ⟨ho, hf, ht⟩ := h.pq e (Slots.mem_of_lookup hq)
      refine ⟨ho, ?_, ht⟩
      -- the lower of two levels that are each at this cache or below the next
      rcases hp.2.1 with hpf | hpf
      · exact .inl ((min_le_left _ _).trans hpf)
      · exact hf.imp (fun hf => (min_le_right _ _).trans hf) fun hf => le_min hpf hf
  | full _ _ _ => exact ⟨h, rfl, rfl⟩
  | append _ _ _ _ =>
    refine ⟨⟨h.mshr.frame rfl, h.rq, h.wq, fun q hq' => ?_⟩, rfl, rfl⟩
    rcases List.mem_append.1 hq' with hq' | hq'
    · exact h.pq q hq'
    · rw [List.mem_singleton.1 hq']
      exact hp.congr rfl

/-- `prefetch_line`. -/
theorem UpperOk.prefetchLine (h : W.UpperOk u c) {cpu : ℕ} {ip pfAddr : UInt64} {fill : Int}
    {metadata : UInt32}
    (hp : W.Prefetches u (Cache.prefetchPacket (W.upper u) env cpu ip pfAddr fill metadata))
    (hs : c.act (W.upper u) env (.prefetchLine cpu ip pfAddr fill metadata) = some (c', evs)) :
    W.UpperOk u c' ∧ W.UpperStep u env c c' evs := by
  simp only [Cache.act, Cache.prefetchLine] at hs
  split at hs
  · split at hs
    · cases hs
    · rename_i hx
      cases hs
      have h₁ : W.UpperOk u
          { c with stats := { c.stats with pfRequested := c.stats.pfRequested + 1 } } :=
        h.frame (fun _ hq => hq) (fun _ hq => hq) (fun _ hq => hq) (h.mshr.frame rfl)
      obtain ⟨hok, hm, hevs⟩ := h₁.pqStep hp (Cache.addPq_cases hx)
      refine ⟨hok.frame (fun _ hq => hq) (fun _ hq => hq) (fun _ hq => hq) (hok.mshr.frame rfl),
        .quiet (fun b => congrArg (Mshr.inflight b) hm) (.inl hevs)⟩
  · cases hs
    exact ⟨h.frame (fun _ hq => hq) (fun _ hq => hq) (fun _ hq => hq) (h.mshr.frame rfl),
      .quiet (fun _ => rfl) (.inl rfl)⟩

/-- `handle_fill` gives up a miss that has been answered. -/
theorem UpperOk.handleFill (h : W.UpperOk u c)
    (hs : c.act (W.upper u) env .handleFill = some (c', evs)) :
    W.UpperOk u c' ∧ W.UpperStep u env c c' evs := by
  have hstep := Cache.handleFill_cases hs
  have hok := h.mshr.fillStep hstep
  cases hstep with
  | idle => exact ⟨h, .quiet (fun _ => rfl) (.inl rfl)⟩
  | bypass hd _ =>
    obtain ⟨hi, rfl, hc⟩ := hd.completed h.mshr.ok
    exact ⟨h.frame (fun _ hq => hq) (fun _ hq => hq) (fun _ hq => hq) hok,
      .quiet (fun b => Mshr.inflight_remove hi hc) (.inl below_answer)⟩
  | fill hd hv =>
    obtain ⟨hi, he, hc⟩ := hd.completed h.mshr.ok
    rw [← he] at hc
    refine ⟨h.frame (fun _ hq => hq) (fun _ hq => hq) (fun _ hq => hq) hok,
      .quiet (fun b => Mshr.inflight_remove hi hc) ?_⟩
    simp only [Cache.fillWay, List.filterMap_append, below_answer, below_finishEvents,
      List.append_nil]
    exact below_victim hv

/-- `handle_writeback`: an RFO that misses at the L1D is a new miss. -/
theorem UpperOk.handleWriteback (h : W.UpperOk u c)
    (hs : c.act (W.upper u) env .handleWriteback = some (c', evs)) :
    W.UpperOk u c' ∧ W.UpperStep u env c c' evs := by
  have hstep := Cache.handleWriteback_cases hs
  have hok := h.mshr.writebackStep hstep
  cases hstep with
  | idle =>
    exact ⟨h.frame (fun _ hq => hq) (fun _ hq => hq) (fun _ hq => hq) hok,
      .quiet (fun _ => rfl) (.inl rfl)⟩
  | hit hq _ =>
    exact ⟨h.frame (fun _ hq => hq) (fun _ hq => hq) (fun q hq' => hq ▸ List.mem_cons_of_mem _ hq')
      hok, .quiet (fun _ => rfl) (.inl below_answer)⟩
  | @rfoNew p rest buffer hq ht hh ha hlt =>
    have hp : W.Reads u (Cache.stamped env p) := (h.wq ht p (hq ▸ by simp)).congr rfl
    have hr : (Cache.stamped env p).request = p.request := request_stamped
    obtain ⟨h0, hin, hadd⟩ := h.mshr.inflight_new hlt ha hr
    exact ⟨h.frame (fun _ hq => hq) (fun _ hq => hq)
      (fun q hq' => hq ▸ List.mem_cons_of_mem _ hq') hok, .miss hp h0 hin hadd rfl⟩
  | @rfoMerge p rest i e buffer hq _ ht hh hf =>
    obtain ⟨_, _, ha⟩ := Mshr.checkMshr_some hf
    exact ⟨h.frame (fun _ hq => hq) (fun _ hq => hq)
      (fun q hq' => hq ▸ List.mem_cons_of_mem _ hq') hok,
      .quiet (fun b => Mshr.inflight_update hf (Cache.mergedRfo_sameMiss ha)) (.inl rfl)⟩
  | fill hq _ _ _ hv =>
    refine ⟨h.frame (fun _ hq => hq) (fun _ hq => hq)
      (fun q hq' => hq ▸ List.mem_cons_of_mem _ hq') hok, .quiet (fun _ => rfl) ?_⟩
    rw [List.filterMap_append, below_answer, List.append_nil]
    exact below_victim hv

/-- A round of `handle_read`. -/
theorem UpperOk.readOne (h : W.UpperOk u c)
    (hs : c.act (W.upper u) env .readOne = some (c', evs)) :
    W.UpperOk u c' ∧ W.UpperStep u env c c' evs := by
  have hstep := Cache.readOne_cases hs
  have hok := h.mshr.readStep hstep
  cases hstep with
  | idle =>
    exact ⟨h.frame (fun _ hq => hq) (fun _ hq => hq) (fun _ hq => hq) hok,
      .quiet (fun _ => rfl) (.inl rfl)⟩
  | hit hq _ =>
    refine ⟨h.frame (fun q hq' => hq ▸ List.mem_cons_of_mem _ hq') (fun _ hq => hq)
      (fun _ hq => hq) hok, .quiet (fun _ => rfl) (.inl ?_)⟩
    simp only [Cache.readHit, List.filterMap_append, below_answer, below_finishEvents,
      List.append_nil]
  | @new p rest buffer c' evs hq hh ha hlt hn =>
    have hp : W.Reads u (Cache.stamped env p) := (h.rq p (hq ▸ by simp)).congr rfl
    have hr : (Cache.stamped env p).request = p.request := request_stamped
    obtain ⟨h0, hin, hadd⟩ := h.mshr.inflight_new hlt ha hr
    simp only [Cache.readNew, W.upper_hasLower u, if_true, Option.some.injEq,
      Prod.mk.injEq] at hn
    obtain ⟨rfl, rfl⟩ := hn
    exact ⟨h.frame (fun q hq' => hq ▸ List.mem_cons_of_mem _ hq') (fun _ hq => hq)
      (fun _ hq => hq) hok, .miss hp h0 hin hadd rfl⟩
  | @merge p rest i e buffer hq hh hf =>
    obtain ⟨_, _, ha⟩ := Mshr.checkMshr_some hf
    exact ⟨h.frame (fun q hq' => hq ▸ List.mem_cons_of_mem _ hq') (fun _ hq => hq)
      (fun _ hq => hq) hok,
      .quiet (fun b => Mshr.inflight_update hf (Cache.mergedRead_sameMiss ha)) (.inl rfl)⟩

/-- A round of `handle_prefetch`. -/
theorem UpperOk.prefetchOne (h : W.UpperOk u c)
    (hs : c.act (W.upper u) env .prefetchOne = some (c', evs)) :
    W.UpperOk u c' ∧ W.UpperStep u env c c' evs := by
  have hstep := Cache.prefetchOne_cases hs
  have hok := h.mshr.prefetchStep hstep
  cases hstep with
  | idle =>
    exact ⟨h.frame (fun _ hq => hq) (fun _ hq => hq) (fun _ hq => hq) hok,
      .quiet (fun _ => rfl) (.inl rfl)⟩
  | hit hq _ =>
    exact ⟨h.frame (fun _ hq => hq) (fun q hq' => hq ▸ List.mem_cons_of_mem _ hq')
      (fun _ hq => hq) hok, .quiet (fun _ => rfl) (.inl below_answer)⟩
  | @new p rest buffer hq hh ha hlt hlow hfull =>
    have hp : W.Prefetches u p := h.pq p (hq ▸ by simp)
    have hro : (Cache.prefetchOperated (W.upper u) env p).request = p.request :=
      request_prefetchOperated
    have hrs : (Cache.stamped env (Cache.prefetchOperated (W.upper u) env p)).request =
        p.request := request_stamped.trans hro
    have hqa : (Cache.stamped env (Cache.prefetchOperated (W.upper u) env p)).address =
        p.address := congrArg Prod.fst hrs
    have hqf : (Cache.prefetchOperated (W.upper u) env p).fillLevel = p.fillLevel :=
      congrArg (fun r : Addr × Bool × ℕ × Int × AccessType => r.2.2.2.1) hro
    have hroom : env.lowerFull .pq p.address = false := by
      rwa [Cache.lowerPrefetchQueue, if_neg (W.upper_ne_llc u)] at hfull
    have hcall {q : Packet} : [Cache.lowerAddPrefetch (W.upper u) q].filterMap Event.below =
        [.below (.addPq q)] := by
      rw [Cache.lowerAddPrefetch, if_neg (W.upper_ne_llc u)]
      rfl
    obtain ⟨h0, hin, hadd⟩ := h.mshr.inflight_new hlt ha hrs
    simp only [Cache.prefetchNew] at hok ⊢
    split at hok
    · rename_i hfill
      simp only [if_pos hfill]
      exact ⟨h.frame (fun _ hq => hq) (fun q hq' => hq ▸ List.mem_cons_of_mem _ hq')
        (fun _ hq => hq) hok,
        .prefetch (hp.congr hrs.symm) hfill h0 hin (by rw [hqa]; exact hroom) hadd hcall⟩
    · rename_i hfill
      simp only [if_neg hfill]
      have hlevel : W.lower.fillLevel ≤ (Cache.prefetchOperated (W.upper u) env p).fillLevel := by
        rw [hqf] at hfill ⊢
        exact hp.2.1.resolve_left hfill
      have hoa : (Cache.prefetchOperated (W.upper u) env p).address = p.address := hqa
      exact ⟨h.frame (fun _ hq => hq) (fun q hq' => hq ▸ List.mem_cons_of_mem _ hq')
        (fun _ hq => hq) hok,
        .pass (hp.congr hro.symm) hlevel (by rw [hoa, ← hqa]; exact h0) (by rw [hoa]; exact hroom)
        (fun _ => rfl) hcall⟩
  | drop _ hlow =>
    rw [W.upper_hasLower u] at hlow
    cases hlow
  | @merge p rest i e buffer hq hh hf =>
    exact ⟨h.frame (fun _ hq => hq) (fun q hq' => hq ▸ List.mem_cons_of_mem _ hq')
      (fun _ hq => hq) hok,
      .quiet (fun b => Mshr.inflight_update hf Cache.lowerFillLevel_sameMiss) (.inl rfl)⟩

/-- Every step of an upper cache keeps its invariant and starts misses only with a request. -/
theorem UpperOk.act (h : W.UpperOk u c) {a : Action} (hm : W.UpperMay u env a)
    (hs : c.act (W.upper u) env a = some (c', evs)) :
    W.UpperOk u c' ∧ W.UpperStep u env c c' evs := by
  have hquiet {c₁ : Cache} (hq : c₁.rq = c.rq) (hw : c₁.wq = c.wq) (hp : c₁.pq = c.pq)
      (hm : c₁.mshr = c.mshr) : W.UpperOk u c₁ ∧ W.UpperStep u env c c₁ [] :=
    ⟨h.frame (by simp [hq]) (by simp [hp]) (by simp [hw]) (h.mshr.frame hm),
      .quiet (fun b => congrArg (Mshr.inflight b) hm) (.inl rfl)⟩
  cases a with
  | addRq p => exact h.addRq hm hs
  | addWq p => exact h.addWq hm hs
  | addPq p =>
    obtain ⟨r, evs', hx, rfl⟩ := Cache.replied_some hs
    obtain ⟨hok, hmshr, hevs⟩ := h.pqStep hm (Cache.addPq_cases hx)
    refine ⟨hok, .quiet (fun b => congrArg (Mshr.inflight b) hmshr) (.inl ?_)⟩
    rw [List.filterMap_append, hevs]
    rfl
  | prefetchLine cpu ip pfAddr fill metadata => exact h.prefetchLine hm hs
  | returnData p => exact hm.elim
  | invalidateEntry a =>
    cases hs
    rw [Cache.invalidateEntry]
    split
    · exact hquiet rfl rfl rfl rfl
    · exact hquiet rfl rfl rfl rfl
  | updateRob cpu =>
    cases hs
    rw [Cache.updateRob]
    split
    · exact hquiet rfl rfl rfl rfl
    · split
      · exact hquiet rfl rfl rfl rfl
      · exact hquiet rfl rfl rfl rfl
  | handleFill => exact h.handleFill hs
  | handleWriteback => exact h.handleWriteback hs
  | startReads =>
    cases hs
    exact hquiet rfl rfl rfl rfl
  | readOne => exact h.readOne hs
  | prefetchOne => exact h.prefetchOne hs

end

end Wiring

end Arishem
