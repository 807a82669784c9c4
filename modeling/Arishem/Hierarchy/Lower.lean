import Arishem.Hierarchy.Merges

/-!
# Steps of the lower cache

What a step of the lower cache does to the requests it holds: it keeps each of them or answers it,
it merges two of them, or it refuses one.
-/

namespace Arishem

namespace Wiring

section
variable {U : Type} [DecidableEq U] (W : Wiring U)

/-- What a step of the lower cache does to the requests. -/
inductive LowerStep (env : Env) (c : Cache) (a : Action) (c' : Cache) (evs : List Event) : Prop
  /-- Each request is held or answered. -/
  | keep : (∀ u b, b ≠ 0 →
      W.held u b c' + W.pending u b (evs.filterMap Event.above) =
        W.held u b c + W.claims u b (LevelCall.below a).packets) → LowerStep env c a c' evs
  /-- The request `p` and the entry `e` become the entry `n`. -/
  | merge {p e : Packet} (n : Packet) : c.merging W.lower env a = some (p, e) →
      (¬ W.Misroutes a p e → ∀ u b, W.claim u b n ≤ W.claim u b p + W.claim u b e) →
      (¬ W.Loses a p e → ∀ u b, W.claim u b p ≤ W.claim u b n ∧ W.claim u b e ≤ W.claim u b n) →
      (∀ u b, W.claim u b n ≤ W.held u b c') →
      (∀ u b, b ≠ 0 →
        W.held u b c' + W.pending u b (evs.filterMap Event.above) + W.claim u b p +
            W.claim u b e =
          W.held u b c + W.claims u b (LevelCall.below a).packets + W.claim u b n) →
      LowerStep env c a c' evs
  /-- The request is refused. -/
  | full : c.refuses W.lower a = true → c' = c → evs = [.result .full] →
      LowerStep env c a c' evs

/-- The requests the lower cache may get, and what it may be told. -/
def LowerMay (c : Cache) : Action → Prop
  | .addRq p => p.address ≠ 0 ∧ W.Demand p
  | .addPq p => p.address ≠ 0 ∧ W.Prefetch p
  | .addWq p => W.lower.fillLevel ≤ p.fillLevel
  | .prefetchLine cpu _ _ fill _ =>
    (W.upperLevel false cpu).isSome ∧ W.lower.fillLevel ≤ fill ∧ W.lower.isTlb = false
  | .returnData p => c.mshr.inflight p.address = true
  | _ => True

/-- The invariant of the lower cache: its MSHR table is well kept, and each of its queues holds
what was put there. -/
structure LowerOk (c : Cache) : Prop where
  mshr : MshrOk W.lower c
  rq : ∀ p ∈ c.rq, p.address ≠ 0 ∧ W.Demand p
  rqNodup : (c.rq.map (·.address)).Nodup
  pq : ∀ p ∈ c.pq, p.address ≠ 0 ∧ W.Prefetch p
  wq : ∀ p ∈ c.wq, W.lower.fillLevel ≤ p.fillLevel
  entry : ∀ e ∈ c.mshr.entry, e.address ≠ 0 → W.Demand e ∨ W.Prefetch e

end

section
variable {U : Type} {W : Wiring U} {p e n : Packet} {m : Mshr}

/-- Each outstanding miss is a demand or a prefetch of an upper cache. -/
def Entries (W : Wiring U) (m : Mshr) : Prop :=
  ∀ e ∈ m.entry, e.address ≠ 0 → W.Demand e ∨ W.Prefetch e

/-- A slot overwritten by a demand or a prefetch. -/
theorem Entries.set (h : Entries W m) {i : ℕ} (hn : n.address ≠ 0 → W.Demand n ∨ W.Prefetch n)
    {m' : Mshr} (hm : m'.entry = m.entry.set i n) : Entries W m' := by
  intro q hq hq0
  rw [hm] at hq
  rcases List.mem_or_eq_of_mem_set hq with hq | rfl
  · exact h q hq hq0
  · exact hn hq0

/-- A new miss. -/
theorem Entries.addMshr (h : Entries W m) (hp : W.Demand p ∨ W.Prefetch p) :
    Entries W (m.addMshr p) := by
  cases hf : m.checkMshr 0 with
  | none =>
    rw [Mshr.addMshr, hf]
    exact h
  | some ie =>
    rw [Mshr.addMshr_of_free (i := ie.1) (e := ie.2) hf]
    exact h.set (n := { p with returned := .inflight })
      (fun _ => hp.imp (Demand.congr rfl) (Prefetch.congr rfl)) rfl

/-- An answered miss. -/
theorem Entries.complete (h : Entries W m) {i : ℕ} {q : Packet} {due : Cycle} {d : Addr}
    (hf : m.checkMshr d = some (i, e)) : Entries W (m.complete i e q due) := by
  have he := h e (Mshr.mem_of_checkMshr hf)
  refine h.set (fun h0 => ?_) Mshr.entry_complete
  exact (he h0).imp (Demand.congr rfl) (Prefetch.congr rfl)

/-- A slot that is given up. -/
theorem Entries.remove (h : Entries W m) {i k : ℕ} : Entries W (m.remove k i) :=
  h.set (fun h0 => absurd rfl h0) Mshr.entry_remove

/-- A read merged into a miss. -/
theorem Entries.mergedRead (hp : W.Demand p) (he : W.Demand e ∨ W.Prefetch e) :
    W.Demand (Cache.mergedRead p e) ∨ W.Prefetch (Cache.mergedRead p e) := by
  have hm := request_mergedRead (p := p) (e := e)
  split at hm
  · exact .inl (hp.congr hm.symm)
  · rename_i ht
    obtain ⟨ho, hf, ht'⟩ := he.resolve_right fun he => ht he.2.1
    have hl : W.Demand (Cache.lowerFillLevel p e) :=
      ⟨ho, lt_of_le_of_lt (min_le_right _ _) hf, ht'⟩
    exact .inl (hl.congr hm.symm)

/-- A prefetch merged into an entry. -/
theorem Entries.lowerFillLevel (he : W.Demand e ∨ W.Prefetch e) :
    W.Demand (Cache.lowerFillLevel p e) ∨ W.Prefetch (Cache.lowerFillLevel p e) := by
  rcases he with ⟨ho, hf, ht⟩ | he
  · exact .inl ⟨ho, lt_of_le_of_lt (min_le_right _ _) hf, ht⟩
  · exact .inr ⟨he.1, he.2.1, he.2.2.1, he.2.2.2⟩

/-! ## Each step of the lower cache -/

/-- A step that leaves the queues and the table alone. -/
theorem LowerOk.frame {c c' : Cache} (h : W.LowerOk c) (hrq : c'.rq = c.rq) (hpq : c'.pq = c.pq)
    (hwq : ∀ p ∈ c'.wq, p ∈ c.wq) (hm : c'.mshr = c.mshr) : W.LowerOk c' :=
  ⟨h.mshr.frame hm, hrq ▸ h.rq, hrq ▸ h.rqNodup, hpq ▸ h.pq, fun p hp => h.wq p (hwq p hp),
    hm ▸ h.entry⟩

end

section
variable {U : Type} [DecidableEq U] {W : Wiring U} {env : Env} {c c' : Cache} {evs : List Event}

/-- Nothing is lost where the queues and the table are left alone and nobody is answered. -/
theorem LowerStep.frame {a : Action} (hrq : c'.rq = c.rq) (hpq : c'.pq = c.pq)
    (hm : c'.mshr = c.mshr) (ha : (LevelCall.below a).packets = [])
    (hevs : evs.filterMap Event.above = []) : W.LowerStep env c a c' evs :=
  .keep fun u b _ => by rw [ha, hevs, held, held, hrq, hpq, hm]; rfl

/-- `add_rq`. -/
theorem LowerOk.addRq (h : W.LowerOk c) {p : Packet} (hp : W.Demand p)
    (hs : c.act W.lower env (.addRq p) = some (c', evs)) :
    W.LowerOk c' ∧ W.LowerStep env c (.addRq p) c' evs := by
  obtain ⟨r, evs', hx, rfl⟩ := Cache.replied_some hs
  cases Cache.addRq_cases hx with
  | @forward i w hw _ =>
    refine ⟨h.frame rfl rfl (fun _ hq => hq) rfl, .keep fun u b _ => ?_⟩
    simp only [List.filterMap_append, above_finishEvents, List.append_nil, pending_append,
      pending_answer, LevelCall.packets, claims_cons, claims_nil]
    rw [claim_congr request_forwarded]
    rfl
  | @merge i e hw hq =>
    obtain ⟨hi, he, ha⟩ := Slots.lookup_some hq
    have ha' : e.address = p.address := by simpa using ha
    obtain ⟨h0, hd⟩ := h.rq e (he ▸ List.getElem_mem hi)
    have hn : (Cache.mergeConsumer p e).request = e.request := request_mergeConsumer
    have haddr : (Cache.mergeConsumer p e).address = e.address := congrArg Prod.fst hn
    constructor
    · refine ⟨h.mshr.frame rfl, fun q hq => ?_, ?_, h.pq, h.wq, h.entry⟩
      · rcases List.mem_or_eq_of_mem_set hq with hq | rfl
        · exact h.rq q hq
        · exact ⟨haddr ▸ h0, hd.congr hn.symm⟩
      · show ((c.rq.set i (Cache.mergeConsumer p e)).map (·.address)).Nodup
        have heq : (c.rq.map (·.address)).set i e.address = c.rq.map (·.address) := by
          rw [← he, ← List.map_set, List.set_getElem_self]
        rw [List.map_set, haddr, heq]
        exact h.rqNodup
    · have hmerge : c.merging W.lower env (.addRq p) = some (p, e) := by
        simp [Cache.merging, hw, hq]
      refine .merge (Cache.mergeConsumer p e) hmerge (fun _ u b => ?_) (fun hl u b => ?_)
        (fun u b => ?_) fun u b _ => ?_
      · rw [claim_congr hn]
        exact Nat.le_add_left _ _
      · exact LosesDemand.keeps hp ha' hn hd hl
      · exact claim_le_held (.inl (List.mem_set hi _))
      · have hset := claims_set (W := W) (u := u) (a := b) (p := Cache.mergeConsumer p e) hi he
        simp only [held, List.nil_append, LevelCall.packets, claims_cons, claims_nil]
        show _ + W.pending u b [] + _ + _ = _
        rw [pending_nil]
        omega
  | full hw hq hlen =>
    exact ⟨h, .full (by simp [Cache.refuses, hw, hq, hlen]) rfl rfl⟩
  | append hw hq hlen h0 =>
    constructor
    · refine ⟨h.mshr.frame rfl, fun q hq' => ?_, ?_, h.pq, h.wq, h.entry⟩
      · rcases List.mem_append.1 hq' with hq' | hq'
        · exact h.rq q hq'
        · rw [List.mem_singleton.1 hq']
          exact ⟨h0, hp.congr rfl⟩
      · show ((c.rq ++ [Cache.enqueued W.lower env p]).map (·.address)).Nodup
        rw [List.map_append, List.nodup_append]
        refine ⟨h.rqNodup, by simp, fun d hd d' hd' => ?_⟩
        obtain ⟨q, hq', rfl⟩ := List.mem_map.1 hd
        obtain rfl : d' = p.address := by simpa [Cache.enqueued] using hd'
        simpa using Slots.lookup_none.1 hq q hq'
    · refine .keep fun u b _ => ?_
      have hc : W.claim u b (Cache.enqueued W.lower env p) = W.claim u b p :=
        claim_congr request_enqueued
      simp only [held, LevelCall.packets, claims_append, claims_cons, claims_nil, hc]
      show _ + W.pending u b [] = _
      rw [pending_nil]
      omega

/-- `add_pq`. -/
theorem LowerOk.addPq (h : W.LowerOk c) {p : Packet} (hp : W.Prefetch p)
    (hs : c.act W.lower env (.addPq p) = some (c', evs)) :
    W.LowerOk c' ∧ W.LowerStep env c (.addPq p) c' evs := by
  obtain ⟨r, evs', hx, rfl⟩ := Cache.replied_some hs
  cases Cache.addPq_cases hx with
  | @forward i w hw =>
    refine ⟨h, .keep fun u b _ => ?_⟩
    simp only [List.filterMap_append, pending_append, pending_answer, LevelCall.packets,
      claims_cons, claims_nil]
    rw [claim_congr request_forwarded]
    rfl
  | @merge i e hw hq =>
    obtain ⟨hi, he, ha⟩ := Slots.lookup_some hq
    have ha' : e.address = p.address := by simpa using ha
    obtain ⟨h0, hpf⟩ := h.pq e (he ▸ List.getElem_mem hi)
    have hmerge : c.merging W.lower env (.addPq p) = some (p, e) := by
      simp [Cache.merging, Cache.mergingPq, hw, hq]
    constructor
    · refine ⟨h.mshr.frame rfl, h.rq, h.rqNodup, fun q hq => ?_, h.wq, h.entry⟩
      rcases List.mem_or_eq_of_mem_set hq with hq | rfl
      · exact h.pq q hq
      · exact ⟨h0, hpf.1, hpf.2.1, hpf.2.2.1, hpf.2.2.2⟩
    · refine .merge (Cache.lowerFillLevel p e) hmerge
        (fun hl u b => claim_lowerFillLevel_le ha' hl) (fun hl u b => le_claim_lowerFillLevel ha' hl)
        (fun u b => claim_le_held (.inr (.inl (List.mem_set hi _)))) fun u b _ => ?_
      have hset := claims_set (W := W) (u := u) (a := b) (p := Cache.lowerFillLevel p e) hi he
      simp only [held, List.nil_append, LevelCall.packets, claims_cons, claims_nil]
      show _ + W.pending u b [] + _ + _ = _
      rw [pending_nil]
      omega
  | full hw hq hlen =>
    exact ⟨h, .full (by simp [Cache.refuses, hw, hq, hlen]) rfl rfl⟩
  | append hw hq hlen h0 =>
    constructor
    · refine ⟨h.mshr.frame rfl, h.rq, h.rqNodup, fun q hq' => ?_, h.wq, h.entry⟩
      rcases List.mem_append.1 hq' with hq' | hq'
      · exact h.pq q hq'
      · rw [List.mem_singleton.1 hq']
        exact ⟨h0, hp.congr rfl⟩
    · refine .keep fun u b _ => ?_
      have hc : W.claim u b (Cache.enqueued W.lower env p) = W.claim u b p :=
        claim_congr request_enqueued
      simp only [held, LevelCall.packets, claims_append, claims_cons, claims_nil, hc]
      show _ + W.pending u b [] = _
      rw [pending_nil]
      omega

/-- `prefetch_line` of the lower cache: a prefetch that nobody above waits for. -/
theorem LowerOk.prefetchLine (h : W.LowerOk c) {cpu : ℕ} {ip pfAddr : UInt64} {fill : Int}
    {metadata : UInt32} (hm : W.LowerMay c (.prefetchLine cpu ip pfAddr fill metadata))
    (hs : c.act W.lower env (.prefetchLine cpu ip pfAddr fill metadata) = some (c', evs)) :
    W.LowerOk c' ∧ W.LowerStep env c (.prefetchLine cpu ip pfAddr fill metadata) c' evs := by
  obtain ⟨ho, hf, ht⟩ := hm
  have hp : W.Prefetch (Cache.prefetchPacket W.lower env cpu ip pfAddr fill metadata) :=
    ⟨ho, rfl, rfl, ht⟩
  have hc (u : U) (b : Addr) :
      W.claim u b (Cache.prefetchPacket W.lower env cpu ip pfAddr fill metadata) = 0 :=
    claim_of_fill hf
  simp only [Cache.act, Cache.prefetchLine] at hs
  split at hs
  · rename_i hlen
    split at hs
    · cases hs
    · rename_i r c₁ evs₁ hx
      cases hs
      have hx' : Cache.replied (Cache.addPq W.lower env
          (Cache.prefetchPacket W.lower env cpu ip pfAddr fill metadata)
          { c with stats := { c.stats with pfRequested := c.stats.pfRequested + 1 } }) =
            some (c₁, evs ++ [Event.result r]) := by
        rw [hx]
        rfl
      have h₁ : W.LowerOk
          { c with stats := { c.stats with pfRequested := c.stats.pfRequested + 1 } } :=
        h.frame rfl rfl (fun _ hq => hq) rfl
      obtain ⟨hok, hstep⟩ := h₁.addPq hp hx'
      refine ⟨hok.frame rfl rfl (fun _ hq => hq) rfl, ?_⟩
      cases hstep with
      | keep hkeep =>
        refine .keep fun u b hb => ?_
        have hk := hkeep u b hb
        simp only [List.filterMap_append, pending_append, LevelCall.packets, claims_cons,
          claims_nil, hc] at hk ⊢
        exact hk
      | @merge p e n hmerge hle hge hheld hkeep =>
        have hpe : Cache.mergingPq W.lower c
            (Cache.prefetchPacket W.lower env cpu ip pfAddr fill metadata) = some (p, e) := hmerge
        have hmerge' : c.merging W.lower env (.prefetchLine cpu ip pfAddr fill metadata) =
            some (p, e) := by
          rw [Cache.merging, if_pos hlen, hpe]
        refine .merge n hmerge' hle hge hheld fun u b hb => ?_
        have hk := hkeep u b hb
        simp only [List.filterMap_append, pending_append, LevelCall.packets, claims_cons,
          claims_nil, hc] at hk ⊢
        exact hk
      | full hfull _ _ =>
        simp only [Cache.refuses, Bool.and_eq_true, beq_iff_eq] at hfull
        exact absurd hfull.2 hlen.ne
  · cases hs
    exact ⟨h.frame rfl rfl (fun _ hq => hq) rfl, .frame rfl rfl rfl rfl rfl⟩

/-- The entry that is due is given up, and what reports it answers its cache. -/
theorem LowerOk.release (h : W.LowerOk c) {p : Packet} (hd : Cache.Due W.lower env c p)
    {k : ℕ} (hrq : c'.rq = c.rq) (hpq : c'.pq = c.pq) (hwq : c'.wq = c.wq)
    (hm : c'.mshr = c.mshr.remove k c.mshr.nextFillIndex) (hok : MshrOk W.lower c')
    (hevs : ∀ u b, W.pending u b (evs.filterMap Event.above) = W.claim u b p) :
    W.LowerOk c' ∧ W.LowerStep env c .handleFill c' evs := by
  obtain ⟨hi, he, _⟩ := hd.completed h.mshr.ok
  refine ⟨⟨hok, hrq ▸ h.rq, hrq ▸ h.rqNodup, hpq ▸ h.pq, hwq ▸ h.wq, ?_⟩, .keep fun u b hb => ?_⟩
  · show Entries W c'.mshr
    rw [hm]
    exact Entries.remove h.entry
  · have hr := claims_remove (W := W) (u := u) (b := b) (k := k) hi he hb
    rw [held, held, hrq, hpq, hm, hevs]
    simp only [LevelCall.packets, claims_nil]
    omega

/-- `handle_fill`. -/
theorem LowerOk.handleFill (h : W.LowerOk c)
    (hs : c.act W.lower env .handleFill = some (c', evs)) :
    W.LowerOk c' ∧ W.LowerStep env c .handleFill c' evs := by
  have hstep := Cache.handleFill_cases hs
  have hok := h.mshr.fillStep hstep
  cases hstep with
  | idle => exact ⟨h, .frame rfl rfl rfl rfl rfl⟩
  | bypass hd _ => exact h.release hd rfl rfl rfl rfl hok fun u b => pending_answer
  | fill hd hv =>
    refine h.release hd rfl rfl rfl rfl hok fun u b => ?_
    simp only [Cache.fillWay, List.filterMap_append, hv.above, above_finishEvents,
      List.nil_append, List.append_nil, pending_answer]
    exact claim_congr request_withMetadata

/-- `handle_writeback` answers nobody. -/
theorem LowerOk.handleWriteback (h : W.LowerOk c)
    (hs : c.act W.lower env .handleWriteback = some (c', evs)) :
    W.LowerOk c' ∧ W.LowerStep env c .handleWriteback c' evs := by
  have hquiet {p : Packet} {n : Packet} {rest : List Packet} (hq : c.wq = p :: rest)
      (hn : n.request = p.request) :
      (Cache.answer W.lower n).filterMap Event.above = [] := by
    simp only [Packet.request, Prod.mk.injEq] at hn
    have hf : W.lower.fillLevel ≤ n.fillLevel := hn.2.2.2.1 ▸ h.wq p (hq ▸ by simp)
    rw [Cache.answer, if_neg (not_lt.2 hf)]
    rfl
  cases Cache.handleWriteback_cases hs with
  | idle => exact ⟨h.frame rfl rfl (fun _ hq => hq) rfl, .frame rfl rfl rfl rfl rfl⟩
  | hit hq _ =>
    refine ⟨h.frame rfl rfl (fun q hq' => hq ▸ List.mem_cons_of_mem _ hq') rfl,
      .frame rfl rfl rfl rfl ?_⟩
    exact hquiet hq request_withTranslation
  | rfoNew _ ht _ _ _ => exact absurd ht W.lower_ne_l1d
  | rfoMerge _ _ ht _ _ => exact absurd ht W.lower_ne_l1d
  | fill hq _ _ _ hv =>
    refine ⟨h.frame rfl rfl (fun q hq' => hq ▸ List.mem_cons_of_mem _ hq') rfl,
      .frame rfl rfl rfl rfl ?_⟩
    rw [List.filterMap_append, hv.above, hquiet hq request_withMetadata]
    rfl

/-- A miss goes from a queue to the table, whether it is answered at once or not. -/
theorem claims_newRead {p : Packet} {rest : List Packet} {u : U} {b : Addr} (h : W.LowerOk c)
    (hlt : c.mshr.occupancy < W.lower.mshrSize) (hn : Cache.NewRead env c p rest c')
    (hb : b ≠ 0) :
    W.claims u b c'.mshr.entry = W.claims u b c.mshr.entry + W.claim u b p := by
  have hadd := claims_addMshr (W := W) (u := u) (p := Cache.stamped env p) h.mshr.ok
    (h.mshr.size ▸ hlt) hb
  rw [claim_congr request_stamped] at hadd
  rcases hn.mshr with hm | ⟨i, e, q, due, hf, hm⟩
  · rw [hm, hadd]
  · rw [hm, claims_complete hf, hadd]

/-- A round of `handle_read`. -/
theorem LowerOk.readOne (h : W.LowerOk c) (hs : c.act W.lower env .readOne = some (c', evs)) :
    W.LowerOk c' ∧ W.LowerStep env c .readOne c' evs := by
  rcases Cache.readOne_ready hs with ⟨rfl, rfl⟩ | ⟨p₀, rest₀, hq₀, hready⟩
  · exact ⟨h, .frame rfl rfl rfl rfl rfl⟩
  have hstep := Cache.readOne_cases hs
  have hok := h.mshr.readStep hstep
  have hnodup {p : Packet} {rest : List Packet} (hq : c.rq = p :: rest) :
      (rest.map (·.address)).Nodup := by
    have hn := h.rqNodup
    rw [hq, List.map_cons] at hn
    exact hn.of_cons
  have hrest {p : Packet} {rest : List Packet} (hq : c.rq = p :: rest) :
      ∀ q ∈ rest, q.address ≠ 0 ∧ W.Demand q :=
    fun q hq' => h.rq q (hq ▸ List.mem_cons_of_mem _ hq')
  cases hstep with
  | idle => exact ⟨h.frame rfl rfl (fun _ hq => hq) rfl, .frame rfl rfl rfl rfl rfl⟩
  | @hit p rest way buffer hq hh =>
    refine ⟨⟨hok, hrest hq, hnodup hq, h.pq, h.wq, h.entry⟩, .keep fun u b _ => ?_⟩
    simp only [Cache.readHit, List.filterMap_append, above_finishEvents, List.nil_append,
      pending_answer, LevelCall.packets, claims_nil, held, hq, claims_cons, Cache.popRq]
    rw [claim_congr request_withTranslation]
    omega
  | @new p rest buffer c' evs hq hh ha hlt hn =>
    obtain ⟨hn, hevs⟩ := Cache.readNew_cases hn
    have hb : W.LowerOk { c with pageBuffer := buffer } :=
      h.frame rfl rfl (fun _ hq => hq) rfl
    have hp : W.Demand p := (h.rq p (hq ▸ by simp)).2
    constructor
    · refine ⟨hok, hn.rq ▸ hrest hq, hn.rq ▸ hnodup hq, hn.pq ▸ h.pq, hn.wq ▸ h.wq, ?_⟩
      show Entries W c'.mshr
      have hadd : Entries W (c.mshr.addMshr (Cache.stamped env p)) :=
        Entries.addMshr h.entry (.inl (hp.congr rfl))
      rcases hn.mshr with hm | ⟨i, e, q, due, hf, hm⟩
      · rw [hm]
        exact hadd
      · rw [hm]
        exact hadd.complete hf
    · refine .keep fun u b h0 => ?_
      have hc : W.claims u b c'.mshr.entry = W.claims u b c.mshr.entry + W.claim u b p :=
        claims_newRead (c := { c with pageBuffer := buffer }) hb hlt hn h0
      simp only [hevs, pending_nil, LevelCall.packets, claims_nil, held, hq, hn.rq, hn.pq,
        claims_cons]
      show _ + W.claims u b c.pq + _ + _ = _
      omega
  | @merge p rest i e buffer hq hh hf =>
    obtain ⟨hi, _, ha⟩ := Mshr.checkMshr_some hf
    obtain ⟨rfl, rfl⟩ := List.cons.inj (hq₀.symm.trans hq)
    obtain ⟨h0, hp⟩ := h.rq p₀ (hq ▸ by simp)
    have he := h.entry e (Mshr.mem_of_checkMshr hf) (ha ▸ h0)
    have hmerge : c.merging W.lower env .readOne = some (p₀, e) :=
      Cache.mergingHead_eq hq hready hh hf
    constructor
    · refine ⟨hok, hrest hq, hnodup hq, h.pq, h.wq, ?_⟩
      exact Entries.set h.entry (fun _ => Entries.mergedRead hp he) rfl
    · refine .merge (Cache.mergedRead p₀ e) hmerge (fun _ u b => claim_mergedRead_le he)
        (fun hl u b => le_claim_mergedRead hp ha he hl)
        (fun u b => claim_le_held (.inr (.inr (List.mem_set hi _)))) fun u b _ => ?_
      have hu := claims_update (W := W) (u := u) (b := b) (p := Cache.mergedRead p₀ e) hf
      simp only [List.filterMap_nil, pending_nil, LevelCall.packets, claims_nil, held, hq,
        claims_cons, Cache.readMerge, Cache.popRq]
      omega

/-- A round of `handle_prefetch`. -/
theorem LowerOk.prefetchOne (h : W.LowerOk c)
    (hs : c.act W.lower env .prefetchOne = some (c', evs)) :
    W.LowerOk c' ∧ W.LowerStep env c .prefetchOne c' evs := by
  rcases Cache.prefetchOne_ready hs with ⟨rfl, rfl⟩ | ⟨p₀, rest₀, hq₀, hready⟩
  · exact ⟨h, .frame rfl rfl rfl rfl rfl⟩
  have hstep := Cache.prefetchOne_cases hs
  have hok := h.mshr.prefetchStep hstep
  have hrest {p : Packet} {rest : List Packet} (hq : c.pq = p :: rest) :
      ∀ q ∈ rest, q.address ≠ 0 ∧ W.Prefetch q :=
    fun q hq' => h.pq q (hq ▸ List.mem_cons_of_mem _ hq')
  cases hstep with
  | idle => exact ⟨h.frame rfl rfl (fun _ hq => hq) rfl, .frame rfl rfl rfl rfl rfl⟩
  | @hit p rest way buffer hq hh =>
    refine ⟨⟨hok, h.rq, h.rqNodup, hrest hq, h.wq, h.entry⟩, .keep fun u b _ => ?_⟩
    simp only [Cache.prefetchHit, pending_answer, LevelCall.packets, claims_nil, held, hq,
      claims_cons, Cache.popPq]
    rw [claim_congr request_prefetchOperated]
    omega
  | @new p rest buffer hq hh ha hlt hlow hfull =>
    have hp : W.Prefetch p := (h.pq p (hq ▸ by simp)).2
    have hpo : (Cache.stamped env (Cache.prefetchOperated W.lower env p)).request = p.request :=
      request_stamped.trans request_prefetchOperated
    have habove {q : Packet} :
        [Cache.lowerAddPrefetch W.lower q].filterMap Event.above = [] := by
      rw [Cache.lowerAddPrefetch]
      split <;> rfl
    simp only [Cache.prefetchNew] at hok ⊢
    split at hok
    · rename_i hfill
      simp only [if_pos hfill]
      refine ⟨⟨hok, h.rq, h.rqNodup, hrest hq, h.wq, ?_⟩, .keep fun u b h0 => ?_⟩
      · exact Entries.addMshr h.entry (.inr (hp.congr hpo.symm))
      · have hadd := claims_addMshr (W := W) (u := u)
          (p := Cache.stamped env (Cache.prefetchOperated W.lower env p)) h.mshr.ok
          (h.mshr.size ▸ hlt) h0
        rw [claim_congr hpo] at hadd
        simp only [habove, pending_nil, LevelCall.packets, claims_nil, held, hq, claims_cons,
          Cache.popPq, hadd]
        omega
    · rename_i hfill
      simp only [if_neg hfill]
      refine ⟨⟨hok, h.rq, h.rqNodup, hrest hq, h.wq, h.entry⟩, .keep fun u b h0 => ?_⟩
      have hc : W.claim u b p = 0 := by
        have hro : (Cache.prefetchOperated W.lower env p).request = p.request :=
          request_prefetchOperated
        rw [← claim_congr hro]
        exact claim_of_fill (not_le.1 hfill).le
      simp only [habove, pending_nil, LevelCall.packets, claims_nil, held, hq, claims_cons,
        Cache.popPq, hc]
      omega
  | drop hq hlow =>
    have hp := (h.pq _ (hq ▸ List.mem_cons_self)).2.2.2.2
    rw [W.lower_isTlb hlow] at hp
    cases hp
  | @merge p rest i e buffer hq hh hf =>
    obtain ⟨hi, _, ha⟩ := Mshr.checkMshr_some hf
    obtain ⟨rfl, rfl⟩ := List.cons.inj (hq₀.symm.trans hq)
    obtain ⟨h0, hp⟩ := h.pq p₀ (hq ▸ by simp)
    have he := h.entry e (Mshr.mem_of_checkMshr hf) (ha ▸ h0)
    have hmerge : c.merging W.lower env .prefetchOne = some (p₀, e) :=
      Cache.mergingHead_eq hq hready hh hf
    constructor
    · refine ⟨hok, h.rq, h.rqNodup, hrest hq, h.wq, ?_⟩
      exact Entries.set h.entry (fun _ => Entries.lowerFillLevel he) rfl
    · refine .merge (Cache.lowerFillLevel p₀ e) hmerge
        (fun hl u b => claim_lowerFillLevel_le ha hl) (fun hl u b => le_claim_lowerFillLevel ha hl)
        (fun u b => claim_le_held (.inr (.inr (List.mem_set hi _)))) fun u b _ => ?_
      have hu := claims_update (W := W) (u := u) (b := b) (p := Cache.lowerFillLevel p₀ e) hf
      simp only [List.filterMap_nil, pending_nil, LevelCall.packets, claims_nil, held, hq,
        claims_cons, Cache.popPq]
      omega

/-- The answer to a miss of the lower cache. -/
theorem LowerOk.returnData (h : W.LowerOk c) {p : Packet}
    (hin : c.mshr.inflight p.address = true)
    (hs : c.act W.lower env (.returnData p) = some (c', evs)) :
    W.LowerOk c' ∧ W.LowerStep env c (.returnData p) c' evs := by
  obtain ⟨c₁, hx, he⟩ := Option.map_eq_some_iff.1 hs
  cases he
  have hok := h.mshr.returnData hin hx
  simp only [Cache.returnData] at hx
  split at hx
  · cases hx
  · rename_i i e hf
    cases hx
    refine ⟨⟨hok, h.rq, h.rqNodup, h.pq, h.wq, Entries.complete h.entry hf⟩,
      .keep fun u b _ => ?_⟩
    simp only [List.filterMap_nil, pending_nil, LevelCall.packets, claims_nil, held,
      claims_complete hf]

/-- `add_wq`. -/
theorem LowerOk.addWq (h : W.LowerOk c) {p : Packet} (hp : W.lower.fillLevel ≤ p.fillLevel)
    (hs : c.act W.lower env (.addWq p) = some (c', evs)) :
    W.LowerOk c' ∧ W.LowerStep env c (.addWq p) c' evs := by
  obtain ⟨r, evs', hx, rfl⟩ := Cache.replied_some hs
  obtain ⟨hstep, rfl⟩ := Cache.addWq_cases hx
  cases hstep with
  | merge _ => exact ⟨h, .frame rfl rfl rfl rfl rfl⟩
  | append _ _ =>
    refine ⟨⟨h.mshr.frame rfl, h.rq, h.rqNodup, h.pq, fun q hq => ?_, h.entry⟩,
      .frame rfl rfl rfl rfl rfl⟩
    rcases List.mem_append.1 hq with hq | hq
    · exact h.wq q hq
    · rw [List.mem_singleton.1 hq]
      exact hp

end

section
variable {U : Type} {W : Wiring U} {env : Env} {c c' : Cache} {evs : List Event}

/-- The answers of a step are none, or one to a request that asks for it. -/
def Answers (W : Wiring U) (evs : List Event) : Prop :=
  evs.filterMap Event.above = [] ∨ ∃ p : Packet, p.address ≠ 0 ∧
    p.fillLevel < W.lower.fillLevel ∧ evs.filterMap Event.above = [.above p]

/-- An answer to a request for a line. -/
theorem answers_answer {p q : Packet} (h0 : p.address ≠ 0) (hq : q.request = p.request) :
    Answers W (Cache.answer W.lower q) := by
  have hqa : q.address = p.address := congrArg Prod.fst hq
  rw [Answers, Cache.answer]
  split
  · exact .inr ⟨q, hqa ▸ h0, ‹_›, rfl⟩
  · exact .inl rfl

theorem Answers.congr {evs' : List Event} (h : Answers W evs)
    (he : evs'.filterMap Event.above = evs.filterMap Event.above) : Answers W evs' := by
  rwa [Answers, he]

/-- A request of the caches below is not answered. -/
theorem answer_quiet {p q : Packet} (hf : W.lower.fillLevel ≤ p.fillLevel)
    (hq : q.request = p.request) : Cache.answer W.lower q = [] := by
  simp only [Packet.request, Prod.mk.injEq] at hq
  rw [Cache.answer, if_neg (not_lt.2 (hq.2.2.2.1 ▸ hf))]

theorem answers_addRq {p : Packet} (h0 : p.address ≠ 0)
    (hs : c.act W.lower env (.addRq p) = some (c', evs)) : Answers W evs := by
  obtain ⟨r, evs', hx, rfl⟩ := Cache.replied_some hs
  cases Cache.addRq_cases hx with
  | @forward i w _ _ =>
    have hok : Answers W (Cache.answer W.lower (Cache.forwarded W.lower w p)) :=
      answers_answer h0 request_forwarded
    refine hok.congr ?_
    simp only [List.filterMap_append, above_finishEvents, List.append_nil]
    exact List.append_nil _
  | merge _ _ => exact .inl rfl
  | full _ _ _ => exact .inl rfl
  | append _ _ _ _ => exact .inl rfl

theorem answers_addPq {p : Packet} (h0 : p.address ≠ 0)
    (hs : c.act W.lower env (.addPq p) = some (c', evs)) : Answers W evs := by
  obtain ⟨r, evs', hx, rfl⟩ := Cache.replied_some hs
  cases Cache.addPq_cases hx with
  | @forward i w _ =>
    have hok : Answers W (Cache.answer W.lower (Cache.forwarded W.lower w p)) :=
      answers_answer h0 request_forwarded
    refine hok.congr ?_
    rw [List.filterMap_append]
    exact List.append_nil _
  | merge _ _ => exact .inl rfl
  | full _ _ _ => exact .inl rfl
  | append _ _ _ _ => exact .inl rfl

theorem answers_prefetchLine {cpu : ℕ} {ip pfAddr : UInt64} {fill : Int}
    {metadata : UInt32}
    (hfill : W.lower.fillLevel ≤ fill)
    (hs : c.act W.lower env (.prefetchLine cpu ip pfAddr fill metadata) = some (c', evs)) :
    Answers W evs := by
  simp only [Cache.act, Cache.prefetchLine] at hs
  split at hs
  · split at hs
    · cases hs
    · rename_i hx
      cases hs
      cases Cache.addPq_cases hx with
      | forward _ =>
        have hp : W.lower.fillLevel ≤
            (Cache.prefetchPacket W.lower env cpu ip pfAddr fill metadata).fillLevel := hfill
        rw [answer_quiet hp request_forwarded]
        exact .inl rfl
      | merge _ _ => exact .inl rfl
      | full _ _ _ => exact .inl rfl
      | append _ _ _ _ => exact .inl rfl
  · cases hs
    exact .inl rfl

/-- A packet that is due asks for a line. -/
theorem LowerOk.address_ne_zero_of_due (h : W.LowerOk c) {p : Packet}
    (hd : Cache.Due W.lower env c p) : p.address ≠ 0 := by
  obtain ⟨hi, he, hc⟩ := hd.completed h.mshr.ok
  exact h.mshr.ok.address_ne_zero_of_returned (he ▸ List.getElem_mem hi) (by simp [hc])

theorem LowerOk.answers_handleFill (h : W.LowerOk c)
    (hs : c.act W.lower env .handleFill = some (c', evs)) : Answers W evs := by
  cases Cache.handleFill_cases hs with
  | idle => exact .inl rfl
  | bypass hd _ => exact answers_answer (h.address_ne_zero_of_due hd) rfl
  | @fill p _ _ hd hv =>
    have hok : Answers W (Cache.answer W.lower (Cache.withMetadata W.lower env p)) :=
      answers_answer (h.address_ne_zero_of_due hd) request_withMetadata
    refine hok.congr ?_
    simp only [Cache.fillWay, List.filterMap_append, hv.above, above_finishEvents,
      List.nil_append, List.append_nil]

theorem LowerOk.answers_handleWriteback (h : W.LowerOk c)
    (hs : c.act W.lower env .handleWriteback = some (c', evs)) : Answers W evs := by
  cases Cache.handleWriteback_cases hs with
  | idle => exact .inl rfl
  | hit hq _ =>
    simp only [Cache.writebackHit, answer_quiet (h.wq _ (hq ▸ List.mem_cons_self))
      request_withTranslation]
    exact .inl rfl
  | rfoNew _ ht _ _ _ => exact absurd ht W.lower_ne_l1d
  | rfoMerge _ _ ht _ _ => exact absurd ht W.lower_ne_l1d
  | fill hq _ _ _ hv =>
    refine .inl ?_
    rw [List.filterMap_append, hv.above, answer_quiet (h.wq _ (hq ▸ List.mem_cons_self))
      request_withMetadata]
    rfl

theorem LowerOk.answers_readOne (h : W.LowerOk c)
    (hs : c.act W.lower env .readOne = some (c', evs)) : Answers W evs := by
  cases Cache.readOne_cases hs with
  | idle => exact .inl rfl
  | @hit p _ way _ hq _ =>
    have h0 : p.address ≠ 0 := (h.rq p (hq ▸ List.mem_cons_self)).1
    have hok : Answers W (Cache.answer W.lower (Cache.withTranslation W.lower
        (c.block (W.lower.getSet p.address) way) p)) :=
      answers_answer h0 request_withTranslation
    refine hok.congr ?_
    simp only [Cache.readHit, List.filterMap_append, above_finishEvents, List.nil_append]
  | new _ _ _ _ hn => exact .inl (Cache.readNew_cases hn).2
  | merge _ _ _ => exact .inl rfl

theorem LowerOk.answers_prefetchOne (h : W.LowerOk c)
    (hs : c.act W.lower env .prefetchOne = some (c', evs)) : Answers W evs := by
  cases Cache.prefetchOne_cases hs with
  | idle => exact .inl rfl
  | @hit p _ _ _ hq _ =>
    have h0 : p.address ≠ 0 := (h.pq p (hq ▸ List.mem_cons_self)).1
    exact answers_answer h0 request_prefetchOperated
  | new _ _ _ _ _ _ =>
    refine .inl ?_
    simp only [Cache.prefetchNew, Cache.lowerAddPrefetch]
    split_ifs <;> rfl
  | drop _ _ => exact .inl rfl
  | merge _ _ _ => exact .inl rfl

/-- A step of the lower cache makes at most one call up. -/
theorem LowerOk.answers (h : W.LowerOk c) {a : Action} (hm : W.LowerMay c a)
    (hs : c.act W.lower env a = some (c', evs)) : Answers W evs := by
  cases a with
  | addRq p => exact answers_addRq hm.1 hs
  | addWq p =>
    obtain ⟨r, evs', hx, rfl⟩ := Cache.replied_some hs
    obtain ⟨_, rfl⟩ := Cache.addWq_cases hx
    exact .inl rfl
  | addPq p => exact answers_addPq hm.1 hs
  | prefetchLine cpu ip pfAddr fill metadata => exact answers_prefetchLine hm.2.1 hs
  | returnData p =>
    obtain ⟨c₁, hx, he⟩ := Option.map_eq_some_iff.1 hs
    cases he
    exact .inl rfl
  | invalidateEntry a =>
    cases hs
    exact .inl rfl
  | updateRob cpu =>
    cases hs
    exact .inl rfl
  | handleFill => exact h.answers_handleFill hs
  | handleWriteback => exact h.answers_handleWriteback hs
  | startReads =>
    cases hs
    exact .inl rfl
  | readOne => exact h.answers_readOne hs
  | prefetchOne => exact h.answers_prefetchOne hs

end

section
variable {U : Type} [DecidableEq U] {W : Wiring U} {env : Env} {c c' : Cache} {evs : List Event}

/-- Every step of the lower cache keeps its invariant and moves the requests as it may. -/
theorem LowerOk.act (h : W.LowerOk c) {a : Action} (hm : W.LowerMay c a)
    (hs : c.act W.lower env a = some (c', evs)) :
    W.LowerOk c' ∧ W.LowerStep env c a c' evs := by
  cases a with
  | addRq p => exact h.addRq hm.2 hs
  | addWq p => exact h.addWq hm hs
  | addPq p => exact h.addPq hm.2 hs
  | prefetchLine cpu ip pfAddr fill metadata => exact h.prefetchLine hm hs
  | returnData p => exact h.returnData hm hs
  | invalidateEntry a =>
    cases hs
    rw [Cache.invalidateEntry]
    split
    · exact ⟨h, .frame rfl rfl rfl rfl rfl⟩
    · exact ⟨h.frame rfl rfl (fun _ hq => hq) rfl, .frame rfl rfl rfl rfl rfl⟩
  | updateRob cpu =>
    cases hs
    rw [Cache.updateRob]
    split
    · exact ⟨h, .frame rfl rfl rfl rfl rfl⟩
    · split
      · exact ⟨h.frame rfl rfl (fun _ hq => hq) rfl, .frame rfl rfl rfl rfl rfl⟩
      · exact ⟨h, .frame rfl rfl rfl rfl rfl⟩
  | handleFill => exact h.handleFill hs
  | handleWriteback => exact h.handleWriteback hs
  | startReads =>
    cases hs
    exact ⟨h.frame rfl rfl (fun _ hq => hq) rfl, .frame rfl rfl rfl rfl rfl⟩
  | readOne => exact h.readOne hs
  | prefetchOne => exact h.prefetchOne hs

end

end Wiring

end Arishem
