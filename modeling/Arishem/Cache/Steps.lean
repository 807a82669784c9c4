import Arishem.Cache.Handlers

/-!
# What a step can do

For each function of the cache the list of its outcomes, with the guards that lead to them and the
state they leave. The invariants of the later modules are proved by cases on these outcomes and
never look into the functions again. An outcome `idle` stands for all the branches that leave the
queues, the blocks and the MSHR table alone: nothing is ready, or a resource is missing.
-/

namespace Arishem

namespace Cache

section
variable (cfg : Config) (env : Env) (c : Cache)

/-- The outcomes of `add_rq`. -/
inductive RqStep (p : Packet) : Reply → Cache → List Event → Prop
  | forward {i : ℕ} {w : Packet} : checkWq cfg p c.wq = some (i, w) → noForward cfg = false →
      RqStep p .accepted { c with processed := finish cfg (forwarded cfg w p) c.processed }
        (answer cfg (forwarded cfg w p) ++ finishEvents cfg (forwarded cfg w p) c.processed)
  | merge {i : ℕ} {e : Packet} : checkWq cfg p c.wq = none →
      checkQueue p.address c.rq = some (i, e) →
      RqStep p .merged { c with rq := c.rq.set i (mergeConsumer p e) } []
  | full : checkWq cfg p c.wq = none → checkQueue p.address c.rq = none →
      c.rq.length = cfg.rqSize → RqStep p .full c []
  | append : checkWq cfg p c.wq = none → checkQueue p.address c.rq = none →
      c.rq.length ≠ cfg.rqSize → p.address ≠ 0 →
      RqStep p .accepted { c with rq := c.rq ++ [enqueued cfg env p] } []

/-- The outcomes of `add_wq`. -/
inductive WqStep (p : Packet) : Reply → Cache → Prop
  | merge {r : ℕ × Packet} : checkWq cfg p c.wq = some r → WqStep p .merged c
  | append : checkWq cfg p c.wq = none → c.wq.length < cfg.wqSize →
      WqStep p .accepted { c with wq := c.wq ++ [enqueued cfg env p] }

/-- The outcomes of `add_pq`. -/
inductive PqStep (p : Packet) : Reply → Cache → List Event → Prop
  | forward {i : ℕ} {w : Packet} : checkWq cfg p c.wq = some (i, w) →
      PqStep p .accepted c (answer cfg (forwarded cfg w p))
  | merge {i : ℕ} {e : Packet} : checkWq cfg p c.wq = none →
      checkQueue p.address c.pq = some (i, e) →
      PqStep p .merged { c with pq := c.pq.set i (lowerFillLevel p e) } []
  | full : checkWq cfg p c.wq = none → checkQueue p.address c.pq = none →
      c.pq.length = cfg.pqSize → PqStep p .full c []
  | append : checkWq cfg p c.wq = none → checkQueue p.address c.pq = none →
      c.pq.length ≠ cfg.pqSize → p.address ≠ 0 →
      PqStep p .accepted { c with pq := c.pq ++ [enqueued cfg env p] } []

/-- The MSHR entry `p` at `next_fill_index` is due. -/
structure Due (p : Packet) : Prop where
  next : c.mshr.nextFill = some p
  cpu : p.cpu ≠ cfg.numCpus
  cycle : c.mshr.nextFillCycle ≤ env.cycle p.cpu

/-- The victim of the packet `p` is way `way`, and its eviction makes the calls `evs`. -/
structure Victim (p : Packet) (way : ℕ) (evs : List Event) : Prop where
  found : c.findVictim cfg env (cfg.getSet p.address) = some way
  cached : ¬ (cfg.cacheType = .llc ∧ way = cfg.numWay)
  evicted : ∃ v, c.evict cfg env (cfg.getSet p.address) way p = some v ∧ v.events = some evs
  data : fillRefused cfg (withMetadata cfg env p) = false

/-- The outcomes of `handle_fill`. -/
inductive FillStep : Cache → List Event → Prop
  | idle : FillStep c []
  | bypass {p : Packet} : Due cfg env c p → cfg.cacheType = .llc →
      FillStep (c.releaseMshr cfg env c.mshr.nextFillIndex p) (answer cfg p)
  | fill {p : Packet} {way : ℕ} {evs : List Event} : Due cfg env c p →
      Victim cfg env c p way evs →
      FillStep
        (c.fillWay cfg env c.mshr.nextFillIndex (cfg.getSet p.address) way
          (withMetadata cfg env p)).1
        (evs ++ (c.fillWay cfg env c.mshr.nextFillIndex (cfg.getSet p.address) way
          (withMetadata cfg env p)).2)

/-- The outcomes of `handle_writeback`. -/
inductive WritebackStep : Cache → List Event → Prop
  | idle {buffer : List UInt64} : WritebackStep { c with pageBuffer := buffer } []
  | hit {p : Packet} {rest : List Packet} {way : ℕ} {buffer : List UInt64} : c.wq = p :: rest →
      c.checkHit cfg p = (some way, buffer) →
      WritebackStep ({ c with pageBuffer := buffer }.writebackHit cfg way p rest).1
        ({ c with pageBuffer := buffer }.writebackHit cfg way p rest).2
  | rfoNew {p : Packet} {rest : List Packet} {buffer : List UInt64} : c.wq = p :: rest →
      cfg.cacheType = .l1d → c.checkHit cfg p = (none, buffer) →
      c.mshr.checkMshr p.address = none → c.mshr.occupancy < cfg.mshrSize →
      WritebackStep
        { c with pageBuffer := buffer, mshr := c.mshr.addMshr (stamped env p), wq := rest }
        [.lowerAddRq (stamped env p)]
  | rfoMerge {p : Packet} {rest : List Packet} {i : ℕ} {e : Packet} {buffer : List UInt64} :
      c.wq = p :: rest → p.eventCycle ≤ env.cycle p.cpu → cfg.cacheType = .l1d →
      c.checkHit cfg p = (none, buffer) → c.mshr.checkMshr p.address = some (i, e) →
      WritebackStep
        { c with pageBuffer := buffer, mshr := c.mshr.update i (mergedRfo p e), wq := rest } []
  | fill {p : Packet} {rest : List Packet} {way : ℕ} {buffer : List UInt64} {evs : List Event} :
      c.wq = p :: rest → p.eventCycle ≤ env.cycle p.cpu → cfg.cacheType ≠ .l1d →
      c.checkHit cfg p = (none, buffer) →
      Victim cfg env { c with pageBuffer := buffer } p way evs →
      WritebackStep
        ({ c with pageBuffer := buffer }.writebackWay cfg (cfg.getSet p.address) way
          (withMetadata cfg env p) rest)
        (evs ++ answer cfg (withMetadata cfg env p))

/-- The outcomes of one round of `handle_read`. -/
inductive ReadStep : Cache → List Event → Prop
  | idle {buffer : List UInt64} : ReadStep { c with pageBuffer := buffer } []
  | hit {p : Packet} {rest : List Packet} {way : ℕ} {buffer : List UInt64} : c.rq = p :: rest →
      c.checkHit cfg p = (some way, buffer) →
      ReadStep ({ c with pageBuffer := buffer }.readHit cfg way p rest).1
        ({ c with pageBuffer := buffer }.readHit cfg way p rest).2
  | new {p : Packet} {rest : List Packet} {buffer : List UInt64} {c' : Cache} {evs : List Event} :
      c.rq = p :: rest → c.checkHit cfg p = (none, buffer) →
      c.mshr.checkMshr p.address = none → c.mshr.occupancy < cfg.mshrSize →
      ({ c with pageBuffer := buffer }.readNew cfg env p rest) = some (c', evs) →
      ReadStep c' evs
  | merge {p : Packet} {rest : List Packet} {i : ℕ} {e : Packet} {buffer : List UInt64} :
      c.rq = p :: rest → c.checkHit cfg p = (none, buffer) →
      c.mshr.checkMshr p.address = some (i, e) →
      ReadStep ({ c with pageBuffer := buffer }.readMerge i e p rest) []

/-- The outcomes of one round of `handle_prefetch`. -/
inductive PrefetchStep : Cache → List Event → Prop
  | idle {buffer : List UInt64} : PrefetchStep { c with pageBuffer := buffer } []
  | hit {p : Packet} {rest : List Packet} {way : ℕ} {buffer : List UInt64} : c.pq = p :: rest →
      c.checkHit cfg p = (some way, buffer) →
      PrefetchStep ({ c with pageBuffer := buffer }.prefetchHit cfg env way p rest).1
        ({ c with pageBuffer := buffer }.prefetchHit cfg env way p rest).2
  | new {p : Packet} {rest : List Packet} {buffer : List UInt64} :
      c.pq = p :: rest → c.checkHit cfg p = (none, buffer) →
      c.mshr.checkMshr p.address = none → c.mshr.occupancy < cfg.mshrSize →
      cfg.hasLower = true → env.lowerFull (lowerPrefetchQueue cfg) p.address = false →
      PrefetchStep ({ c with pageBuffer := buffer }.prefetchNew cfg env p rest).1
        ({ c with pageBuffer := buffer }.prefetchNew cfg env p rest).2
  | drop {p : Packet} {rest : List Packet} {buffer : List UInt64} :
      c.pq = p :: rest → cfg.hasLower = false →
      PrefetchStep ({ c with pageBuffer := buffer }.popPq rest) []
  | merge {p : Packet} {rest : List Packet} {i : ℕ} {e : Packet} {buffer : List UInt64} :
      c.pq = p :: rest → c.checkHit cfg p = (none, buffer) →
      c.mshr.checkMshr p.address = some (i, e) →
      PrefetchStep
        { c.popPq rest with
          pageBuffer := buffer, mshr := c.mshr.update i (lowerFillLevel p e) } []

end

section
variable {cfg : Config} {env : Env} {c c' : Cache} {evs : List Event}

/-- `add_rq` has one of its outcomes. -/
theorem addRq_cases {p : Packet} {r : Reply} (h : c.addRq cfg env p = some (r, c', evs)) :
    RqStep cfg env c p r c' evs := by
  rw [addRq] at h
  cases hw : checkWq cfg p c.wq with
  | some iw =>
    obtain ⟨i, w⟩ := iw
    simp only [hw] at h
    split at h
    · cases h
    · cases h
      exact .forward hw (by simpa using ‹¬ noForward cfg = true›)
  | none =>
    simp only [hw] at h
    cases hq : checkQueue p.address c.rq with
    | some ie =>
      simp only [hq] at h
      cases h
      exact .merge hw hq
    | none =>
      simp only [hq] at h
      split at h
      · cases h
        exact .full hw hq ‹_›
      · split at h
        · cases h
        · cases h
          exact .append hw hq ‹_› ‹_›

/-- `add_wq` has one of its outcomes. -/
theorem addWq_cases {p : Packet} {r : Reply} (h : c.addWq cfg env p = some (r, c', evs)) :
    WqStep cfg env c p r c' ∧ evs = [] := by
  rw [addWq] at h
  cases hw : checkWq cfg p c.wq with
  | some iw =>
    simp only [hw] at h
    cases h
    exact ⟨.merge hw, rfl⟩
  | none =>
    simp only [hw] at h
    split at h
    · cases h
    · cases h
      exact ⟨.append hw (by omega), rfl⟩

/-- `add_pq` has one of its outcomes. -/
theorem addPq_cases {p : Packet} {r : Reply} (h : c.addPq cfg env p = some (r, c', evs)) :
    PqStep cfg env c p r c' evs := by
  rw [addPq] at h
  cases hw : checkWq cfg p c.wq with
  | some iw =>
    simp only [hw] at h
    cases h
    exact .forward hw
  | none =>
    simp only [hw] at h
    cases hq : checkQueue p.address c.pq with
    | some ie =>
      simp only [hq] at h
      cases h
      exact .merge hw hq
    | none =>
      simp only [hq] at h
      split at h
      · cases h
        exact .full hw hq ‹_›
      · split at h
        · cases h
        · cases h
          exact .append hw hq ‹_› ‹_›

/-- `handle_fill` on the due entry. -/
theorem fillEntry_cases {p : Packet} (hd : Due cfg env c p)
    (h : c.fillEntry cfg env c.mshr.nextFillIndex p = some (c', evs)) :
    FillStep cfg env c c' evs := by
  rw [fillEntry] at h
  cases hv : c.findVictim cfg env (cfg.getSet p.address) with
  | none => simp only [hv] at h; cases h
  | some way =>
    simp only [hv] at h
    split at h
    · rename_i hb
      cases h
      exact .bypass hd hb.1
    · rename_i hb
      cases he : c.evict cfg env (cfg.getSet p.address) way p with
      | none => simp only [he] at h; cases h
      | some v =>
        simp only [he] at h
        cases hev : v.events with
        | none =>
          simp only [hev] at h
          cases h
          exact .idle
        | some evs' =>
          simp only [hev] at h
          split at h
          · cases h
          · rename_i hr
            cases h
            exact .fill hd ⟨hv, hb, ⟨v, he, hev⟩, by simpa using hr⟩

/-- `handle_fill` has one of its outcomes. -/
theorem handleFill_cases (h : c.handleFill cfg env = some (c', evs)) :
    FillStep cfg env c c' evs := by
  rw [handleFill] at h
  cases hn : c.mshr.nextFill with
  | none =>
    simp only [hn] at h
    cases h
    exact .idle
  | some p =>
    simp only [hn] at h
    split at h
    · cases h
      exact .idle
    · split at h
      · exact fillEntry_cases ⟨hn, ‹_›, ‹_›⟩ h
      · cases h
        exact .idle

/-- The miss branch of `handle_writeback` outside the L1D has one of its outcomes. -/
theorem writebackFill_cases {p : Packet} {rest : List Packet} {buffer : List UInt64}
    (hq : c.wq = p :: rest) (hd : p.eventCycle ≤ env.cycle p.cpu) (ht : cfg.cacheType ≠ .l1d)
    (hh : c.checkHit cfg p = (none, buffer))
    (h : { c with pageBuffer := buffer }.writebackFill cfg env p rest = some (c', evs)) :
    WritebackStep cfg env c c' evs := by
  rw [writebackFill] at h
  cases hv : { c with pageBuffer := buffer }.findVictim cfg env (cfg.getSet p.address) with
  | none => simp only [hv] at h; cases h
  | some way =>
    simp only [hv] at h
    split at h
    · cases h
    · rename_i hb
      cases he : { c with pageBuffer := buffer }.evict cfg env (cfg.getSet p.address) way p with
      | none => simp only [he] at h; cases h
      | some v =>
        simp only [he] at h
        cases hev : v.events with
        | none =>
          simp only [hev] at h
          cases h
          exact .idle
        | some evs' =>
          simp only [hev] at h
          split at h
          · cases h
          · rename_i hr
            cases h
            exact .fill hq hd ht hh ⟨hv, hb, ⟨v, he, hev⟩, by simpa using hr⟩

/-- An RFO miss has one of its outcomes. -/
theorem rfoMiss_cases {p : Packet} {rest : List Packet} {buffer : List UInt64}
    (hq : c.wq = p :: rest) (hd : p.eventCycle ≤ env.cycle p.cpu) (ht : cfg.cacheType = .l1d)
    (hh : c.checkHit cfg p = (none, buffer))
    (h : { c with pageBuffer := buffer }.rfoMiss cfg env p rest = some (c', evs)) :
    WritebackStep cfg env c c' evs := by
  rw [rfoMiss] at h
  cases hm : c.mshr.checkMshr p.address with
  | some ie =>
    simp only [hm] at h
    cases h
    exact .rfoMerge hq hd ht hh hm
  | none =>
    simp only [hm] at h
    split at h
    · cases h
      exact .rfoNew hq ht hh hm ‹_›
    · split at h
      · cases h
        exact .idle
      · cases h

/-- `handle_writeback` has one of its outcomes. -/
theorem handleWriteback_cases (h : c.handleWriteback cfg env = some (c', evs)) :
    WritebackStep cfg env c c' evs := by
  rw [handleWriteback] at h
  cases hq : c.wq with
  | nil =>
    simp only [hq] at h
    cases h
    exact .idle
  | cons p rest =>
    simp only [hq] at h
    split at h
    · cases h
      exact .idle
    · split at h
      · rcases hh : c.checkHit cfg p with ⟨_ | way, buffer⟩
        · simp only [hh] at h
          rw [← hq] at h
          split at h
          · exact rfoMiss_cases hq ‹_› ‹_› hh h
          · exact writebackFill_cases hq ‹_› ‹_› hh h
        · simp only [hh] at h
          cases h
          exact .hit hq hh
      · cases h
        exact .idle

/-- A round of `handle_read` has one of its outcomes. -/
theorem readOne_cases (h : c.readOne cfg env = some (c', evs)) : ReadStep cfg env c c' evs := by
  rw [readOne] at h
  cases hq : c.rq with
  | nil =>
    simp only [hq] at h
    cases h
    exact .idle
  | cons p rest =>
    simp only [hq] at h
    split at h
    · cases h
      exact .idle
    · split at h
      · rcases hh : c.checkHit cfg p with ⟨_ | way, buffer⟩
        · simp only [hh, readMiss] at h
          cases hm : c.mshr.checkMshr p.address with
          | some ie =>
            simp only [hm] at h
            cases h
            exact .merge hq hh hm
          | none =>
            simp only [hm] at h
            rw [← hq] at h
            split at h
            · split at h
              · cases h
                exact .idle
              · exact .new hq hh hm ‹_› h
            · split at h
              · cases h
                exact .idle
              · cases h
        · simp only [hh] at h
          cases h
          exact .hit hq hh
      · cases h
        exact .idle

/-- A round of `handle_prefetch` has one of its outcomes. -/
theorem prefetchOne_cases (h : c.prefetchOne cfg env = some (c', evs)) :
    PrefetchStep cfg env c c' evs := by
  rw [prefetchOne] at h
  cases hq : c.pq with
  | nil =>
    simp only [hq] at h
    cases h
    exact .idle
  | cons p rest =>
    simp only [hq] at h
    split at h
    · cases h
      exact .idle
    · split at h
      · rcases hh : c.checkHit cfg p with ⟨_ | way, buffer⟩
        · simp only [hh, prefetchMiss] at h
          cases hm : c.mshr.checkMshr p.address with
          | some ie =>
            simp only [hm] at h
            cases h
            exact .merge hq hh hm
          | none =>
            simp only [hm] at h
            rw [← hq] at h
            split at h
            · split at h
              · rename_i hocc hlow
                split at h
                · cases h
                  exact .idle
                · rename_i hfull
                  obtain ⟨rfl, rfl⟩ := Prod.mk.injEq .. ▸ Option.some.inj h
                  exact .new hq hh hm hocc hlow (by simpa using hfull)
              · rename_i hlow
                cases h
                exact .drop hq (by simpa using hlow)
            · split at h
              · cases h
                exact .idle
              · cases h
        · simp only [hh] at h
          cases h
          exact .hit hq hh
      · cases h
        exact .idle

@[simp] theorem result_notMem_answer {r : Reply} {p : Packet} :
    Event.result r ∉ answer cfg p := by
  rw [answer]
  split <;> simp

@[simp] theorem result_notMem_finishEvents {r : Reply} {p : Packet} {l : List Packet} :
    Event.result r ∉ finishEvents cfg p l := by
  rw [finishEvents]
  split_ifs <;> simp

/-- A reply comes with a step of the request. -/
theorem replied_some {x : Option (Reply × Cache × List Event)}
    (h : replied x = some (c', evs)) :
    ∃ r evs', x = some (r, c', evs') ∧ evs = evs' ++ [Event.result r] := by
  cases x with
  | none => cases h
  | some x =>
    obtain ⟨r, c₁, evs₁⟩ := x
    rw [replied] at h
    cases h
    exact ⟨r, evs₁, rfl, rfl⟩

end

end Cache

end Arishem
