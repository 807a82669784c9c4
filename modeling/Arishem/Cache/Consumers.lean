import Mathlib.Algebra.Order.BigOperators.Group.List
import Arishem.Cache.Lines

/-!
# Every merged consumer is delivered exactly once

An instruction waits for the ITLB and the L1I under its ROB index, a load for the DTLB and the L1D
under its LQ index, a store for the DTLB under its SQ index. The first request for a line carries
its consumer as the packet's own index; the later ones are recorded in one of three sets, first in
the RQ entry, then in the MSHR entry. The core completes the own index and the sets of each packet
it takes out of `PROCESSED` (`complete_instr_fetch`, `complete_data_fetch`,
`handle_merged_translation`, `handle_merged_load`).

The invariant is a conservation law, kept by each step: how often a consumer was accepted is how
often it was delivered, plus how often it was lost because `PROCESSED` was full, plus whether it
still waits in the RQ or the MSHR table.
-/

namespace Arishem

/-- Who waits for an access: an entry of the ROB, of the load queue or of the store queue. -/
inductive Consumer
  | rob (index : ℕ)
  | lq (index : ℕ)
  | sq (index : ℕ)
  deriving DecidableEq, Repr

/-- How often the core completes a consumer when it takes the packet out of `PROCESSED`. The L1D
does not look at `load_merged`. -/
def completions (cfg : Config) (p : Packet) (x : Consumer) : ℕ :=
  match cfg.cacheType, x with
  | .itlb, .rob n | .l1i, .rob n =>
    (if p.robIndex.toNat = n then 1 else 0) +
      if p.instrMerged = true ∧ n ∈ p.robIndexDependOnMe then 1 else 0
  | .dtlb, .sq n =>
    (if p.type = .rfo ∧ p.sqIndex = n then 1 else 0) +
      if p.storeMerged = true ∧ n ∈ p.sqIndexDependOnMe then 1 else 0
  | .dtlb, .lq n =>
    (if p.type ≠ .rfo ∧ p.lqIndex = n then 1 else 0) +
      if p.loadMerged = true ∧ n ∈ p.lqIndexDependOnMe then 1 else 0
  | .l1d, .lq n =>
    (if p.type ≠ .rfo ∧ p.lqIndex = n then 1 else 0) +
      if n ∈ p.lqIndexDependOnMe then 1 else 0
  | _, _ => 0

/-- Nothing has been merged into the packet. -/
structure Fresh (p : Packet) : Prop where
  instrMerged : p.instrMerged = false
  loadMerged : p.loadMerged = false
  storeMerged : p.storeMerged = false
  rob : p.robIndexDependOnMe = ∅
  lq : p.lqIndexDependOnMe = ∅
  sq : p.sqIndexDependOnMe = ∅

instance (p : Packet) : Decidable (Fresh p) :=
  decidable_of_iff
    (p.instrMerged = false ∧ p.loadMerged = false ∧ p.storeMerged = false ∧
      p.robIndexDependOnMe = ∅ ∧ p.lqIndexDependOnMe = ∅ ∧ p.sqIndexDependOnMe = ∅)
    ⟨fun ⟨h₁, h₂, h₃, h₄, h₅, h₆⟩ => ⟨h₁, h₂, h₃, h₄, h₅, h₆⟩,
      fun h => ⟨h.instrMerged, h.loadMerged, h.storeMerged, h.rob, h.lq, h.sq⟩⟩

/-- A set of consumers is used only under its flag. -/
structure Flagged (p : Packet) : Prop where
  instr : p.instrMerged = false → p.robIndexDependOnMe = ∅
  load : p.loadMerged = false → p.lqIndexDependOnMe = ∅
  store : p.storeMerged = false → p.sqIndexDependOnMe = ∅

/-- The packet is of a kind the core requests from this cache: fetches at the ITLB and L1I,
translations of loads and stores at the DTLB, loads at the L1D. -/
def IsDemand (cfg : Config) (p : Packet) : Prop :=
  match cfg.cacheType with
  | .itlb | .l1i => p.instruction = true ∧ p.type = .load
  | .dtlb => p.instruction = false ∧ (p.type = .load ∨ p.type = .rfo ∧ p.tlbAccess = true)
  | .l1d => p.instruction = false ∧ p.type = .load
  | _ => False

instance (cfg : Config) (p : Packet) : Decidable (IsDemand cfg p) := by
  unfold IsDemand
  split <;> infer_instance

/-- The consumer that requests a demand. -/
def Packet.own (cfg : Config) (p : Packet) : Consumer :=
  match cfg.cacheType with
  | .itlb | .l1i => .rob p.robIndex.toNat
  | .dtlb => if p.type = .rfo then .sq p.sqIndex else .lq p.lqIndex
  | _ => .lq p.lqIndex

/-- What waits in an MSHR or RQ entry for a consumer: free slots and prefetches have none. -/
def waiting (cfg : Config) (x : Consumer) (e : Packet) : ℕ :=
  if e.address = 0 ∨ e.type = .prefetch then 0 else completions cfg e x

/-- How often a consumer waits in the cache. -/
def pending (cfg : Config) (c : Cache) (x : Consumer) : ℕ :=
  (c.rq.map (waiting cfg x)).sum + (c.mshr.entry.map (waiting cfg x)).sum

/-- How often an event delivers a consumer: by an append to `PROCESSED`. -/
def Event.delivers (cfg : Config) (x : Consumer) : Event → ℕ
  | .processed p => completions cfg p x
  | _ => 0

/-- How often an event loses a consumer: by an append that finds `PROCESSED` full. -/
def Event.loses (cfg : Config) (x : Consumer) : Event → ℕ
  | .dropped p => completions cfg p x
  | _ => 0

/-- A finished access found `PROCESSED` full. -/
def Event.isDropped : Event → Bool
  | .dropped _ => true
  | _ => false

/-- How often a run delivered a consumer. -/
def delivered (cfg : Config) (tr : Lts.Trace (Env × Action) Event) (x : Consumer) : ℕ :=
  (tr.map fun s => (s.2.map (Event.delivers cfg x)).sum).sum

/-- How often a run lost a consumer. -/
def lost (cfg : Config) (tr : Lts.Trace (Env × Action) Event) (x : Consumer) : ℕ :=
  (tr.map fun s => (s.2.map (Event.loses cfg x)).sum).sum

/-- How often a step accepts a consumer: it is an `add_rq` that does not return -2. -/
def accepts (cfg : Config) (x : Consumer) (s : (Env × Action) × List Event) : ℕ :=
  match s.1.2 with
  | .addRq p => if .result .full ∈ s.2 then 0 else completions cfg p x
  | _ => 0

/-- How often a run accepted a consumer. -/
def accepted (cfg : Config) (tr : Lts.Trace (Env × Action) Event) (x : Consumer) : ℕ :=
  (tr.map (accepts cfg x)).sum

/-- The contract of the components around a first-level cache. The core sends fresh demands whose
consumer does not wait in the cache already; only the L1D gets stores, which are RFOs, and
prefetches; the lower level answers what is in flight. -/
def AsksOnce (cfg : Config) (c : Cache) (l : Env × Action) : Prop :=
  match l.2 with
  | .addRq p => IsDemand cfg p ∧ Fresh p ∧ pending cfg c (p.own cfg) = 0
  | .addWq p => cfg.cacheType = .l1d ∧ p.type = .rfo ∧ Fresh p
  | .addPq p => cfg.cacheType = .l1d ∧ p.type = .prefetch ∧ Fresh p
  | .prefetchLine .. => cfg.cacheType = .l1d
  | .returnData p => c.mshr.inflight p.address = true
  | _ => True

instance (cfg : Config) (c : Cache) (l : Env × Action) : Decidable (AsksOnce cfg c l) := by
  unfold AsksOnce
  exact match l.2 with
  | .addRq _ | .addWq _ | .addPq _ => instDecidableAnd
  | .prefetchLine .. => inferInstanceAs (Decidable (cfg.cacheType = .l1d))
  | .returnData p => inferInstanceAs (Decidable (c.mshr.inflight p.address = true))
  | .invalidateEntry _ | .updateRob _ | .handleFill | .handleWriteback | .startReads | .readOne
  | .prefetchOne => instDecidableTrue

/-! ## Consumers of merged packets -/

section
variable {cfg : Config} {env : Env} {p e : Packet} {x : Consumer}

theorem Fresh.flagged (h : Fresh p) : Flagged p :=
  ⟨fun _ => h.rob, fun _ => h.lq, fun _ => h.sq⟩

@[simp] theorem completions_withPa {b : Block} :
    completions cfg (Cache.withPa cfg b p) x = completions cfg p x := by
  rw [Cache.withPa]
  split <;> rfl

@[simp] theorem Cache.withPa_type {b : Block} : (Cache.withPa cfg b p).type = p.type := by
  rw [Cache.withPa]
  split <;> rfl

@[simp] theorem Cache.withTranslation_type {b : Block} :
    (Cache.withTranslation cfg b p).type = p.type := by
  rw [Cache.withTranslation]
  split
  · rfl
  · exact Cache.withPa_type

@[simp] theorem completions_withTranslation {b : Block} :
    completions cfg (Cache.withTranslation cfg b p) x = completions cfg p x := by
  rw [Cache.withTranslation]
  split
  · rfl
  · exact completions_withPa

@[simp] theorem completions_withMetadata :
    completions cfg (Cache.withMetadata cfg env p) x = completions cfg p x := by
  rw [Cache.withMetadata]
  split <;> rfl

@[simp] theorem completions_forwarded {w : Packet} :
    completions cfg (Cache.forwarded cfg w p) x = completions cfg p x := by
  rw [Cache.forwarded]
  split <;> rfl

@[simp] theorem completions_lowerFillLevel :
    completions cfg (Cache.lowerFillLevel p e) x = completions cfg e x := rfl

/-- A fresh demand is waited for by the consumer that requests it, and by no other. -/
theorem completions_fresh (hd : IsDemand cfg p) (hf : Fresh p) :
    completions cfg p x = if x = p.own cfg then 1 else 0 := by
  cases ht : cfg.cacheType <;> simp only [IsDemand, ht] at hd <;> try exact hd.elim
  case itlb | l1i =>
    cases x <;> simp only [completions, Packet.own, ht, hf.rob, Finset.notMem_empty, and_false,
      if_false, Nat.add_zero, Consumer.rob.injEq, reduceCtorEq]
    exact if_congr eq_comm rfl rfl
  case dtlb =>
    rcases hd.2 with hty | ⟨hty, _⟩ <;>
      cases x <;> simp only [completions, Packet.own, ht, hf.lq, hf.sq, hty, Finset.notMem_empty,
        and_false, if_false, if_true, Nat.add_zero, ne_eq, reduceCtorEq, not_true_eq_false,
        not_false_eq_true, true_and, false_and, Consumer.lq.injEq, Consumer.sq.injEq]
    · exact if_congr eq_comm rfl rfl
    · exact if_congr eq_comm rfl rfl
  case l1d =>
    cases x <;> simp only [completions, Packet.own, ht, hf.lq, hd.2, Finset.notMem_empty,
      if_false, Nat.add_zero, ne_eq, reduceCtorEq, not_false_eq_true, true_and, Consumer.lq.injEq]
    exact if_congr eq_comm rfl rfl

/-- A set in which an index is recorded twice would complete it twice; recorded once, it adds one
completion. -/
theorem ite_mem_insert {s : Finset ℕ} {a n : ℕ}
    (h : (if a = n then 1 else 0) + (if n ∈ s then 1 else 0) ≤ 1) :
    (if n ∈ insert a s then 1 else 0) = (if a = n then 1 else 0) + if n ∈ s then 1 else 0 := by
  by_cases h1 : a = n <;> by_cases h2 : n ∈ s <;> simp_all [Finset.mem_insert, eq_comm]

/-- Recording an index and joining a set adds up the completions, when nothing is shared. -/
theorem ite_mem_insert_union {s t : Finset ℕ} {a n : ℕ}
    (h : (if a = n then 1 else 0) + (if n ∈ s then 1 else 0) + (if n ∈ t then 1 else 0) ≤ 1) :
    (if n ∈ insert a s ∪ t then 1 else 0) =
      (if a = n then 1 else 0) + (if n ∈ s then 1 else 0) + if n ∈ t then 1 else 0 := by
  by_cases h1 : a = n <;> by_cases h2 : n ∈ s <;> by_cases h3 : n ∈ t <;>
    simp_all [Finset.mem_insert, Finset.mem_union, eq_comm]

/-- Joining two sets adds up their completions, when they share no index. -/
theorem ite_mem_union {s t : Finset ℕ} {n : ℕ}
    (h : (if n ∈ s then 1 else 0) + (if n ∈ t then 1 else 0) ≤ 1) :
    (if n ∈ s ∪ t then 1 else 0) = (if n ∈ s then 1 else 0) + if n ∈ t then 1 else 0 := by
  by_cases h1 : n ∈ s <;> by_cases h2 : n ∈ t <;> simp_all [Finset.mem_union]

theorem Flagged.rob_iff (h : Flagged p) {n : ℕ} :
    (p.instrMerged = true ∧ n ∈ p.robIndexDependOnMe) ↔ n ∈ p.robIndexDependOnMe := by
  cases hm : p.instrMerged with
  | true => simp
  | false => simp [h.instr hm]

theorem Flagged.lq_iff (h : Flagged p) {n : ℕ} :
    (p.loadMerged = true ∧ n ∈ p.lqIndexDependOnMe) ↔ n ∈ p.lqIndexDependOnMe := by
  cases hm : p.loadMerged with
  | true => simp
  | false => simp [h.load hm]

theorem Flagged.sq_iff (h : Flagged p) {n : ℕ} :
    (p.storeMerged = true ∧ n ∈ p.sqIndexDependOnMe) ↔ n ∈ p.sqIndexDependOnMe := by
  cases hm : p.storeMerged with
  | true => simp
  | false => simp [h.store hm]

@[simp] theorem Cache.forwarded_type {w : Packet} :
    (Cache.forwarded cfg w p).type = p.type := by
  rw [Cache.forwarded]
  split <;> rfl

@[simp] theorem Cache.mergeConsumer_address : (Cache.mergeConsumer p e).address = e.address := by
  rw [Cache.mergeConsumer]
  split_ifs <;> rfl

/-- Merging a request into an RQ entry leaves the kind of the entry alone. -/
theorem IsDemand.mergeConsumer (h : IsDemand cfg e) : IsDemand cfg (Cache.mergeConsumer p e) := by
  rw [Cache.mergeConsumer]
  split_ifs <;> exact h

/-- Merging a request into an RQ entry keeps the sets under their flags. -/
theorem Flagged.mergeConsumer (he : Flagged e) : Flagged (Cache.mergeConsumer p e) := by
  rw [Cache.mergeConsumer]
  split_ifs
  · exact ⟨nofun, he.load, he.store⟩
  · exact ⟨he.instr, he.load, nofun⟩
  · exact ⟨he.instr, nofun, he.store⟩

/-- A fresh request that is merged into an RQ entry waits there. -/
theorem completions_mergeConsumer (hd : IsDemand cfg p) (hf : Fresh p) (he : Flagged e)
    (hx : completions cfg p x + completions cfg e x ≤ 1) :
    completions cfg (Cache.mergeConsumer p e) x = completions cfg p x + completions cfg e x := by
  rw [Cache.mergeConsumer]
  cases ht : cfg.cacheType <;> simp only [IsDemand, ht] at hd <;> try exact hd.elim
  case itlb | l1i =>
    rw [if_pos hd.1]
    cases x <;> simp only [completions, ht, he.rob_iff, hf.rob] at hx ⊢
    simp only [Finset.notMem_empty, and_false, if_false, true_and] at hx ⊢
    rw [ite_mem_insert (by omega)]
    omega
  case dtlb =>
    rw [if_neg (by simp [hd.1])]
    rcases hd.2 with hty | ⟨hty, _⟩
    · rw [if_neg (by simp [hty])]
      cases x <;> simp only [completions, ht, he.lq_iff, he.sq_iff, hf.lq, hf.sq, hty] at hx ⊢
      · simp only [Finset.notMem_empty, and_false, if_false, true_and, ne_eq, reduceCtorEq,
          not_false_eq_true] at hx ⊢
        rw [ite_mem_insert (by omega)]
        omega
      · simp
    · rw [if_pos hty]
      cases x <;> simp only [completions, ht, he.lq_iff, he.sq_iff, hf.lq, hf.sq, hty] at hx ⊢
      · simp
      · simp only [Finset.notMem_empty, and_false, if_false, true_and] at hx ⊢
        rw [ite_mem_insert (by omega)]
        omega
  case l1d =>
    rw [if_neg (by simp [hd.1]), if_neg (by simp [hd.2])]
    cases x <;> simp only [completions, ht, hf.lq, hd.2] at hx ⊢
    simp only [Finset.notMem_empty, if_false, true_and, ne_eq, reduceCtorEq,
      not_false_eq_true] at hx ⊢
    rw [ite_mem_insert (by omega)]
    omega

/-- Merging a read into an MSHR entry keeps the sets under their flags. -/
theorem Flagged.markConsumers (he : Flagged e) :
    Flagged (Cache.markConsumers p e) := by
  simp only [Cache.markConsumers]
  split_ifs
  all_goals
    constructor <;> intro h <;> first
      | cases h
      | exact he.instr h
      | exact he.load h
      | exact he.store h

/-- The sets of an MSHR entry after a fetch is merged into it. -/
theorem markConsumers_fetch (hp : Flagged p) (hi : p.instruction = true) (ht : p.type ≠ .rfo) :
    (Cache.markConsumers p e).robIndexDependOnMe =
      insert p.robIndex.toNat e.robIndexDependOnMe ∪ p.robIndexDependOnMe := by
  cases hm : p.instrMerged with
  | true => simp [Cache.markConsumers, ht, hi, hm]
  | false => simp [Cache.markConsumers, ht, hi, hm, hp.instr hm]

/-- The sets of an MSHR entry after a load is merged into it. -/
theorem markConsumers_load (hp : Flagged p) (hi : p.instruction = false) (ht : p.type ≠ .rfo) :
    (Cache.markConsumers p e).lqIndexDependOnMe =
        insert p.lqIndex e.lqIndexDependOnMe ∪ p.lqIndexDependOnMe ∧
      (Cache.markConsumers p e).sqIndexDependOnMe =
        e.sqIndexDependOnMe ∪ p.sqIndexDependOnMe := by
  cases hm : p.storeMerged with
  | true => simp [Cache.markConsumers, ht, hi, hm]
  | false => simp [Cache.markConsumers, ht, hi, hm, hp.store hm]

/-- The sets of an MSHR entry after a store's translation is merged into it. -/
theorem markConsumers_store (hp : Flagged p) (ht : p.type = .rfo) (hl : p.tlbAccess = true) :
    (Cache.markConsumers p e).lqIndexDependOnMe =
        e.lqIndexDependOnMe ∪ p.lqIndexDependOnMe ∧
      (Cache.markConsumers p e).sqIndexDependOnMe =
        insert p.sqIndex e.sqIndexDependOnMe ∪ p.sqIndexDependOnMe := by
  cases hm : p.loadMerged with
  | true => simp [Cache.markConsumers, ht, hl, hm]
  | false => simp [Cache.markConsumers, ht, hl, hm, hp.load hm]

@[simp] theorem markConsumers_own :
    (Cache.markConsumers p e).robIndex = e.robIndex ∧
      (Cache.markConsumers p e).lqIndex = e.lqIndex ∧
      (Cache.markConsumers p e).sqIndex = e.sqIndex := by
  simp only [Cache.markConsumers]
  split_ifs <;> exact ⟨rfl, rfl, rfl⟩

/-- The consumers of a demand that is merged into an MSHR entry wait there. -/
theorem completions_markConsumers (hd : IsDemand cfg p) (hp : Flagged p) (he : Flagged e)
    (hx : completions cfg p x + completions cfg e x ≤ 1) :
    completions cfg (Cache.markConsumers p e) x = completions cfg p x + completions cfg e x := by
  have hm : Flagged (Cache.markConsumers p e) := he.markConsumers
  obtain ⟨hrob, hlq, hsq⟩ := markConsumers_own (p := p) (e := e)
  cases ht : cfg.cacheType <;> simp only [IsDemand, ht] at hd <;> try exact hd.elim
  case itlb | l1i =>
    have hset := markConsumers_fetch (e := e) hp hd.1 (by simp [hd.2])
    cases x <;> simp only [completions, ht] at hx ⊢
    simp only [he.rob_iff, hp.rob_iff, hm.rob_iff] at hx ⊢
    simp only [hset, hrob]
    rw [ite_mem_insert_union (by omega)]
    omega
  case dtlb =>
    rcases hd.2 with hty | ⟨hty, htlb⟩
    · obtain ⟨hl, hs⟩ := markConsumers_load (e := e) hp hd.1 (by simp [hty])
      cases x <;> simp only [completions, ht] at hx ⊢
      · simp only [he.lq_iff, hp.lq_iff, hm.lq_iff] at hx ⊢
        simp only [hl, hlq, hty, Cache.markConsumers_type, ne_eq, reduceCtorEq, not_false_eq_true,
          true_and] at hx ⊢
        rw [ite_mem_insert_union (by omega)]
        omega
      · simp only [he.sq_iff, hp.sq_iff, hm.sq_iff] at hx ⊢
        simp only [hs, hsq, hty, Cache.markConsumers_type, reduceCtorEq, false_and,
          if_false] at hx ⊢
        rw [ite_mem_union (by omega)]
        omega
    · obtain ⟨hl, hs⟩ := markConsumers_store (e := e) hp hty htlb
      cases x <;> simp only [completions, ht] at hx ⊢
      · simp only [he.lq_iff, hp.lq_iff, hm.lq_iff] at hx ⊢
        simp only [hl, hlq, hty, Cache.markConsumers_type, ne_eq, not_true_eq_false, false_and,
          if_false] at hx ⊢
        rw [ite_mem_union (by omega)]
        omega
      · simp only [he.sq_iff, hp.sq_iff, hm.sq_iff] at hx ⊢
        simp only [hs, hsq, hty, Cache.markConsumers_type, true_and] at hx ⊢
        rw [ite_mem_insert_union (by omega)]
        omega
  case l1d =>
    obtain ⟨hl, _⟩ := markConsumers_load (e := e) hp hd.1 (by simp [hd.2])
    cases x <;> simp only [completions, ht] at hx ⊢
    simp only [hl, hlq, hd.2, Cache.markConsumers_type, ne_eq, reduceCtorEq, not_false_eq_true,
      true_and] at hx ⊢
    rw [ite_mem_insert_union (by omega)]
    omega

end

/-! ## The conservation law of a step -/

/-- The packets of a first-level cache are what its callers send: demands in the RQ, stores in the
write queue and prefetches in the PQ of the L1D, and sets of consumers under their flags. -/
structure Shape (cfg : Config) (c : Cache) : Prop where
  mshr : MshrOk cfg c
  rq : ∀ p ∈ c.rq, IsDemand cfg p ∧ Flagged p ∧ p.address ≠ 0
  entry : ∀ e ∈ c.mshr.entry, Flagged e ∧ (e.type = .prefetch → cfg.cacheType = .l1d)
  wq : ∀ p ∈ c.wq, cfg.cacheType = .l1d ∧ p.type = .rfo ∧ Fresh p
  pq : ∀ p ∈ c.pq, cfg.cacheType = .l1d ∧ p.type = .prefetch ∧ Fresh p

/-- The step delivers or loses exactly the consumers that no longer wait. -/
def Balanced (cfg : Config) (c c' : Cache) (evs : List Event) : Prop :=
  ∀ x, pending cfg c' x + (evs.map (Event.delivers cfg x)).sum +
    (evs.map (Event.loses cfg x)).sum = pending cfg c x

section
variable {cfg : Config} {env : Env} {c c' : Cache} {evs : List Event} {p e : Packet} {x : Consumer}

theorem IsDemand.type_ne (h : IsDemand cfg p) : p.type ≠ .prefetch := by
  unfold IsDemand at h
  split at h
  · simp [h.2]
  · simp [h.2]
  · rcases h.2 with ht | ht
    · simp [ht]
    · simp [ht.1]
  · simp [h.2]
  · exact h.elim

theorem IsDemand.waiting (h : IsDemand cfg p) (h0 : p.address ≠ 0) :
    waiting cfg x p = completions cfg p x := by
  simp [Arishem.waiting, h0, h.type_ne]

/-- A store has no consumer at the L1D. -/
theorem completions_store (ht : cfg.cacheType = .l1d) (hr : p.type = .rfo) (hf : Fresh p) :
    completions cfg p x = 0 := by
  cases x <;> simp [completions, ht, hr, hf.lq]

@[simp] theorem answer_delivers : ((Cache.answer cfg p).map (Event.delivers cfg x)).sum = 0 := by
  rw [Cache.answer]
  split <;> rfl

@[simp] theorem answer_loses : ((Cache.answer cfg p).map (Event.loses cfg x)).sum = 0 := by
  rw [Cache.answer]
  split <;> rfl

/-- The eviction of a victim delivers and loses nothing. -/
theorem Cache.Victim.events_sum {way : ℕ} (h : Cache.Victim cfg env c p way evs) :
    (evs.map (Event.delivers cfg x)).sum = 0 ∧ (evs.map (Event.loses cfg x)).sum = 0 := by
  obtain ⟨v, _, hev⟩ := h.evicted
  cases v with
  | clean => cases hev; exact ⟨rfl, rfl⟩
  | writeback w => cases hev; exact ⟨rfl, rfl⟩
  | blocked => cases hev

/-- Overwriting a slot exchanges what waits there. -/
theorem waiting_set (cfg : Config) (x : Consumer) (p : Packet) {l : List Packet} {i : ℕ}
    (hi : i < l.length) (he : l[i] = e) :
    ((l.set i p).map (waiting cfg x)).sum + waiting cfg x e =
      (l.map (waiting cfg x)).sum + waiting cfg x p := by
  rw [← he]
  exact Slots.sum_map_set (waiting cfg x) p l i hi

/-- A free slot holds no consumer. -/
theorem waiting_free (h0 : e.address = 0) : waiting cfg x e = 0 := by
  simp [waiting, h0]

/-- A prefetch has no consumer. -/
theorem waiting_prefetch (ht : e.type = .prefetch) : waiting cfg x e = 0 := by
  simp [waiting, ht]

/-- What waits in one entry waits in its table. -/
theorem waiting_le_sum {l : List Packet} (he : e ∈ l) :
    waiting cfg x e ≤ (l.map (waiting cfg x)).sum :=
  List.single_le_sum (fun _ _ => Nat.zero_le _) _ (List.mem_map_of_mem he)

/-- Finishing an access that is no prefetch delivers or loses its consumers; a cache that appends
nothing to `PROCESSED` has no consumers. -/
theorem finishEvents_demand (cfg : Config) (x : Consumer) {q : Packet} (l : List Packet)
    (ht : q.type ≠ .prefetch) :
    ((Cache.finishEvents cfg q l).map (Event.delivers cfg x)).sum +
      ((Cache.finishEvents cfg q l).map (Event.loses cfg x)).sum = completions cfg q x := by
  rw [Cache.finishEvents]
  split_ifs with hd hl
  · simp [Event.delivers, Event.loses]
  · simp [Event.delivers, Event.loses]
  · unfold Config.delivers at hd
    unfold completions
    cases hct : cfg.cacheType <;> simp [hct, ht] at hd ⊢

/-- Finishing the packet of an entry delivers or loses what waits in the entry. The L1D does not
append prefetches, which have no consumer. -/
theorem finishEvents_sum {q : Packet} {l : List Packet} (h0 : p.address ≠ 0)
    (hk : p.type = .prefetch → cfg.cacheType = .l1d) (hq : q.type = p.type)
    (hc : completions cfg q x = completions cfg p x) :
    ((Cache.finishEvents cfg q l).map (Event.delivers cfg x)).sum +
      ((Cache.finishEvents cfg q l).map (Event.loses cfg x)).sum = waiting cfg x p := by
  by_cases ht : p.type = .prefetch
  · simp [Cache.finishEvents, Config.delivers, hk ht, hq, ht, waiting]
  · rw [finishEvents_demand cfg x l (hq ▸ ht), hc]
    simp [waiting, h0, ht]

/-- A fill answers its packet and finishes it. -/
theorem Cache.fillWay_finishes (cfg : Config) (env : Env) (c : Cache) (i set way : ℕ)
    (p : Packet) :
    ∃ q, q.type = p.type ∧ (∀ x, completions cfg q x = completions cfg p x) ∧
      (c.fillWay cfg env i set way p).2 =
        Cache.answer cfg p ++ Cache.finishEvents cfg q c.processed :=
  ⟨_, Cache.withPa_type, fun _ => completions_withPa, rfl⟩

/-! ### MSHR operations -/

/-- The entries of the table after one slot was overwritten. -/
theorem Shape.entry_set (h : Shape cfg c) {i : ℕ} (hp : Flagged p)
    (hk : p.type = .prefetch → cfg.cacheType = .l1d) :
    ∀ q ∈ c.mshr.entry.set i p, Flagged q ∧ (q.type = .prefetch → cfg.cacheType = .l1d) := by
  intro q hq
  rcases List.mem_or_eq_of_mem_set hq with hq | rfl
  · exact h.entry q hq
  · exact ⟨hp, hk⟩

/-- A new miss takes the packet's consumers along. -/
theorem Shape.addMshr (h : Shape cfg c) (hlt : c.mshr.occupancy < cfg.mshrSize) (hf : Flagged p)
    (hk : p.type = .prefetch → cfg.cacheType = .l1d) :
    (∀ e ∈ (c.mshr.addMshr p).entry, Flagged e ∧ (e.type = .prefetch → cfg.cacheType = .l1d)) ∧
      ∀ x, ((c.mshr.addMshr p).entry.map (waiting cfg x)).sum =
        (c.mshr.entry.map (waiting cfg x)).sum + waiting cfg x p := by
  rw [← h.mshr.size] at hlt
  obtain ⟨i, e, hfree⟩ := h.mshr.ok.exists_free hlt
  obtain ⟨hi, he, h0⟩ := Mshr.checkMshr_some hfree
  rw [Mshr.addMshr_of_free hfree]
  refine ⟨h.entry_set ⟨hf.instr, hf.load, hf.store⟩ hk, fun x => ?_⟩
  have hsum := waiting_set cfg x { p with returned := .inflight } hi he
  rw [waiting_free h0, Nat.add_zero] at hsum
  exact hsum

/-- The answer from below changes no consumer. -/
theorem Shape.returnData (h : Shape cfg c) (hin : c.mshr.inflight p.address = true)
    (hs : c.returnData cfg env p = some c') : Shape cfg c' ∧ Balanced cfg c c' [] := by
  have hm := h.mshr.returnData hin hs
  rw [Cache.returnData] at hs
  split at hs
  · cases hs
  · rename_i i e hf
    obtain ⟨hi, he, _⟩ := Mshr.checkMshr_some hf
    obtain ⟨hfl, hk⟩ := h.entry e (Mshr.mem_of_checkMshr hf)
    cases hs
    refine ⟨⟨hm, h.rq, h.entry_set ⟨hfl.instr, hfl.load, hfl.store⟩ hk, h.wq, h.pq⟩, fun x => ?_⟩
    have hsum := waiting_set cfg x
      { e with returned := .completed, data := p.data, pfMetadata := p.pfMetadata,
               eventCycle := addLatency cfg.latency (env.cycle p.cpu) e.eventCycle } hi he
    have hw : waiting cfg x
        { e with returned := .completed, data := p.data, pfMetadata := p.pfMetadata,
                 eventCycle := addLatency cfg.latency (env.cycle p.cpu) e.eventCycle } =
          waiting cfg x e := rfl
    rw [hw] at hsum
    simp only [pending, Mshr.entry_complete, List.map_nil, List.sum_nil]
    omega

/-- Giving up a slot takes its consumers out of the table. -/
theorem Shape.remove (h : Shape cfg c) {i : ℕ} (hi : i < c.mshr.entry.length)
    (he : c.mshr.entry[i] = e) :
    (∀ q ∈ (c.mshr.remove cfg.numCpus i).entry,
      Flagged q ∧ (q.type = .prefetch → cfg.cacheType = .l1d)) ∧
      ∀ x, ((c.mshr.remove cfg.numCpus i).entry.map (waiting cfg x)).sum + waiting cfg x e =
        (c.mshr.entry.map (waiting cfg x)).sum := by
  refine ⟨h.entry_set ⟨fun _ => rfl, fun _ => rfl, fun _ => rfl⟩ nofun, fun x => ?_⟩
  have hsum := waiting_set cfg x (Packet.empty cfg.numCpus) hi he
  rw [waiting_free (e := Packet.empty cfg.numCpus) rfl, Nat.add_zero] at hsum
  exact hsum

/-! ### Handlers -/

/-- The shape is that of the queues and the MSHR table. -/
theorem Shape.same (h : Shape cfg c) (hr : c'.rq = c.rq) (hm : c'.mshr = c.mshr)
    (hw : c'.wq = c.wq) (hp : c'.pq = c.pq) : Shape cfg c' :=
  ⟨h.mshr.frame hm, hr ▸ h.rq, hm ▸ h.entry, hw ▸ h.wq, hp ▸ h.pq⟩

/-- A step that leaves queues and MSHR table alone. -/
theorem Shape.frame (h : Shape cfg c) (hr : c'.rq = c.rq) (hm : c'.mshr = c.mshr)
    (hw : c'.wq = c.wq) (hp : c'.pq = c.pq) : Shape cfg c' ∧ Balanced cfg c c' [] := by
  refine ⟨h.same hr hm hw hp, fun x => ?_⟩
  simp [pending, hr, hm]

/-- A fill delivers or loses what waits in the entry it fills. -/
theorem Shape.fill_sum (h : Shape cfg c) {way : ℕ} (hd : Cache.Due cfg env c p)
    (hv : Cache.Victim cfg env c p way evs) (x : Consumer) :
    let os := evs ++ (c.fillWay cfg env c.mshr.nextFillIndex (cfg.getSet p.address) way
      (Cache.withMetadata cfg env p)).2
    (os.map (Event.delivers cfg x)).sum + (os.map (Event.loses cfg x)).sum = waiting cfg x p := by
  obtain ⟨hi, hp, hc⟩ := hd.completed h.mshr.ok
  have hmem : p ∈ c.mshr.entry := hp ▸ List.getElem_mem hi
  have h0 : p.address ≠ 0 := h.mshr.ok.address_ne_zero_of_returned hmem (by simp [hc])
  obtain ⟨hev₁, hev₂⟩ := hv.events_sum (x := x)
  obtain ⟨q, hqt, hqc, hev⟩ := Cache.fillWay_finishes cfg env c c.mshr.nextFillIndex
    (cfg.getSet p.address) way (Cache.withMetadata cfg env p)
  have hfin := finishEvents_sum (l := c.processed) (x := x) h0 (h.entry p hmem).2
    (hqt.trans (by simp)) ((hqc x).trans (by simp))
  rw [hev]
  simp only [List.map_append, List.sum_append, hev₁, hev₂, answer_delivers, answer_loses]
  omega

/-- `handle_fill` delivers what waits in the entry it fills. -/
theorem Shape.fillStep (h : Shape cfg c) (hs : Cache.FillStep cfg env c c' evs) :
    Shape cfg c' ∧ Balanced cfg c c' evs := by
  have hm := h.mshr.fillStep hs
  cases hs with
  | idle => exact h.frame rfl rfl rfl rfl
  | @bypass p hd hllc =>
    obtain ⟨hi, hp, _⟩ := hd.completed h.mshr.ok
    obtain ⟨hent, hsum⟩ := h.remove hi hp
    refine ⟨⟨hm, h.rq, hent, h.wq, h.pq⟩, fun x => ?_⟩
    have hw : waiting cfg x p = 0 := by simp [waiting, completions, hllc]
    have hx := hsum x
    simp only [pending, Cache.releaseMshr, answer_delivers, answer_loses]
    omega
  | @fill p way evs' hd hv =>
    obtain ⟨hi, hp, -⟩ := hd.completed h.mshr.ok
    obtain ⟨hent, hsum⟩ := h.remove hi hp
    refine ⟨⟨hm, h.rq, hent, h.wq, h.pq⟩, fun x => ?_⟩
    have hx := hsum x
    have hfin := h.fill_sum hd hv x
    have hrest : pending cfg (c.fillWay cfg env c.mshr.nextFillIndex (cfg.getSet p.address) way
        (Cache.withMetadata cfg env p)).1 x =
          (c.rq.map (waiting cfg x)).sum +
            ((c.mshr.remove cfg.numCpus c.mshr.nextFillIndex).entry.map (waiting cfg x)).sum := rfl
    rw [hrest]
    simp only [pending]
    omega

/-- The write queue without its head. -/
theorem Shape.wq_rest (h : Shape cfg c) {rest : List Packet} (hq : c.wq = p :: rest) :
    ∀ q ∈ rest, cfg.cacheType = .l1d ∧ q.type = .rfo ∧ Fresh q := fun q hqr =>
  h.wq q (hq ▸ List.mem_cons_of_mem p hqr)

/-- `handle_writeback` touches no consumer: what it merges into an entry is a store, which has
none. -/
theorem Shape.writebackStep (h : Shape cfg c) (hs : Cache.WritebackStep cfg env c c' evs) :
    Shape cfg c' ∧ Balanced cfg c c' evs := by
  have hm := h.mshr.writebackStep hs
  cases hs with
  | idle => exact h.frame rfl rfl rfl rfl
  | @hit p rest way buffer hq _ =>
    have hrest := h.wq_rest hq
    refine ⟨⟨hm, h.rq, h.entry, hrest, h.pq⟩, fun x => ?_⟩
    simp [pending, Cache.writebackHit]
  | @rfoNew p rest buffer hq hct _ _ hlt =>
    have hrest := h.wq_rest hq
    obtain ⟨_, ht, hf⟩ := h.wq p (hq ▸ List.mem_cons_self)
    have hfl : Flagged (Cache.stamped env p) := ⟨hf.flagged.instr, hf.flagged.load, hf.flagged.store⟩
    obtain ⟨hent, hsum⟩ := h.addMshr (p := Cache.stamped env p) hlt hfl fun _ => hct
    refine ⟨⟨hm, h.rq, hent, hrest, h.pq⟩, fun x => ?_⟩
    have hw : waiting cfg x (Cache.stamped env p) = 0 := by
      rw [waiting]
      split
      · rfl
      · exact completions_store (p := p) hct ht hf
    have hx := hsum x
    simp only [pending, List.map_cons, List.map_nil, List.sum_cons, List.sum_nil, Event.delivers,
      Event.loses]
    omega
  | @rfoMerge p rest i e buffer hq _ hct _ hf =>
    have hrest := h.wq_rest hq
    obtain ⟨_, ht, hfr⟩ := h.wq p (hq ▸ List.mem_cons_self)
    obtain ⟨hi, he, ha⟩ := Mshr.checkMshr_some hf
    obtain ⟨hfl, _⟩ := h.entry e (Mshr.mem_of_checkMshr hf)
    have hmerged : Flagged (Cache.mergedRfo p e) ∧
        ∀ x, waiting cfg x (Cache.mergedRfo p e) = waiting cfg x e := by
      rw [Cache.mergedRfo, Cache.replacePrefetch]
      split
      · rename_i hpf
        refine ⟨⟨hfr.flagged.instr, hfr.flagged.load, hfr.flagged.store⟩, fun x => ?_⟩
        rw [waiting_prefetch (e := e) hpf, waiting]
        split
        · rfl
        · exact completions_store (p := p) hct ht hfr
      · exact ⟨⟨hfl.instr, hfl.load, hfl.store⟩, fun x => rfl⟩
    refine ⟨⟨hm, h.rq, h.entry_set hmerged.1 fun _ => hct, hrest, h.pq⟩, fun x => ?_⟩
    have hsum := waiting_set cfg x (Cache.mergedRfo p e) hi he
    have hx := hmerged.2 x
    simp only [pending, Mshr.entry_update, List.map_nil, List.sum_nil]
    omega
  | @fill p rest way buffer evs' hq _ hct _ _ =>
    exact absurd (h.wq p (hq ▸ List.mem_cons_self)).1 hct

/-- The RQ without its head. -/
theorem Shape.rq_rest (h : Shape cfg c) {rest : List Packet} (hq : c.rq = p :: rest) :
    ∀ q ∈ rest, IsDemand cfg q ∧ Flagged q ∧ q.address ≠ 0 := fun q hqr =>
  h.rq q (hq ▸ List.mem_cons_of_mem p hqr)

/-- What waits in a cache whose RQ has a head. -/
theorem pending_of_rq {rest : List Packet} (hq : c.rq = p :: rest) :
    pending cfg c x = waiting cfg x p + (rest.map (waiting cfg x)).sum +
      (c.mshr.entry.map (waiting cfg x)).sum := by
  simp [pending, hq]

/-- A read hit finishes its packet. -/
theorem Cache.readHit_finishes (cfg : Config) (c : Cache) (way : ℕ) (p : Packet)
    (rest : List Packet) :
    ∃ q, q.type = p.type ∧ (∀ x, completions cfg q x = completions cfg p x) ∧
      (c.readHit cfg way p rest).2 =
        Cache.finishEvents cfg q c.processed ++ Cache.answer cfg q :=
  ⟨_, Cache.withTranslation_type, fun _ => completions_withTranslation, rfl⟩

/-- A read hit delivers or loses what waits in its packet. -/
theorem Shape.hit_sum (h : Shape cfg c) (way : ℕ) (buffer : List UInt64) {rest : List Packet}
    (hq : c.rq = p :: rest) (x : Consumer) :
    let os := ({ c with pageBuffer := buffer }.readHit cfg way p rest).2
    (os.map (Event.delivers cfg x)).sum + (os.map (Event.loses cfg x)).sum = waiting cfg x p := by
  obtain ⟨hd, -, h0⟩ := h.rq p (hq ▸ List.mem_cons_self)
  obtain ⟨q, hqt, hqc, hev⟩ := Cache.readHit_finishes cfg { c with pageBuffer := buffer } way p rest
  have hfin := finishEvents_sum (l := c.processed) (x := x) h0
    (fun ht => absurd ht hd.type_ne) hqt (hqc x)
  rw [hev]
  simp only [List.map_append, List.sum_append, answer_delivers, answer_loses]
  omega

/-- A new read miss takes the consumers of its packet to the MSHR table. The page walk of the STLB
is not reached, as the STLB has no consumers. -/
theorem Shape.readNew (h : Shape cfg c) {rest : List Packet} (hq : c.rq = p :: rest)
    (hlt : c.mshr.occupancy < cfg.mshrSize) (hm : MshrOk cfg c')
    (hs : c.readNew cfg env p rest = some (c', evs)) :
    Shape cfg c' ∧ Balanced cfg c c' evs := by
  obtain ⟨hd, hf, h0⟩ := h.rq p (hq ▸ List.mem_cons_self)
  have hfl : Flagged (Cache.stamped env p) := ⟨hf.instr, hf.load, hf.store⟩
  obtain ⟨hent, hsum⟩ := h.addMshr (p := Cache.stamped env p) hlt hfl
    fun ht => absurd ht hd.type_ne
  have hpending : ∀ x, (rest.map (waiting cfg x)).sum +
      ((c.mshr.addMshr (Cache.stamped env p)).entry.map (waiting cfg x)).sum =
        pending cfg c x := by
    intro x
    have hw : waiting cfg x (Cache.stamped env p) = waiting cfg x p := rfl
    rw [hsum x, pending_of_rq hq, hw]
    omega
  simp only [Cache.readNew] at hs
  split at hs
  · cases hs
    refine ⟨⟨hm, h.rq_rest hq, hent, h.wq, h.pq⟩, fun x => ?_⟩
    exact hpending x
  · split at hs
    · rename_i hct
      simp only [IsDemand, hct] at hd
    · cases hs
      refine ⟨⟨hm, h.rq_rest hq, hent, h.wq, h.pq⟩, fun x => ?_⟩
      exact hpending x

/-- A read that is merged into an MSHR entry waits there; a prefetch that is replaced had no
consumer. -/
theorem waiting_mergedRead (hd : IsDemand cfg p) (hp : Flagged p) (he : Flagged e)
    (ha : e.address = p.address) (h0 : p.address ≠ 0)
    (hx : waiting cfg x p + waiting cfg x e ≤ 1) :
    waiting cfg x (Cache.mergedRead p e) = waiting cfg x p + waiting cfg x e := by
  rw [hd.waiting h0] at hx ⊢
  rw [Cache.mergedRead, Cache.replacePrefetch]
  split
  · rename_i ht
    have hte : e.type = .prefetch := by simpa [Cache.lowerFillLevel] using ht
    rw [waiting_prefetch hte, Nat.add_zero]
    exact hd.waiting h0
  · rename_i ht
    have hte : e.type ≠ .prefetch := by simpa [Cache.lowerFillLevel] using ht
    have hwe : waiting cfg x e = completions cfg e x := by simp [waiting, ha, h0, hte]
    rw [hwe] at hx ⊢
    rw [← completions_markConsumers hd hp he hx]
    simp [waiting, Cache.lowerFillLevel, ha, h0, hte, completions]

/-- Merging a read into an MSHR entry keeps the sets under their flags. -/
theorem Flagged.mergedRead (hp : Flagged p) (he : Flagged e) :
    Flagged (Cache.mergedRead p e) := by
  have hm : Flagged (Cache.markConsumers p e) := he.markConsumers
  rw [Cache.mergedRead, Cache.replacePrefetch]
  split
  · exact ⟨hp.instr, hp.load, hp.store⟩
  · exact ⟨hm.instr, hm.load, hm.store⟩

/-- A round of `handle_read` delivers the consumers of a hit and passes those of a miss to the
MSHR table. -/
theorem Shape.readStep (h : Shape cfg c) (hone : ∀ x, pending cfg c x ≤ 1)
    (hs : Cache.ReadStep cfg env c c' evs) : Shape cfg c' ∧ Balanced cfg c c' evs := by
  have hm := h.mshr.readStep hs
  cases hs with
  | idle => exact h.frame rfl rfl rfl rfl
  | @hit p rest way buffer hq _ =>
    refine ⟨⟨hm, h.rq_rest hq, h.entry, h.wq, h.pq⟩, fun x => ?_⟩
    have hfin := h.hit_sum way buffer hq x
    have hrest : pending cfg ({ c with pageBuffer := buffer }.readHit cfg way p rest).1 x =
        (rest.map (waiting cfg x)).sum + (c.mshr.entry.map (waiting cfg x)).sum := rfl
    rw [hrest, pending_of_rq hq]
    omega
  | @new p rest buffer _ _ hq _ ha hlt hn =>
    have hb : Shape cfg { c with pageBuffer := buffer } := h.same rfl rfl rfl rfl
    obtain ⟨hsh, hbal⟩ := hb.readNew hq hlt hm hn
    exact ⟨hsh, hbal⟩
  | @merge p rest i e buffer hq _ hf =>
    obtain ⟨hd, hfp, h0⟩ := h.rq p (hq ▸ List.mem_cons_self)
    obtain ⟨hi, he, ha⟩ := Mshr.checkMshr_some hf
    have hmem : e ∈ c.mshr.entry := Mshr.mem_of_checkMshr hf
    obtain ⟨hfe, hk⟩ := h.entry e hmem
    have hnp : (Cache.mergedRead p e).type = .prefetch → cfg.cacheType = .l1d := by
      intro ht
      by_cases hte : e.type = .prefetch
      · exact hk hte
      · have := (Cache.mergedRead_sameMiss (p := p) ha).type hte
        exact hk (this ▸ ht)
    refine ⟨⟨hm, h.rq_rest hq, h.entry_set (hfp.mergedRead hfe) hnp, h.wq, h.pq⟩, fun x => ?_⟩
    have hsum := waiting_set cfg x (Cache.mergedRead p e) hi he
    have hle : waiting cfg x e ≤ (c.mshr.entry.map (waiting cfg x)).sum := waiting_le_sum hmem
    have h1 := hone x
    rw [pending_of_rq hq] at h1
    rw [waiting_mergedRead hd hfp hfe ha h0 (by omega)] at hsum
    have hrest : pending cfg ({ c with pageBuffer := buffer }.readMerge i e p rest) x =
        (rest.map (waiting cfg x)).sum +
          ((c.mshr.entry.set i (Cache.mergedRead p e)).map (waiting cfg x)).sum := rfl
    rw [hrest, pending_of_rq hq]
    simp only [List.map_nil, List.sum_nil]
    omega

/-- The PQ without its head. -/
theorem Shape.pq_rest (h : Shape cfg c) {rest : List Packet} (hq : c.pq = p :: rest) :
    ∀ q ∈ rest, cfg.cacheType = .l1d ∧ q.type = .prefetch ∧ Fresh q := fun q hqr =>
  h.pq q (hq ▸ List.mem_cons_of_mem p hqr)

/-- A round of `handle_prefetch` touches no consumer. -/
theorem Shape.prefetchStep (h : Shape cfg c) (hs : Cache.PrefetchStep cfg env c c' evs) :
    Shape cfg c' ∧ Balanced cfg c c' evs := by
  have hm := h.mshr.prefetchStep hs
  cases hs with
  | idle => exact h.frame rfl rfl rfl rfl
  | @hit p rest way buffer hq _ =>
    refine ⟨⟨hm, h.rq, h.entry, h.wq, h.pq_rest hq⟩, fun x => ?_⟩
    simp [pending, Cache.prefetchHit, Cache.popPq]
  | @new p rest buffer hq _ ha hlt _ _ =>
    obtain ⟨hct, ht, hf⟩ := h.pq p (hq ▸ List.mem_cons_self)
    have hop : Cache.prefetchOperated cfg env p = p := by
      simp [Cache.prefetchOperated, Cache.withMetadata, hct]
    have hfl : Flagged (Cache.stamped env p) :=
      ⟨hf.flagged.instr, hf.flagged.load, hf.flagged.store⟩
    obtain ⟨hent, hsum⟩ := h.addMshr (p := Cache.stamped env p) hlt hfl fun _ => hct
    simp only [Cache.prefetchNew, hop, Cache.lowerAddPrefetch, hct, reduceCtorEq, if_false] at hm ⊢
    split at hm <;> rename_i hle
    · simp only [if_pos hle]
      refine ⟨⟨hm, h.rq, hent, h.wq, h.pq_rest hq⟩, fun x => ?_⟩
      have hx := hsum x
      rw [waiting_prefetch (e := Cache.stamped env p) ht] at hx
      simp only [pending, Cache.popPq, List.map_cons, List.map_nil, List.sum_cons, List.sum_nil,
        Event.delivers, Event.loses]
      omega
    · simp only [if_neg hle]
      refine ⟨⟨hm, h.rq, h.entry, h.wq, h.pq_rest hq⟩, fun x => ?_⟩
      simp [pending, Cache.popPq, Event.delivers, Event.loses]
  | @drop p rest buffer hq _ =>
    refine ⟨⟨hm, h.rq, h.entry, h.wq, h.pq_rest hq⟩, fun x => ?_⟩
    simp [pending, Cache.popPq]
  | @merge p rest i e buffer hq _ hf =>
    obtain ⟨hi, he, _⟩ := Mshr.checkMshr_some hf
    obtain ⟨hfe, hk⟩ := h.entry e (Mshr.mem_of_checkMshr hf)
    refine ⟨⟨hm, h.rq, h.entry_set ⟨hfe.instr, hfe.load, hfe.store⟩ hk, h.wq, h.pq_rest hq⟩,
      fun x => ?_⟩
    have hsum := waiting_set cfg x (Cache.lowerFillLevel p e) hi he
    have hw : waiting cfg x (Cache.lowerFillLevel p e) = waiting cfg x e := rfl
    rw [hw] at hsum
    simp only [pending, Cache.popPq, Mshr.entry_update, List.map_nil, List.sum_nil]
    omega

/-! ### Requests -/

/-- `add_rq` delivers a consumer at once, lets it wait in the RQ, or refuses it. -/
theorem Shape.rqStep (h : Shape cfg c) (hd : IsDemand cfg p) (hf : Fresh p)
    (hone : ∀ x, completions cfg p x + pending cfg c x ≤ 1) {r : Reply}
    (hs : Cache.RqStep cfg env c p r c' evs) :
    Shape cfg c' ∧ (∀ x, pending cfg c' x + (evs.map (Event.delivers cfg x)).sum +
      (evs.map (Event.loses cfg x)).sum =
        pending cfg c x + if r = .full then 0 else completions cfg p x) ∧
      ∀ r', .result r' ∉ evs := by
  cases hs with
  | @forward i w _ _ =>
    have ht : (Cache.forwarded cfg w p).type ≠ .prefetch := by
      rw [Cache.forwarded_type]
      exact hd.type_ne
    refine ⟨h.same rfl rfl rfl rfl, fun x => ?_, fun r' => by simp⟩
    have hfin := finishEvents_demand cfg x c.processed ht
    rw [completions_forwarded] at hfin
    simp only [List.map_append, List.sum_append, answer_delivers, answer_loses, reduceCtorEq,
      if_false, pending]
    omega
  | @merge i e _ hq =>
    obtain ⟨hi, he, ha⟩ := Slots.lookup_some hq
    have hmem : e ∈ c.rq := he ▸ List.getElem_mem hi
    obtain ⟨hde, hfe, h0⟩ := h.rq e hmem
    have hdm : IsDemand cfg (Cache.mergeConsumer p e) := hde.mergeConsumer
    have hm0 : (Cache.mergeConsumer p e).address ≠ 0 := by simpa using h0
    refine ⟨⟨h.mshr.frame rfl, fun q hq => ?_, h.entry, h.wq, h.pq⟩, fun x => ?_, fun r' => by simp⟩
    · rcases List.mem_or_eq_of_mem_set hq with hq | rfl
      · exact h.rq q hq
      · exact ⟨hdm, hfe.mergeConsumer, hm0⟩
    · have hsum := waiting_set cfg x (Cache.mergeConsumer p e) hi he
      have hle : waiting cfg x e ≤ (c.rq.map (waiting cfg x)).sum := waiting_le_sum hmem
      have h1 := hone x
      rw [hde.waiting h0] at hsum hle
      simp only [pending] at h1
      rw [hdm.waiting hm0, completions_mergeConsumer hd hf hfe (by omega)] at hsum
      simp only [pending, List.map_nil, List.sum_nil, reduceCtorEq, if_false]
      omega
  | full _ _ _ => exact ⟨h, fun x => by simp, fun r' => by simp⟩
  | append _ _ _ h0 =>
    refine ⟨⟨h.mshr.frame rfl, fun q hq => ?_, h.entry, h.wq, h.pq⟩, fun x => ?_, fun r' => by simp⟩
    · rcases List.mem_append.1 hq with hq | hq
      · exact h.rq q hq
      · obtain rfl := List.mem_singleton.1 hq
        exact ⟨hd, ⟨hf.flagged.instr, hf.flagged.load, hf.flagged.store⟩, h0⟩
    · have hw : waiting cfg x (Cache.enqueued cfg env p) = completions cfg p x :=
        hd.waiting (p := p) h0
      simp [pending, hw]
      omega

/-- `add_pq` touches no consumer. -/
theorem Shape.pqStep (h : Shape cfg c) (hct : cfg.cacheType = .l1d) (ht : p.type = .prefetch)
    (hf : Fresh p) {r : Reply} (hs : Cache.PqStep cfg env c p r c' evs) :
    Shape cfg c' ∧ Balanced cfg c c' evs := by
  cases hs with
  | forward _ => exact ⟨h, fun x => by simp⟩
  | @merge i e _ hq =>
    refine ⟨⟨h.mshr.frame rfl, h.rq, h.entry, h.wq, fun q hq' => ?_⟩, fun x => by simp [pending]⟩
    obtain ⟨hi, he, _⟩ := Slots.lookup_some hq
    rcases List.mem_or_eq_of_mem_set hq' with hq' | rfl
    · exact h.pq q hq'
    · obtain ⟨hce, hte, hfe⟩ := h.pq e (he ▸ List.getElem_mem hi)
      exact ⟨hce, hte, ⟨hfe.instrMerged, hfe.loadMerged, hfe.storeMerged, hfe.rob, hfe.lq, hfe.sq⟩⟩
  | full _ _ _ => exact ⟨h, fun x => by simp⟩
  | append _ _ _ _ =>
    refine ⟨⟨h.mshr.frame rfl, h.rq, h.entry, h.wq, fun q hq => ?_⟩, fun x => by simp [pending]⟩
    rcases List.mem_append.1 hq with hq | hq
    · exact h.pq q hq
    · obtain rfl := List.mem_singleton.1 hq
      exact ⟨hct, ht, ⟨hf.instrMerged, hf.loadMerged, hf.storeMerged, hf.rob, hf.lq, hf.sq⟩⟩

/-- `add_wq` touches no consumer. -/
theorem Shape.wqStep (h : Shape cfg c) (hct : cfg.cacheType = .l1d) (ht : p.type = .rfo)
    (hf : Fresh p) {r : Reply} (hs : Cache.WqStep cfg env c p r c') :
    Shape cfg c' ∧ Balanced cfg c c' [] := by
  cases hs with
  | merge _ => exact h.frame rfl rfl rfl rfl
  | append _ _ =>
    refine ⟨⟨h.mshr.frame rfl, h.rq, h.entry, fun q hq => ?_, h.pq⟩, fun x => by simp [pending]⟩
    rcases List.mem_append.1 hq with hq | hq
    · exact h.wq q hq
    · obtain rfl := List.mem_singleton.1 hq
      exact ⟨hct, ht, ⟨hf.instrMerged, hf.loadMerged, hf.storeMerged, hf.rob, hf.lq, hf.sq⟩⟩

/-- A step that is no `add_rq` delivers or loses exactly the consumers that no longer wait. -/
theorem Balanced.accepts (h : Balanced cfg c c' evs) {a : Action} (ha : ∀ p, a ≠ .addRq p)
    (x : Consumer) :
    pending cfg c' x + (evs.map (Event.delivers cfg x)).sum + (evs.map (Event.loses cfg x)).sum =
      pending cfg c x + Arishem.accepts cfg x ((env, a), evs) := by
  have h0 : Arishem.accepts cfg x ((env, a), evs) = 0 := by
    cases a with
    | addRq p => exact absurd rfl (ha p)
    | _ => rfl
  rw [h0]
  exact h x

/-- A request whose consumer does not wait yet makes no consumer wait twice. -/
theorem completions_add_pending_le (hone : ∀ x, pending cfg c x ≤ 1) (hd : IsDemand cfg p)
    (hf : Fresh p) (hown : pending cfg c (p.own cfg) = 0) (x : Consumer) :
    completions cfg p x + pending cfg c x ≤ 1 := by
  rw [completions_fresh hd hf]
  split
  · rename_i hx
    rw [hx, hown]
  · rw [Nat.zero_add]
    exact hone x

/-- The conservation law of a step. -/
theorem Shape.act (h : Shape cfg c) (hone : ∀ x, pending cfg c x ≤ 1) {a : Action}
    (hok : AsksOnce cfg c (env, a)) (hs : c.act cfg env a = some (c', evs)) :
    Shape cfg c' ∧ ∀ x, pending cfg c' x + (evs.map (Event.delivers cfg x)).sum +
      (evs.map (Event.loses cfg x)).sum = pending cfg c x + accepts cfg x ((env, a), evs) := by
  have hquiet : (∀ p, a ≠ .addRq p) → Shape cfg c' ∧ Balanced cfg c c' evs →
      Shape cfg c' ∧ ∀ x, pending cfg c' x + (evs.map (Event.delivers cfg x)).sum +
        (evs.map (Event.loses cfg x)).sum = pending cfg c x + accepts cfg x ((env, a), evs) :=
    fun ha hb => ⟨hb.1, hb.2.accepts ha⟩
  cases a with
  | addRq p =>
    obtain ⟨hd, hf, hown⟩ := hok
    obtain ⟨r, evs', hx, rfl⟩ := Cache.replied_some hs
    obtain ⟨hsh, hbal, hres⟩ :=
      h.rqStep hd hf (completions_add_pending_le hone hd hf hown) (Cache.addRq_cases hx)
    refine ⟨hsh, fun x => ?_⟩
    have hfull : (Event.result .full ∈ evs' ++ [Event.result r]) ↔ r = .full := by
      simp [hres .full, eq_comm]
    have hacc : accepts cfg x ((env, .addRq p), evs' ++ [Event.result r]) =
        if r = .full then 0 else completions cfg p x := if_congr hfull rfl rfl
    have hx := hbal x
    rw [hacc]
    simp only [List.map_append, List.sum_append, List.map_cons, List.map_nil, List.sum_cons,
      List.sum_nil, Event.delivers, Event.loses]
    omega
  | addWq p =>
    refine hquiet (by simp) ?_
    obtain ⟨hct, ht, hf⟩ := hok
    obtain ⟨r, evs', hx, rfl⟩ := Cache.replied_some hs
    obtain ⟨hw, rfl⟩ := Cache.addWq_cases hx
    obtain ⟨hsh, hbal⟩ := h.wqStep hct ht hf hw
    exact ⟨hsh, fun x => by simpa [Event.delivers, Event.loses] using hbal x⟩
  | addPq p =>
    refine hquiet (by simp) ?_
    obtain ⟨hct, ht, hf⟩ := hok
    obtain ⟨r, evs', hx, rfl⟩ := Cache.replied_some hs
    obtain ⟨hsh, hbal⟩ := h.pqStep hct ht hf (Cache.addPq_cases hx)
    exact ⟨hsh, fun x => by simpa [Event.delivers, Event.loses] using hbal x⟩
  | prefetchLine cpu ip pfAddr fill metadata =>
    refine hquiet (by simp) ?_
    simp only [Cache.act, Cache.prefetchLine] at hs
    split at hs
    · split at hs
      · cases hs
      · rename_i hx
        cases hs
        have hb : Shape cfg { c with stats := { c.stats with
          pfRequested := c.stats.pfRequested + 1 } } := h.same rfl rfl rfl rfl
        obtain ⟨hsh, hbal⟩ := hb.pqStep hok rfl ⟨rfl, rfl, rfl, rfl, rfl, rfl⟩ (Cache.addPq_cases hx)
        exact ⟨hsh.same rfl rfl rfl rfl, hbal⟩
    · cases hs
      exact h.frame rfl rfl rfl rfl
  | returnData p =>
    refine hquiet (by simp) ?_
    obtain ⟨c₁, hx, he⟩ := Option.map_eq_some_iff.1 hs
    cases he
    exact h.returnData hok hx
  | invalidateEntry a =>
    refine hquiet (by simp) ?_
    cases hs
    rw [Cache.invalidateEntry]
    split <;> exact h.frame rfl rfl rfl rfl
  | updateRob cpu =>
    refine hquiet (by simp) ?_
    cases hs
    rw [Cache.updateRob]
    split
    · exact h.frame rfl rfl rfl rfl
    · split <;> exact h.frame rfl rfl rfl rfl
  | handleFill => exact hquiet (by simp) (h.fillStep (Cache.handleFill_cases hs))
  | handleWriteback => exact hquiet (by simp) (h.writebackStep (Cache.handleWriteback_cases hs))
  | startReads =>
    refine hquiet (by simp) ?_
    cases hs
    exact h.frame rfl rfl rfl rfl
  | readOne => exact hquiet (by simp) (h.readStep hone (Cache.readOne_cases hs))
  | prefetchOne => exact hquiet (by simp) (h.prefetchStep (Cache.prefetchOne_cases hs))

end

/-! ## The conservation law of a run -/

section
variable {cfg : Config} {c : Cache} {x : Consumer}

/-- A step accepts no consumer that waits already. -/
theorem accepts_le (hone : ∀ x, pending cfg c x ≤ 1) {l : Env × Action} (os : List Event)
    (hok : AsksOnce cfg c l) (x : Consumer) : pending cfg c x + accepts cfg x (l, os) ≤ 1 := by
  rcases l with ⟨env, a⟩
  have hx := hone x
  cases a with
  | addRq p =>
    obtain ⟨hd, hf, hown⟩ := hok
    have hle := completions_add_pending_le hone hd hf hown x
    simp only [accepts]
    split <;> omega
  | _ => exact hx

/-- A run in which `PROCESSED` always has room loses nothing. -/
theorem lost_eq_zero {tr : Lts.Trace (Env × Action) Event}
    (hroom : ∀ s ∈ tr, ∀ e ∈ s.2, e.isDropped = false) : lost cfg tr x = 0 := by
  refine List.sum_eq_zero fun n hn => ?_
  obtain ⟨s, hs, rfl⟩ := List.mem_map.1 hn
  refine List.sum_eq_zero fun m hm => ?_
  obtain ⟨e, he, rfl⟩ := List.mem_map.1 hm
  cases e with
  | dropped p => exact absurd (hroom s hs _ he) (by simp [Event.isDropped])
  | _ => rfl

/-- Nothing waits where the RQ and the MSHR table are empty. -/
theorem Shape.pending_of_empty (h : Shape cfg c) (hrq : c.rq = []) (hocc : c.mshr.occupancy = 0) :
    pending cfg c x = 0 := by
  have hfree : ∀ e ∈ c.mshr.entry, e.address = 0 := by
    rw [h.mshr.ok.occupancy, List.countP_eq_zero] at hocc
    intro e he
    simpa using hocc e he
  rw [pending, hrq, List.map_nil, List.sum_nil, Nat.zero_add]
  refine List.sum_eq_zero fun n hn => ?_
  obtain ⟨e, he, rfl⟩ := List.mem_map.1 hn
  exact waiting_free (hfree e he)

end

/-- In every run each consumer was accepted as often as it was delivered, lost, or waits; and no
consumer waits twice. -/
theorem consumers_conserved {cfg : Config} {c : Cache} {tr : Lts.Trace (Env × Action) Event}
    (h : (cacheLts cfg).Run (AsksOnce cfg) c tr) :
    Shape cfg c ∧ ∀ x, pending cfg c x ≤ 1 ∧
      accepted cfg tr x = delivered cfg tr x + lost cfg tr x + pending cfg c x := by
  refine h.induct (P := fun c tr => Shape cfg c ∧ ∀ x, pending cfg c x ≤ 1 ∧
    accepted cfg tr x = delivered cfg tr x + lost cfg tr x + pending cfg c x) ?_ ?_
  · rintro s rfl
    have hsh : Shape cfg (Cache.init cfg) := by
      refine ⟨⟨Mshr.init_ok _ _, by simp [Cache.init, Mshr.init, Mshr.size]⟩,
        by simp [Cache.init], ?_, by simp [Cache.init], by simp [Cache.init]⟩
      intro e he
      obtain rfl := List.eq_of_mem_replicate he
      exact ⟨⟨fun _ => rfl, fun _ => rfl, fun _ => rfl⟩, by simp⟩
    refine ⟨hsh, fun x => ?_⟩
    have h0 : pending cfg (Cache.init cfg) x = 0 := by
      simp [pending, Cache.init, Mshr.init, waiting]
    simp [h0, accepted, delivered, lost]
  · rintro s tr ⟨env, a⟩ s' os _ ⟨hsh, hcons⟩ hok hs
    obtain ⟨hsh', hbal⟩ := hsh.act (fun x => (hcons x).1) hok hs
    refine ⟨hsh', fun x => ?_⟩
    obtain ⟨_, hlaw⟩ := hcons x
    have hx := hbal x
    have hnew := accepts_le (fun x => (hcons x).1) os hok x
    refine ⟨by omega, ?_⟩
    simp only [accepted, delivered, lost, List.map_append, List.sum_append, List.map_cons,
      List.map_nil, List.sum_cons, List.sum_nil] at hlaw ⊢
    omega

/-- `handle_fill` with an entry that is due and a victim that can go delivers or loses all that waits in
the entry. -/
theorem Shape.fill_delivers (h : Shape cfg c) {way : ℕ} (hd : Cache.Due cfg env c p)
    (hv : Cache.Victim cfg env c p way evs) :
    ∃ c' os, c.act cfg env .handleFill = some (c', os) ∧ ∀ x,
      (os.map (Event.delivers cfg x)).sum + (os.map (Event.loses cfg x)).sum = waiting cfg x p := by
  obtain ⟨v, hevict, hevents⟩ := hv.evicted
  refine ⟨(c.fillWay cfg env c.mshr.nextFillIndex (cfg.getSet p.address) way
    (Cache.withMetadata cfg env p)).1, _, ?_, h.fill_sum hd hv⟩
  show c.handleFill cfg env = _
  simp only [Cache.handleFill, hd.next, hd.cpu, if_false, hd.cycle, if_true, Cache.fillEntry,
    hv.found, hv.cached, hevict, hevents, hv.data, Bool.false_eq_true]

/-- A round of `handle_read` with a head that is due and hits delivers or loses all that waits in it. -/
theorem Shape.hit_delivers (h : Shape cfg c) {way : ℕ} {rest : List Packet} {buffer : List UInt64}
    (hq : c.rq = p :: rest) (hreads : c.readsAvailable ≠ 0) (hcpu : p.cpu ≠ cfg.numCpus)
    (hdue : p.eventCycle ≤ env.cycle p.cpu) (hhit : c.checkHit cfg p = (some way, buffer)) :
    ∃ c' os, c.act cfg env .readOne = some (c', os) ∧ ∀ x,
      (os.map (Event.delivers cfg x)).sum + (os.map (Event.loses cfg x)).sum = waiting cfg x p := by
  refine ⟨({ c with pageBuffer := buffer }.readHit cfg way p rest).1, _, ?_,
    h.hit_sum way buffer hq⟩
  show c.readOne cfg env = _
  simp only [Cache.readOne, hq, hreads, hcpu, or_self, if_false, hdue, if_true, hhit]

/-- After every run, an entry that is filled and a read that hits leave nobody behind. -/
theorem consumers_progress {cfg : Config} {c : Cache} {tr : Lts.Trace (Env × Action) Event}
    (h : (cacheLts cfg).Run (AsksOnce cfg) c tr) (env : Env) (p : Packet) (way : ℕ) :
    (∀ evs, Cache.Due cfg env c p → Cache.Victim cfg env c p way evs →
      ∃ c' os, c.act cfg env .handleFill = some (c', os) ∧ ∀ x,
        (os.map (Event.delivers cfg x)).sum + (os.map (Event.loses cfg x)).sum =
          waiting cfg x p) ∧
    ∀ rest buffer, c.rq = p :: rest → c.readsAvailable ≠ 0 → p.cpu ≠ cfg.numCpus →
      p.eventCycle ≤ env.cycle p.cpu → c.checkHit cfg p = (some way, buffer) →
      ∃ c' os, c.act cfg env .readOne = some (c', os) ∧ ∀ x,
        (os.map (Event.delivers cfg x)).sum + (os.map (Event.loses cfg x)).sum =
          waiting cfg x p := by
  have hsh := (consumers_conserved h).1
  exact ⟨fun _ hd hv => hsh.fill_delivers hd hv,
    fun _ _ hq hreads hcpu hdue hhit => hsh.hit_delivers hq hreads hcpu hdue hhit⟩

/-- Every merged consumer is delivered exactly once. In a run in which `PROCESSED` is never full when
an access is appended, a consumer occurs in the packets appended to `PROCESSED` as often as it was
accepted, except for the one time that it may still wait; it is never delivered more often than it
was requested; and once the RQ and the MSHR table are empty, nothing waits. -/
theorem consumers_delivered_once (cfg : Config) (c : Cache)
    (tr : Lts.Trace (Env × Action) Event) (h : (cacheLts cfg).Run (AsksOnce cfg) c tr)
    (hroom : ∀ s ∈ tr, ∀ e ∈ s.2, e.isDropped = false) (x : Consumer) :
    accepted cfg tr x = delivered cfg tr x + pending cfg c x ∧ pending cfg c x ≤ 1 ∧
      (c.rq = [] → c.mshr.occupancy = 0 → accepted cfg tr x = delivered cfg tr x) := by
  obtain ⟨hsh, hcons⟩ := consumers_conserved h
  obtain ⟨hone, hlaw⟩ := hcons x
  rw [lost_eq_zero hroom, Nat.add_zero] at hlaw
  refine ⟨hlaw, hone, fun hrq hocc => ?_⟩
  rw [hlaw, hsh.pending_of_empty hrq hocc, Nat.add_zero]

/-- A prefetch of line 7 is outstanding when two loads of the line are read, one after the other. -/
def mergedRun : List (Env × Action) :=
  [Action.addPq (prefetchOf 1 7 fillL1)].map (Env.calmAt 10, ·) ++
  [Action.startReads, .prefetchOne, .addRq (loadPacket 1 7 3)].map (Env.calmAt 15, ·) ++
  [Action.startReads, .readOne, .addRq (loadPacket 1 7 4)].map (Env.calmAt 20, ·) ++
  [Action.startReads, .readOne, .returnData (loadPacket 1 7 3)].map (Env.calmAt 25, ·) ++
  [Action.handleFill].map (Env.calmAt 30, ·)

/-- Two loads that are merged over a prefetch are delivered once each. -/
theorem consumers_delivered_once_merged : ∃ c tr,
    (cacheLts (l1dConfig 1)).Run (AsksOnce (l1dConfig 1)) c tr ∧
    ∀ x ∈ [Consumer.lq 3, .lq 4], accepted (l1dConfig 1) tr x = 1 ∧
      delivered (l1dConfig 1) tr x = 1 := by
  obtain ⟨c, tr, hr, hp⟩ := Lts.run_of_exec (cacheLts (l1dConfig 1)) (AsksOnce (l1dConfig 1))
    (fun c tr => (∀ s ∈ tr, ∀ e ∈ s.2, e.isDropped = false) ∧ c.rq = [] ∧
      c.mshr.occupancy = 0 ∧ ∀ x ∈ [Consumer.lq 3, .lq 4], accepted (l1dConfig 1) tr x = 1)
    mergedRun rfl (by decide +kernel)
  obtain ⟨hroom, hrq, hocc, haccepted⟩ := of_decide_eq_true hp
  refine ⟨c, tr, hr, fun x hx => ⟨haccepted x hx, ?_⟩⟩
  have hlaw := consumers_delivered_once (l1dConfig 1) c tr hr hroom x
  exact (hlaw.2.2 hrq hocc).symm.trans (haccepted x hx)

end Arishem
