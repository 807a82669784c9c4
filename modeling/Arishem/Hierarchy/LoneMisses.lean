import Arishem.Cache.LruOrder
import Arishem.Hierarchy.Translates

/-!
# A TLB with one miss

What a TLB does for one page while nothing else is asked: it takes the request, misses, gets the
answer and fills the page. The page is one below all those that the TLB holds, so it does miss; the
way that is filled exists because the ranks of each set are a permutation.
-/

namespace Arishem

/-! ## A table with one miss -/

namespace Mshr

/-- Nothing is outstanding. -/
structure Vacant (n s : ℕ) (m : Mshr) : Prop where
  entry : m.entry = List.replicate s (Packet.empty n)
  occupancy : m.occupancy = 0

/-- One miss is outstanding. -/
structure Lone (n s : ℕ) (e : Packet) (m : Mshr) : Prop where
  entry : m.entry = e :: List.replicate s (Packet.empty n)
  occupancy : m.occupancy = 1

/-- The miss `e` after the answer `p`. -/
def answered (due : Cycle) (p e : Packet) : Packet :=
  { e with returned := .completed, data := p.data, pfMetadata := p.pfMetadata, eventCycle := due }

section
variable {n s : ℕ} {m : Mshr} {e p : Packet} {a : Addr} {due : Cycle}

theorem Vacant.init : Vacant n s (Mshr.init n s) := ⟨rfl, rfl⟩

theorem Vacant.checkMshr (h : Vacant n s m) (ha : a ≠ 0) : m.checkMshr a = none := by
  refine checkMshr_none.2 fun p hp => ?_
  rw [h.entry] at hp
  rw [List.eq_of_mem_replicate hp]
  exact ha.symm

theorem Vacant.addMshr (h : Vacant n (s + 1) m) :
    Lone n s { p with returned := .inflight } (m.addMshr p) := by
  have hfree : m.checkMshr 0 = some (0, Packet.empty n) := by
    rw [Mshr.checkMshr, h.entry, List.replicate_succ, Slots.lookup]
    rfl
  rw [addMshr_of_free hfree]
  exact ⟨by simp [h.entry, List.replicate_succ], by simp [h.occupancy]⟩

theorem Lone.checkMshr (h : Lone n s e m) : m.checkMshr e.address = some (0, e) := by
  rw [Mshr.checkMshr, h.entry, Slots.lookup, if_pos (beq_self_eq_true _)]

/-- The scan for the next fill passes over free slots. -/
theorem firstMin_replicate (acc : Cycle × ℕ) (k : ℕ) : Slots.firstMin
    (fun p : Packet => p.returned == .completed) (·.eventCycle)
    (List.replicate s (Packet.empty n)) k acc = acc := by
  induction s generalizing k with
  | zero => rfl
  | succ s ih =>
    rw [List.replicate_succ, Slots.firstMin, if_neg (by simp), ih]

theorem Lone.complete (h : Lone n s e m) (hdue : due < uint64Max) :
    Lone n s (answered due p e) (m.complete 0 e p due) ∧
      (m.complete 0 e p due).nextFill = some (answered due p e) ∧
      (m.complete 0 e p due).nextFillIndex = 0 ∧ (m.complete 0 e p due).nextFillCycle = due := by
  have hentry : (m.complete 0 e p due).entry =
      answered due p e :: List.replicate s (Packet.empty n) := by
    rw [entry_complete, h.entry, List.set_cons_zero, answered]
  have hscan : Slots.firstMin (fun p : Packet => p.returned == .completed) (·.eventCycle)
      (m.complete 0 e p due).entry 0 (uint64Max, (m.complete 0 e p due).size) = (due, 0) := by
    rw [hentry, Slots.firstMin, if_pos ⟨rfl, hdue⟩, firstMin_replicate, answered]
  have hindex : (m.complete 0 e p due).nextFillIndex = 0 := congrArg Prod.snd hscan
  refine ⟨⟨hentry, h.occupancy⟩, ?_, hindex, congrArg Prod.fst hscan⟩
  rw [nextFill, hindex, hentry, List.getElem?_cons_zero]

theorem Lone.remove (h : Lone n s e m) : Vacant n (s + 1) (m.remove n 0) := by
  refine ⟨?_, ?_⟩
  · rw [entry_remove, h.entry, List.set_cons_zero, List.replicate_succ]
  · show m.occupancy - 1 = 0
    rw [h.occupancy]

end

end Mshr

/-! ## A TLB that works on one page -/

/-- A TLB with these requests, no dirty block, and no page below `b`. -/
structure Ready (cfg : Config) (b : Addr) (rq : List Packet) (c : Cache) : Prop where
  rq : c.rq = rq
  wq : c.wq = []
  clean : ∀ s w, (c.block s w).dirty = false
  ranked : ∀ set, Ranks.Ranked cfg.numWay (c.rank set)
  above : ∀ s w, (c.block s w).valid = true → b ≤ (c.block s w).tag

section
variable {cfg : Config} {env : Env} {b : Addr} {rq : List Packet} {c : Cache} {p e : Packet}
variable {s : ℕ}

theorem Ready.init : Ready cfg b [] (Cache.init cfg) :=
  ⟨rfl, rfl, fun _ _ => rfl, fun _ => Ranks.Ranked.id cfg.numWay, fun _ _ hv => by cases hv⟩

/-- A TLB with the same blocks. -/
theorem Ready.frame {c' : Cache} {rq' : List Packet} (h : Ready cfg b rq c) (hr : c'.rq = rq')
    (hw : c'.wq = c.wq) (hb : c'.block = c.block) : Ready cfg b rq' c' := by
  refine ⟨hr, hw.trans h.wq, hb ▸ h.clean, fun set => ?_, hb ▸ h.above⟩
  have hrank : c'.rank set = c.rank set := by
    funext w
    rw [Cache.rank, Cache.rank, hb]
  rw [hrank]
  exact h.ranked set

/-- `add_rq`. -/
theorem Ready.addRq (h : Ready cfg b [] c) (env : Env) (hsize : 0 < cfg.rqSize)
    (h0 : p.address ≠ 0) : ∃ c', c.act cfg env (.addRq p) = some (c', [.result .accepted]) ∧
      Ready cfg b [Cache.enqueued cfg env p] c' ∧ c'.mshr = c.mshr ∧ c'.block = c.block := by
  refine ⟨{ c with rq := [Cache.enqueued cfg env p] }, ?_, h.frame rfl rfl rfl, rfl, rfl⟩
  have hfull : ¬ 0 = cfg.rqSize := hsize.ne
  have hwq : Cache.checkWq cfg p c.wq = none := by
    rw [h.wq]
    rfl
  have hrq : Cache.checkQueue p.address [] = none := rfl
  simp [Cache.act, Cache.replied, Cache.addRq, hwq, hrq, h.rq, hfull, h0]

/-- The start of `handle_read`. -/
theorem Ready.startReads (h : Ready cfg b rq c) (env : Env) :
    ∃ c', c.act cfg env .startReads = some (c', []) ∧ Ready cfg b rq c' ∧ c'.mshr = c.mshr ∧
      c'.readsAvailable = cfg.maxRead ∧ c'.block = c.block :=
  ⟨c.startReads cfg, rfl, h.frame h.rq rfl rfl, rfl, rfl, rfl⟩

/-- A page below all others misses. -/
theorem Ready.checkHit (h : Ready cfg b rq c) (ht : cfg.isTlb = true) (hlt : p.address < b) :
    c.checkHit cfg p = (none, c.pageBuffer) := by
  have hmiss : c.findWay cfg p.address = none := Cache.findWay_none.2 fun w _ hv ha =>
    absurd (h.above _ w hv) (by rw [ha]; exact not_le.2 hlt)
  rw [checkHit_tlb ht, hmiss]

/-- A round of `handle_read` that misses. -/
theorem Ready.readOne (h : Ready cfg b [p] c) (ht : cfg.isTlb = true) (hlt : p.address < b)
    (h0 : p.address ≠ 0) (hm : Mshr.Vacant cfg.numCpus cfg.mshrSize c.mshr)
    (hsize : 0 < cfg.mshrSize) (hreads : c.readsAvailable ≠ 0) (hcpu : p.cpu ≠ cfg.numCpus)
    (hdue : p.eventCycle ≤ env.cycle p.cpu) :
    c.walking cfg env = some p ∧ ∃ buffer,
      c.readOne cfg env = { c with pageBuffer := buffer }.readNew cfg env p [] := by
  have hllc : cfg.cacheType ≠ .llc := fun hllc => by
    rw [Config.isTlb, hllc] at ht
    cases ht
  have hocc : c.mshr.occupancy < cfg.mshrSize := by
    rw [hm.occupancy]
    exact hsize
  have hwalk : c.walking cfg env = some p := Cache.walking_eq h.rq ⟨hreads, hcpu, hdue⟩
    (h.checkHit ht hlt) (hm.checkMshr h0) hocc
  obtain ⟨rest, buffer, hq, -, hone⟩ := Cache.walking_some hwalk hllc
  obtain ⟨-, rfl⟩ := List.cons.inj (h.rq.symm.trans hq)
  exact ⟨hwalk, buffer, hone⟩

end

/-- The packet asks for an instruction page of the core and is due by the cycle `n`. -/
structure Asks (cpu : ℕ) (a : Addr) (n : ℕ) (p : Packet) : Prop where
  cpu : p.cpu = cpu
  address : p.address = a
  fullAddr : p.fullAddr = a <<< log2PageSize
  fillLevel : p.fillLevel = fillL1
  instruction : p.instruction = true
  type : p.type = .load
  event : p.eventCycle.toNat ≤ n

/-- A latency is added to a cycle and an event that are not later than `n`. -/
theorem addLatency_le {latency now event : Cycle} {n : ℕ} (hnow : now.toNat ≤ n)
    (hevent : event.toNat ≤ n) : (addLatency latency now event).toNat ≤ n + latency.toNat := by
  rw [addLatency]
  split
  · rw [UInt64.toNat_add]
    omega
  · rw [UInt64.toNat_add]
    omega

section
variable {cfg : Config} {env : Env} {b a : Addr} {rq : List Packet} {c : Cache} {p e : Packet}
variable {s n cpu : ℕ}

/-- The packet enters a queue. -/
theorem Asks.enqueued (h : Asks cpu a n p) (cfg : Config) (hnow : (env.cycle cpu).toNat ≤ n) :
    Asks cpu a (n + cfg.latency.toNat) (Cache.enqueued cfg env p) :=
  ⟨h.cpu, h.address, h.fullAddr, h.fillLevel, h.instruction, h.type,
    addLatency_le (h.cpu ▸ hnow) h.event⟩

theorem Asks.mono {n' : ℕ} (h : Asks cpu a n p) (hn : n ≤ n') : Asks cpu a n' p :=
  ⟨h.cpu, h.address, h.fullAddr, h.fillLevel, h.instruction, h.type, h.event.trans hn⟩

/-- The packet is due. -/
theorem Asks.due (h : Asks cpu a n p) (hnow : n ≤ (env.cycle cpu).toNat) :
    p.eventCycle ≤ env.cycle p.cpu := by
  rw [UInt64.le_iff_toNat_le, h.cpu]
  exact h.event.trans hnow

/-- A miss is sent below. -/
theorem Ready.miss (h : Ready cfg b [p] c) (env : Env) (hp : Asks cpu a n p) (ht : cfg.isTlb = true)
    (hlt : a < b) (h0 : a ≠ 0) (hm : Mshr.Vacant cfg.numCpus cfg.mshrSize c.mshr)
    (hsize : cfg.mshrSize = s + 1) (hreads : c.readsAvailable ≠ 0) (hcpu : cpu ≠ cfg.numCpus)
    (hnow : n ≤ (env.cycle cpu).toNat) (hlow : cfg.hasLower = true) :
    ∃ c' q e, c.act cfg env .readOne = some (c', [.lowerAddRq q]) ∧ Ready cfg b [] c' ∧
      Asks cpu a n q ∧ Asks cpu a n e ∧ Mshr.Lone cfg.numCpus s e c'.mshr ∧
      c'.block = c.block := by
  obtain ⟨-, buffer, hone⟩ := h.readOne ht (hp.address ▸ hlt) (hp.address ▸ h0) hm (by omega)
    hreads (hp.cpu ▸ hcpu) (hp.due hnow)
  rw [hsize] at hm
  have hasks : Asks cpu a n (Cache.stamped env p) := ⟨hp.1, hp.2, hp.3, hp.4, hp.5, hp.6, hp.7⟩
  refine ⟨{ c with pageBuffer := buffer, mshr := c.mshr.addMshr (Cache.stamped env p) }.popRq [],
    Cache.stamped env p, { Cache.stamped env p with returned := .inflight }, ?_,
    h.frame rfl rfl rfl, hasks, ⟨hp.1, hp.2, hp.3, hp.4, hp.5, hp.6, hp.7⟩, hm.addMshr, rfl⟩
  show c.readOne cfg env = _
  rw [hone, Cache.readNew, if_pos hlow]

/-- The table holds one answered miss, which is the next to be filled. -/
structure AnsweredMiss (cfg : Config) (s : ℕ) (e : Packet) (c : Cache) : Prop where
  lone : Mshr.Lone cfg.numCpus s e c.mshr
  next : c.mshr.nextFill = some e
  index : c.mshr.nextFillIndex = 0
  cycle : c.mshr.nextFillCycle = e.eventCycle

/-- The answer to the only miss. -/
theorem Ready.returnData (h : Ready cfg b rq c) (env : Env) (hm : Mshr.Lone cfg.numCpus s e c.mshr)
    (he : Asks cpu a n e) (ha : p.address = a) (hcpu : p.cpu = cpu)
    (hnow : (env.cycle cpu).toNat ≤ n) (hn : n + cfg.latency.toNat < 2 ^ 64 - 1) :
    ∃ c' e', c.returnData cfg env p = some c' ∧ Ready cfg b rq c' ∧
      Asks cpu a (n + cfg.latency.toNat) e' ∧ e'.data = p.data ∧ AnsweredMiss cfg s e' c' := by
  set due := addLatency cfg.latency (env.cycle p.cpu) e.eventCycle with hdue
  have hle : due.toNat ≤ n + cfg.latency.toNat :=
    addLatency_le (hcpu ▸ hnow) he.event
  have hmax : due < uint64Max := by
    have hmax : uint64Max.toNat = 2 ^ 64 - 1 := by decide
    rw [UInt64.lt_iff_toNat_lt]
    omega
  obtain ⟨hlone, hnext, hindex, hcycle⟩ := hm.complete (p := p) hmax
  refine ⟨{ c with mshr := c.mshr.complete 0 e p due }, Mshr.answered due p e, ?_,
    h.frame h.rq rfl rfl, ⟨he.1, he.2, he.3, he.4, he.5, he.6, hle⟩, rfl,
    ⟨hlone, hnext, hindex, hcycle⟩⟩
  rw [Cache.returnData, ha, ← he.address, hm.checkMshr]

/-- A page walk of the STLB. -/
theorem Ready.walk (h : Ready cfg b [p] c) (env : Env) (hp : Asks cpu a n p) (ht : cfg.cacheType = .stlb)
    (hlt : a < b) (h0 : a ≠ 0) (hm : Mshr.Vacant cfg.numCpus cfg.mshrSize c.mshr)
    (hsize : cfg.mshrSize = s + 1) (hreads : c.readsAvailable ≠ 0) (hcpu : cpu ≠ cfg.numCpus)
    (hnow : (env.cycle cpu).toNat = n) (hlow : cfg.hasLower = false)
    (hn : n + cfg.latency.toNat < 2 ^ 64 - 1) :
    ∃ c' e, c.act cfg env .readOne = some (c', []) ∧ Ready cfg b [] c' ∧
      Asks cpu a (n + cfg.latency.toNat) e ∧ e.data = env.physicalAddress >>> log2PageSize ∧
      AnsweredMiss cfg s e c' := by
  have htlb : cfg.isTlb = true := by
    rw [Config.isTlb, ht]
  obtain ⟨-, buffer, hone⟩ := h.readOne htlb (hp.address ▸ hlt) (hp.address ▸ h0) hm (by omega)
    hreads (hp.cpu ▸ hcpu) (hp.due hnow.ge)
  rw [hsize] at hm
  set q : Packet := { Cache.stamped env p with
    data := env.physicalAddress >>> log2PageSize, eventCycle := env.cycle p.cpu } with hq
  set c₁ : Cache :=
    { c with pageBuffer := buffer, mshr := c.mshr.addMshr (Cache.stamped env p) } with hc₁
  have hready : Ready cfg b [p] c₁ := h.frame h.rq rfl rfl
  have hentry : Asks cpu a n { Cache.stamped env p with returned := .inflight } :=
    ⟨hp.1, hp.2, hp.3, hp.4, hp.5, hp.6, hp.7⟩
  obtain ⟨c₂, e, hret, hready₂, he, hdata, hanswered⟩ := hready.returnData (p := q) env
    (hm.addMshr (p := Cache.stamped env p)) hentry hp.address hp.cpu hnow.le hn
  refine ⟨c₂.popRq [], e, ?_, hready₂.frame rfl rfl rfl, he, hdata,
    hanswered.1, hanswered.2, hanswered.3, hanswered.4⟩
  show c.readOne cfg env = _
  rw [hone]
  simp only [Cache.readNew, hlow, Bool.false_eq_true, if_false, ht, if_true]
  split
  · rename_i hx
    cases hret.symm.trans hx
  · rename_i c₃ hx
    obtain rfl : c₂ = c₃ := Option.some.inj (hret.symm.trans hx)
    rfl

end

/-- The page is in one block of a TLB, which the search for it finds. -/
def HoldsPage (cfg : Config) (a : Addr) (c : Cache) : Prop :=
  ∃ way, c.findWay cfg a = some way ∧
    ∀ s w, (c.block s w).valid = true → (c.block s w).tag = a → s = cfg.getSet a ∧ w = way

section
variable {cfg : Config} {env : Env} {b a : Addr} {c : Cache} {p e : Packet}
variable {s n cpu set way : ℕ}

/-- The ranks after a fill are those of a touch. -/
theorem rank_install (ht : cfg.cacheType ≠ .llc) : ∀ set' : ℕ,
    (c.install cfg set way p).rank set' =
      if set' = set then Ranks.touch cfg.numWay way (c.rank set) else c.rank set' := by
  intro set'
  funext w
  have hlru : ((c.install cfg set way p).block set' w).lru =
      (Cache.updateReplacementState cfg set way p.type false c.block set' w).lru := by
    simp only [Cache.install, Cache.fillCache, Cache.setBlock]
    split
    · rename_i hw
      rw [hw.1, hw.2]
      rfl
    · rfl
  rw [Cache.rank, hlru, Cache.updateReplacementState, if_neg (by simp [ht]), Cache.lruUpdate_lru]
  split <;> rfl

theorem HoldsPage.of_block {c' : Cache} (h : HoldsPage cfg a c) (hb : c'.block = c.block) :
    HoldsPage cfg a c' := by
  obtain ⟨way, hfind, honly⟩ := h
  have hfind' : c'.findWay cfg a = some way := by
    rw [← hfind, Cache.findWay, Cache.findWay, hb]
  exact ⟨way, hfind', hb ▸ honly⟩

/-- The only block of a page is the one that the search finds. -/
theorem holdsPage_of_only (hlt : way < cfg.numWay) (hv : (c.block (cfg.getSet a) way).valid = true)
    (htag : (c.block (cfg.getSet a) way).tag = a)
    (honly : ∀ s w, (c.block s w).valid = true → (c.block s w).tag = a →
      s = cfg.getSet a ∧ w = way) : HoldsPage cfg a c := by
  cases hf : c.findWay cfg a with
  | none => exact absurd htag (Cache.findWay_none.1 hf way hlt hv)
  | some w =>
    obtain ⟨-, hv', htag'⟩ := Cache.findWay_some hf
    obtain ⟨-, rfl⟩ := honly _ w hv' htag'
    exact ⟨w, hf, honly⟩

/-- `handle_fill` of the only miss. -/
theorem Ready.fill (h : Ready cfg b [] c) (env : Env) (ha : AnsweredMiss cfg s e c) (he : Asks cpu a n e)
    (ht : cfg.isTlb = true) (hway : 1 ≤ cfg.numWay) (hab : a < b) (hdata : e.data ≠ 0)
    (hsize : cfg.mshrSize = s + 1) (hcpu : cpu ≠ cfg.numCpus)
    (hnow : n ≤ (env.cycle cpu).toNat) :
    ∃ c' evs, c.act cfg env .handleFill = some (c', evs) ∧ Ready cfg a [] c' ∧
      Mshr.Vacant cfg.numCpus cfg.mshrSize c'.mshr ∧ HoldsPage cfg a c' ∧
      evs.filterMap Event.below = [] ∧
      evs.filterMap Event.above = if fillL1 < cfg.fillLevel then [.above e] else [] := by
  have hllc : cfg.cacheType ≠ .llc := fun hllc => by
    rw [Config.isTlb, hllc] at ht
    cases ht
  have hl1d : cfg.cacheType ≠ .l1d := fun hl1d => by
    rw [Config.isTlb, hl1d] at ht
    cases ht
  obtain ⟨way, hlt, hvictim, -⟩ := lruVictim_of_ranked (h.ranked (cfg.getSet e.address)) hway
  have hfind : c.findVictim cfg env (cfg.getSet e.address) = some way := by
    rw [Cache.findVictim, if_neg hllc, hvictim]
  have hevict : c.evict cfg env (cfg.getSet e.address) way e = some .clean := by
    simp [Cache.evict, h.clean]
  have hrefused : Cache.fillRefused cfg e = false := by
    simp [Cache.fillRefused, hdata]
  have hrfo (bs : ℕ → ℕ → Block) (set way : ℕ) : Cache.markRfo cfg set way e bs = bs := by
    rw [Cache.markRfo, if_neg fun hr => hl1d hr.1]
  have hentry : c.fillEntry cfg env 0 e =
      some (c.fillWay cfg env 0 (cfg.getSet e.address) way e) := by
    simp [Cache.fillEntry, hfind, hllc, hevict, Cache.Eviction.events, withMetadata_tlb ht,
      hrefused]
  have hfill : c.handleFill cfg env =
      some (c.fillWay cfg env 0 (cfg.getSet e.address) way e) := by
    rw [Cache.handleFill, ha.next]
    simp only [he.cpu, hcpu, if_false]
    rw [if_pos (by rw [ha.cycle, ← he.cpu]; exact he.due hnow), ha.index, hentry]
  refine ⟨(c.fillWay cfg env 0 (cfg.getSet e.address) way e).1,
    (c.fillWay cfg env 0 (cfg.getSet e.address) way e).2, hfill, ⟨h.rq, h.wq, ?_, ?_, ?_⟩, ?_,
    holdsPage_of_only hlt ?_ ?_ ?_, ?_, ?_⟩
  all_goals simp only [Cache.fillWay, Cache.releaseMshr, hrfo]
  · intro s w
    rw [Cache.install_dirty]
    split_ifs
    · rfl
    · exact h.clean s w
  · intro set'
    show Ranks.Ranked cfg.numWay ((c.install cfg (cfg.getSet e.address) way e).rank set')
    rw [rank_install hllc]
    split
    · exact (h.ranked _).touch hlt
    · exact h.ranked set'
  · intro s w hv
    rw [Cache.install_valid] at hv
    rw [Cache.install_tag]
    split_ifs at hv ⊢
    · exact he.address.ge
    · exact hab.le.trans (h.above s w hv)
  · rw [hsize]
    exact ha.lone.remove
  · rw [← he.address, Cache.install_valid, if_pos ⟨rfl, rfl⟩]
  · rw [← he.address, Cache.install_tag, if_pos ⟨rfl, rfl⟩]
  · intro s w hv htag
    rw [Cache.install_valid] at hv
    rw [Cache.install_tag] at htag
    split_ifs at hv htag with hsw
    · rwa [← he.address]
    · exact absurd (h.above s w hv) (not_le.2 (htag ▸ hab))
  · rw [List.filterMap_append, Cache.answer, Cache.finishEvents]
    split_ifs <;> rfl
  · rw [List.filterMap_append, Cache.answer, Cache.finishEvents, he.fillLevel]
    split_ifs <;> rfl

end

end Arishem
