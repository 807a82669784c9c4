import Arishem.Cache.Processed

/-!
# A stream of stores through the L1D

A core retires one store to a new line in each cycle. The store waits out the latency of the L1D in
the write queue, misses, and its line, which the lower level sends at once, is filled another latency
later. In the steady state one line is filled in each cycle, so the stream alone puts one access a
cycle into `PROCESSED`, which is what `update_rob` takes out of it. Loads that the write queue answers
come on top, and `PROCESSED` grows by one for each of them.
-/

namespace Arishem

/-- The clock of the stream at cycle `t`. -/
def clock (t : ℕ) : Env := Env.calm (UInt64.ofNat (t % 4096)) (by
  rw [UInt64.lt_iff_toNat_lt, UInt64.toNat_ofNat']
  have hmax : uint64Max.toNat = 2 ^ 64 - 1 := by decide
  omega)

/-- The line of the `s`-th store. -/
def line (s : ℕ) : Addr := UInt64.ofNat (256 + s)

/-- The `s`-th store, which retires at cycle `s`. -/
def streamStore (s : ℕ) : Packet :=
  { Packet.empty 1 with
    fillLevel := fillL1, cpu := 0, address := line s, fullAddr := line s <<< log2BlockSize,
    type := .rfo, eventCycle := UInt64.ofNat s }

/-- The `s`-th store in the write queue. -/
def queuedStore (s : ℕ) : Packet := { streamStore s with eventCycle := UInt64.ofNat (s + 5) }

/-- The `s`-th store in the MSHR table, with its line. -/
def returnedStore (s : ℕ) : Packet :=
  { streamStore s with
    eventCycle := UInt64.ofNat (s + 10), cycleEnqueued := UInt64.ofNat (s + 5),
    returned := .completed }

/-- A load at cycle `t` from the address of the `s`-th store. -/
def streamLoad (s t n : ℕ) : Packet :=
  { loadPacket 1 (line s) n with eventCycle := UInt64.ofNat t }

/-- The L1D in the stream: the stores `f` to `a - 1` are in the MSHR table, the stores `a` to `b - 1`
are in the write queue, and the earlier ones are filled, way after way. -/
structure Stage (f a b : ℕ) (c : Cache) : Prop where
  mshr : MshrOk (l1dConfig 1) c
  rq : c.rq = []
  wq : c.wq = (List.range' a (b - a)).map queuedStore
  entries : ∀ e ∈ c.mshr.entry, e.address ≠ 0 → ∃ s, f ≤ s ∧ s < a ∧ e = returnedStore s
  present : ∀ s, f ≤ s → s < a → returnedStore s ∈ c.mshr.entry
  occupancy : c.mshr.occupancy = a - f
  valid : ∀ set < 256, ∀ way < 12,
    (c.block set way).valid = true ↔ 256 * way + set < f
  tag : ∀ set < 256, ∀ way < 12, (c.block set way).valid = true →
    (c.block set way).tag = line (256 * way + set)

section
variable {f a b s t n : ℕ} {c : Cache}

/-! ## Words -/

theorem ofNat_le_iff {m n : ℕ} (hm : m < 4096) (hn : n < 4096) :
    UInt64.ofNat m ≤ UInt64.ofNat n ↔ m ≤ n := by
  rw [UInt64.le_iff_toNat_le, UInt64.toNat_ofNat', UInt64.toNat_ofNat']
  omega

theorem ofNat_inj {m n : ℕ} (hm : m < 4096 + 256) (hn : n < 4096 + 256)
    (h : UInt64.ofNat m = UInt64.ofNat n) : m = n := by
  have hnat := congrArg UInt64.toNat h
  rw [UInt64.toNat_ofNat', UInt64.toNat_ofNat'] at hnat
  omega

theorem line_inj {m n : ℕ} (hm : m < 4096) (hn : n < 4096) (h : line m = line n) : m = n := by
  have := ofNat_inj (by omega) (by omega) h
  omega

/-- Stores to different lines have different addresses. -/
theorem fullAddr_inj {m n : ℕ} (hm : m < 4096) (hn : n < 4096)
    (h : line m <<< log2BlockSize = line n <<< log2BlockSize) : m = n := by
  have hnat := congrArg UInt64.toNat h
  have hlog : log2BlockSize.toNat % 64 = 6 := by decide
  rw [UInt64.toNat_shiftLeft, UInt64.toNat_shiftLeft, hlog, Nat.shiftLeft_eq, Nat.shiftLeft_eq,
    line, line, UInt64.toNat_ofNat', UInt64.toNat_ofNat'] at hnat
  omega

theorem line_ne_zero (hs : s < 4096) : line s ≠ 0 := by
  intro h
  have := ofNat_inj (m := 256 + s) (n := 0) (by omega) (by omega) h
  omega

theorem clock_cycle (ht : t < 4096) (cpu : ℕ) : (clock t).cycle cpu = UInt64.ofNat t := by
  show UInt64.ofNat (t % 4096) = UInt64.ofNat t
  rw [Nat.mod_eq_of_lt ht]

theorem ofNat_lt_max (ht : t < 4096) : UInt64.ofNat t < uint64Max := by
  rw [UInt64.lt_iff_toNat_lt, UInt64.toNat_ofNat']
  have hmax : uint64Max.toNat = 2 ^ 64 - 1 := by decide
  omega

theorem addLatency_clock (t : ℕ) :
    addLatency 5 (UInt64.ofNat t) (UInt64.ofNat t) = UInt64.ofNat (t + 5) := by
  rw [addLatency, if_neg (lt_irrefl _), UInt64.ofNat_add]
  rfl

/-- The set of a line. -/
theorem getSet_line (s : ℕ) : (l1dConfig 1).getSet (line s) = s % 256 := by
  have hlog : Nat.log2 256 = 8 := by decide
  have hset : (l1dConfig 1).getSet (line s) = (line s).toNat &&& (2 ^ 8 - 1) := by
    show (line s).toNat &&& ((1 <<< Nat.log2 256) - 1) = _
    rw [hlog, Nat.one_shiftLeft]
  rw [hset, Nat.and_two_pow_sub_one_eq_mod, line, UInt64.toNat_ofNat']
  omega

/-! ## The queues of the stream -/

/-- The write queue from its head on. -/
theorem Stage.wq_cons (h : Stage f a b c) (hab : a < b) :
    c.wq = queuedStore a :: (List.range' (a + 1) (b - (a + 1))).map queuedStore := by
  obtain ⟨k, hk⟩ : ∃ k, b - a = k + 1 := ⟨b - a - 1, by omega⟩
  have hk' : b - (a + 1) = k := by omega
  rw [h.wq, hk, hk', List.range'_succ, List.map_cons]

/-- The line of a store that waits in the write queue is not cached. -/
theorem Stage.miss (h : Stage f a b c) (hfs : f ≤ s) (hs : s < 3072) :
    c.checkHit (l1dConfig 1) (queuedStore s) = (none, c.pageBuffer) := by
  have hway : c.findWay (l1dConfig 1) (line s) = none := by
    rw [Cache.findWay_none, getSet_line]
    intro w hw hv ht
    have hw' : w < 12 := hw
    have hlt : 256 * w + s % 256 < f := (h.valid _ (by omega) w hw').1 hv
    rw [h.tag _ (by omega) w hw' hv] at ht
    have := line_inj (by omega) (by omega) ht
    omega
  show (c.findWay (l1dConfig 1) (line s), c.pageBuffer) = _
  rw [hway]

/-! ## The steps of the stream -/

/-- A store retires. -/
theorem Stage.enter (h : Stage f a b c) (ht : b < 4000) (hab : a ≤ b) (hroom : b - a < 64) :
    ∃ c' os, (cacheLts (l1dConfig 1)).step c (clock b, .addWq (streamStore b)) = some (c', os) ∧
      Stage f a (b + 1) c' ∧ c'.processed = c.processed := by
  have hnew : Cache.checkWq (l1dConfig 1) (streamStore b) c.wq = none := by
    refine Slots.lookup_none.2 fun e he => ?_
    rw [h.wq] at he
    obtain ⟨s, hs, rfl⟩ := List.mem_map.1 he
    obtain ⟨_, hlt⟩ := List.mem_range'_1.1 hs
    have hne : line s <<< log2BlockSize ≠ line b <<< log2BlockSize := fun heq => by
      have := fullAddr_inj (by omega) (by omega) heq
      omega
    show (line s <<< log2BlockSize == line b <<< log2BlockSize) = false
    simpa using hne
  have hq : Cache.enqueued (l1dConfig 1) (clock b) (streamStore b) = queuedStore b := by
    have hlat : addLatency 5 ((clock b).cycle 0) (UInt64.ofNat b) = UInt64.ofNat (b + 5) := by
      rw [clock_cycle (by omega), addLatency_clock]
    show { streamStore b with
      eventCycle := addLatency 5 ((clock b).cycle 0) (UInt64.ofNat b) } = queuedStore b
    rw [hlat]
    rfl
  have hlen : ¬ c.wq.length ≥ (l1dConfig 1).wqSize := by
    rw [h.wq, List.length_map, List.length_range']
    show ¬ b - a ≥ 64
    omega
  refine ⟨{ c with wq := c.wq ++ [queuedStore b] }, [.result .accepted], ?_, ?_, rfl⟩
  · show Cache.replied (c.addWq (l1dConfig 1) (clock b) (streamStore b)) = _
    rw [Cache.addWq, hnew]
    simp only [if_neg hlen, hq]
    rfl
  · refine ⟨h.mshr.frame rfl, h.rq, ?_, h.entries, h.present, h.occupancy, h.valid, h.tag⟩
    show c.wq ++ [queuedStore b] = _
    have hsucc : b + 1 - a = (b - a) + 1 := by omega
    have hlast : a + (b - a) = b := by omega
    rw [h.wq, hsucc, List.range'_1_concat, List.map_append, hlast]
    rfl

/-- The line of the store at the head of the write queue is not outstanding. -/
theorem Stage.absent (h : Stage f a b c) (ha : a < 4000) :
    c.mshr.checkMshr (line a) = none := by
  refine Mshr.checkMshr_none.2 fun e he hea => ?_
  have h0 : e.address ≠ 0 := by
    rw [hea]
    exact line_ne_zero (by omega)
  obtain ⟨s, _, hs, rfl⟩ := h.entries e he h0
  have := line_inj (by omega) (by omega) (show line s = line a from hea)
  omega

/-- The store at the head of the write queue misses. -/
theorem Stage.rfoMiss (h : Stage f a b c) (hab : a < b) (hfa : f ≤ a) (hroom : a - f < 16)
    (ht : a < 3000) :
    (cacheLts (l1dConfig 1)).step c (clock (a + 5), .handleWriteback) =
      some ({ c with
          mshr := c.mshr.addMshr { queuedStore a with cycleEnqueued := UInt64.ofNat (a + 5) }
          wq := (List.range' (a + 1) (b - (a + 1))).map queuedStore },
        [.lowerAddRq { queuedStore a with cycleEnqueued := UInt64.ofNat (a + 5) }]) := by
  have hcyc : (clock (a + 5)).cycle 0 = UInt64.ofNat (a + 5) := clock_cycle (by omega) 0
  have hready : (queuedStore a).eventCycle ≤ (clock (a + 5)).cycle (queuedStore a).cpu := by
    show UInt64.ofNat (a + 5) ≤ (clock (a + 5)).cycle 0
    rw [hcyc]
  have hstamp : Cache.stamped (clock (a + 5)) (queuedStore a) =
      { queuedStore a with cycleEnqueued := UInt64.ofNat (a + 5) } := by
    rw [← hcyc]
    rfl
  have hcpu : (queuedStore a).cpu ≠ (l1dConfig 1).numCpus := Nat.zero_ne_one
  have hocc : c.mshr.occupancy < (l1dConfig 1).mshrSize := by
    rw [h.occupancy]
    exact hroom
  have habs : c.mshr.checkMshr (queuedStore a).address = none := h.absent (by omega)
  have hl1d : (l1dConfig 1).cacheType = .l1d := rfl
  show c.handleWriteback (l1dConfig 1) (clock (a + 5)) = _
  rw [Cache.handleWriteback, h.wq_cons hab]
  simp only [if_neg hcpu, if_pos hready, h.miss hfa (by omega), if_pos hl1d, Cache.rfoMiss, habs,
    if_pos hocc, hstamp]

/-- The store at the head of the write queue misses, and the lower level answers at once. -/
theorem Stage.alloc (h : Stage f a b c) (hab : a < b) (hfa : f ≤ a) (hroom : a - f < 16)
    (ht : a < 3000) :
    ∃ c₁ os c₂, (cacheLts (l1dConfig 1)).step c (clock (a + 5), .handleWriteback) = some (c₁, os) ∧
      c₁.mshr.inflight (line a) = true ∧
      (cacheLts (l1dConfig 1)).step c₁ (clock (a + 5), .returnData (queuedStore a)) =
        some (c₂, []) ∧
      Stage f (a + 1) b c₂ ∧ c₂.processed = c.processed := by
  have hs₁ := h.rfoMiss hab hfa hroom ht
  have hm₁ := h.mshr.act (show ReturnsInflight c (clock (a + 5), .handleWriteback) from trivial) hs₁
  -- the new entry, in flight
  have hocc : c.mshr.occupancy < c.mshr.size := by
    rw [h.mshr.size, h.occupancy]
    exact hroom
  obtain ⟨j, e₀, hfree⟩ := h.mshr.ok.exists_free hocc
  obtain ⟨hj, he₀, h0⟩ := Mshr.checkMshr_some hfree
  rw [Mshr.addMshr_of_free hfree] at hs₁ hm₁
  let p : Packet := { queuedStore a with
    cycleEnqueued := UInt64.ofNat (a + 5), returned := .inflight }
  let c₁ : Cache := { c with
    mshr := { c.mshr with entry := c.mshr.entry.set j p, occupancy := c.mshr.occupancy + 1 }
    wq := (List.range' (a + 1) (b - (a + 1))).map queuedStore }
  have hp : p ∈ c₁.mshr.entry := List.mem_set hj p
  have hin : c₁.mshr.inflight (line a) = true :=
    List.any_eq_true.2 ⟨p, hp, by simp [p, queuedStore, streamStore]⟩
  -- the answer
  obtain ⟨i, hi⟩ := hm₁.ok.checkMshr_of_mem hp (line_ne_zero (s := a) (by omega))
  have hdue : addLatency (l1dConfig 1).latency ((clock (a + 5)).cycle (queuedStore a).cpu)
      p.eventCycle = UInt64.ofNat (a + 10) := by
    show addLatency 5 ((clock (a + 5)).cycle 0) (UInt64.ofNat (a + 5)) = _
    rw [clock_cycle (by omega), addLatency_clock]
  have hs₂ : (cacheLts (l1dConfig 1)).step c₁ (clock (a + 5), .returnData (queuedStore a)) =
      some ({ c₁ with
        mshr := c₁.mshr.complete i p (queuedStore a) (UInt64.ofNat (a + 10)) }, []) := by
    show (c₁.returnData (l1dConfig 1) (clock (a + 5)) (queuedStore a)).map (·, []) = _
    rw [Cache.returnData]
    have hi' : c₁.mshr.checkMshr (queuedStore a).address = some (i, p) := hi
    simp only [hi', hdue, Option.map_some]
  have hm₂ := hm₁.act (show ReturnsInflight c₁ (clock (a + 5), .returnData (queuedStore a)) from hin) hs₂
  refine ⟨c₁, _, _, hs₁, hin, hs₂, ?_, rfl⟩
  have hentry : (c₁.mshr.complete i p (queuedStore a) (UInt64.ofNat (a + 10))).entry =
      c₁.mshr.entry.set i (returnedStore a) := rfl
  obtain ⟨hilt, hie, _⟩ := Mshr.checkMshr_some hi
  have hnew : returnedStore a ∈ c₁.mshr.entry.set i (returnedStore a) := List.mem_set hilt _
  refine ⟨hm₂, h.rq, ?_, ?_, ?_, ?_, h.valid, h.tag⟩
  · rfl
  · intro q hq hq0
    by_cases hqa : q.address = line a
    · refine ⟨a, by omega, by omega, ?_⟩
      exact hm₂.ok.keyed.eq_of_mem hq hnew hq0 (line_ne_zero (by omega)) hqa
    · rw [hentry] at hq
      rcases List.mem_or_eq_of_mem_set hq with hq | rfl
      · rcases List.mem_or_eq_of_mem_set hq with hq | rfl
        · obtain ⟨s, hfs, hsa, rfl⟩ := h.entries q hq hq0
          exact ⟨s, hfs, by omega, rfl⟩
        · exact absurd rfl hqa
      · exact absurd rfl hqa
  · intro s hfs hsa
    show returnedStore s ∈ c₁.mshr.entry.set i (returnedStore a)
    rcases Nat.lt_succ_iff_lt_or_eq.1 hsa with hlt | rfl
    · refine Slots.mem_set_of_ne hilt (Slots.mem_set_of_ne hj (h.present s hfs hlt) ?_) ?_
      · rw [he₀]
        rintro rfl
        exact line_ne_zero (by omega) h0
      · rw [hie]
        intro hps
        have := line_inj (by omega) (by omega) (congrArg Packet.address hps)
        omega
    · exact hnew
  · show c.mshr.occupancy + 1 = a + 1 - f
    rw [h.occupancy]
    omega

/-- The oldest store in the MSHR table is the one to be filled next. -/
theorem Stage.nextFill (h : Stage f a b c) (hfa : f < a) (ha : a < 3000) :
    c.mshr.nextFill = some (returnedStore f) ∧ c.mshr.nextFillCycle ≤ UInt64.ofNat (f + 10) := by
  have hle : c.mshr.nextFillCycle ≤ UInt64.ofNat (f + 10) :=
    h.mshr.ok.le _ (h.present f le_rfl hfa) rfl
  obtain ⟨e, hnext, hc, hcyc⟩ := h.mshr.ok.attained (lt_of_le_of_lt hle (ofNat_lt_max (by omega)))
  have hmem : e ∈ c.mshr.entry := List.mem_of_getElem? hnext
  have h0 : e.address ≠ 0 := h.mshr.ok.address_ne_zero_of_returned hmem (by simp [hc])
  obtain ⟨s, hfs, hsa, rfl⟩ := h.entries e hmem h0
  rw [← hcyc] at hle
  have hsle : UInt64.ofNat (s + 10) ≤ UInt64.ofNat (f + 10) := hle
  rw [ofNat_le_iff (by omega) (by omega)] at hsle
  obtain rfl : s = f := by omega
  exact ⟨hnext, hcyc ▸ hle⟩

/-- The way the next fill goes to is free. -/
theorem Stage.victim (h : Stage f a b c) (hf : f < 3000) (env : Env) :
    c.findVictim (l1dConfig 1) env (f % 256) = some (f / 256) := by
  have hway : (List.range 12).find? (fun way => !(c.block (f % 256) way).valid) =
      some (f / 256) := by
    rw [List.find?_range_eq_some]
    have hv := h.valid (f % 256) (by omega)
    refine ⟨?_, by simp; omega, fun w hw => ?_⟩
    · have hnot : ¬ (c.block (f % 256) (f / 256)).valid = true := by
        rw [hv _ (by omega)]
        omega
      simpa using hnot
    · have hval : (c.block (f % 256) w).valid = true := by
        rw [hv _ (by omega)]
        omega
      simp [hval]
  have hl1d : ¬ (l1dConfig 1).cacheType = .llc := by decide
  have hnum : (l1dConfig 1).numWay = 12 := rfl
  rw [Cache.findVictim, if_neg hl1d, Cache.lruVictim, hnum, hway]

/-- The L1D can always write its victim back. -/
theorem evict_clock (set way : ℕ) (p : Packet) :
    ∃ v evs, c.evict (l1dConfig 1) (clock t) set way p = some v ∧ v.events = some evs := by
  rw [Cache.evict]
  by_cases hd : (c.block set way).dirty = true
  · refine ⟨.writeback (Cache.writebackPacket (l1dConfig 1) (clock t) (c.block set way) p), _, ?_,
      rfl⟩
    simp only [hd, if_true]
    rfl
  · refine ⟨.clean, [], ?_, rfl⟩
    simp only [hd]
    rfl

/-- The line of the oldest store in the MSHR table is filled. -/
theorem Stage.fill (h : Stage f a b c) (hfa : f < a) (ha : a < 3000)
    (hroom : c.processed.length < robSize) :
    ∃ c' os, (cacheLts (l1dConfig 1)).step c (clock (f + 10), .handleFill) = some (c', os) ∧
      Stage (f + 1) a b c' ∧ c'.processed = c.processed ++ [returnedStore f] := by
  obtain ⟨hnext, hle⟩ := h.nextFill hfa ha
  have hcpu : (returnedStore f).cpu ≠ (l1dConfig 1).numCpus := Nat.zero_ne_one
  have hdue : c.mshr.nextFillCycle ≤ (clock (f + 10)).cycle (returnedStore f).cpu := by
    rw [clock_cycle (by omega)]
    exact hle
  have hset : (l1dConfig 1).getSet (returnedStore f).address = f % 256 := getSet_line f
  obtain ⟨v, evs, hev, hvs⟩ := evict_clock (c := c) (t := f + 10) (f % 256) (f / 256)
    (returnedStore f)
  have hs : (cacheLts (l1dConfig 1)).step c (clock (f + 10), .handleFill) =
      some ((c.fillWay (l1dConfig 1) (clock (f + 10)) c.mshr.nextFillIndex (f % 256) (f / 256)
          (returnedStore f)).1,
        evs ++ (c.fillWay (l1dConfig 1) (clock (f + 10)) c.mshr.nextFillIndex (f % 256) (f / 256)
          (returnedStore f)).2) := by
    show c.handleFill (l1dConfig 1) (clock (f + 10)) = _
    rw [Cache.handleFill, hnext]
    simp only [if_neg hcpu, if_pos hdue, Cache.fillEntry, hset, h.victim (by omega)]
    have hcached : ¬ ((l1dConfig 1).cacheType = .llc ∧ f / 256 = (l1dConfig 1).numWay) :=
      fun hb => absurd hb.1 CacheType.noConfusion
    simp only [if_neg hcached, hev, hvs]
    rfl
  have hd : Cache.Due (l1dConfig 1) (clock (f + 10)) c (returnedStore f) := ⟨hnext, hcpu, hdue⟩
  obtain ⟨hi, hie, _⟩ := hd.completed h.mshr.ok
  have hm := h.mshr.act (show ReturnsInflight c (clock (f + 10), .handleFill) from trivial) hs
  have hblock : ∀ s w, (c.fillWay (l1dConfig 1) (clock (f + 10)) c.mshr.nextFillIndex (f % 256)
      (f / 256) (returnedStore f)).1.block s w = Cache.markRfo (l1dConfig 1) (f % 256) (f / 256)
        (returnedStore f)
        (c.install (l1dConfig 1) (f % 256) (f / 256) (returnedStore f)).block s w := fun _ _ => rfl
  refine ⟨_, _, hs, ⟨hm, h.rq, h.wq, ?_, ?_, ?_, ?_, ?_⟩, ?_⟩
  · intro q hq hq0
    obtain ⟨_, hne⟩ := h.mshr.ok.has_of_remove hq0 hi ⟨q, hq, rfl⟩
    rw [hie] at hne
    rcases List.mem_or_eq_of_mem_set hq with hq | rfl
    · obtain ⟨s, hfs, hsa, rfl⟩ := h.entries q hq hq0
      have hsf : s ≠ f := by
        rintro rfl
        exact hne rfl
      exact ⟨s, by omega, hsa, rfl⟩
    · exact absurd rfl hq0
  · intro s hfs hsa
    refine Slots.mem_set_of_ne hi (h.present s (by omega) hsa) ?_
    rw [hie]
    intro hps
    have := line_inj (by omega) (by omega) (congrArg Packet.address hps)
    omega
  · show c.mshr.occupancy - 1 = a - (f + 1)
    rw [h.occupancy]
    omega
  · intro set hset' way hway
    rw [hblock, Cache.markRfo_valid, Cache.install_valid]
    have hv := h.valid set hset' way hway
    split
    · simp only [true_iff]
      omega
    · rw [hv]
      omega
  · intro set hset' way hway hval
    rw [hblock, Cache.markRfo_valid, Cache.install_valid] at hval
    rw [hblock, Cache.markRfo_tag, Cache.install_tag]
    split at hval
    · rename_i hw
      rw [if_pos hw, hw.1, hw.2, Nat.div_add_mod]
      rfl
    · rename_i hw
      rw [if_neg hw]
      exact h.tag set hset' way hway hval
  · show Cache.finish (l1dConfig 1) (returnedStore f) c.processed = _
    have hdel : (l1dConfig 1).delivers (returnedStore f) = true ∧
        c.processed.length < (l1dConfig 1).robSize := ⟨rfl, hroom⟩
    rw [Cache.finish, if_pos hdel]

/-- A load from the address of the store at the head of the write queue is answered at once. -/
theorem Stage.load (h : Stage f a b c) (hab : a < b) (t n : ℕ) :
    (cacheLts (l1dConfig 1)).step c (clock t, .addRq (streamLoad a t n)) =
      some ({ c with processed := Cache.finish (l1dConfig 1) (streamLoad a t n) c.processed },
        Cache.finishEvents (l1dConfig 1) (streamLoad a t n) c.processed ++
          [Event.result .accepted]) := by
  have hw : Cache.checkWq (l1dConfig 1) (streamLoad a t n) c.wq = some (0, queuedStore a) := by
    have hfull : (queuedStore a).fullAddr == (streamLoad a t n).fullAddr := beq_self_eq_true _
    rw [h.wq_cons hab]
    show (if (queuedStore a).fullAddr == (streamLoad a t n).fullAddr then some (0, queuedStore a)
      else _) = _
    rw [if_pos hfull]
  show Cache.replied (c.addRq (l1dConfig 1) (clock t) (streamLoad a t n)) = _
  rw [Cache.addRq, hw]
  rfl

/-- A stage does not mention `PROCESSED`. -/
theorem Stage.withProcessed (h : Stage f a b c) (q : List Packet) :
    Stage f a b { c with processed := q } :=
  ⟨h.mshr.frame rfl, h.rq, h.wq, h.entries, h.present, h.occupancy, h.valid, h.tag⟩

/-- No load waits in the stream. -/
theorem Stage.pending_eq (h : Stage f a b c) (n : ℕ) : pending (l1dConfig 1) c (.lq n) = 0 := by
  rw [pending, h.rq, List.map_nil, List.sum_nil, Nat.zero_add]
  refine List.sum_eq_zero fun m hm => ?_
  obtain ⟨e, he, rfl⟩ := List.mem_map.1 hm
  by_cases h0 : e.address = 0
  · exact waiting_free h0
  · obtain ⟨s, _, _, rfl⟩ := h.entries e he h0
    rw [waiting]
    split
    · rfl
    · exact completions_store rfl rfl ⟨rfl, rfl, rfl, rfl, rfl, rfl⟩

/-! ## Cycles -/

/-- The accesses in `PROCESSED` are ready, and no load from index `i` on is among them. -/
def Bounded (i t : ℕ) (q : List Packet) : Prop :=
  ∀ p ∈ q, p.eventCycle ≤ UInt64.ofNat t ∧
    ∀ n, i ≤ n → completions (l1dConfig 1) p (.lq n) = 0

theorem bounded_nil (i t : ℕ) : Bounded i t [] := by
  intro p hp
  cases hp

theorem Bounded.mono {i j t' : ℕ} {q : List Packet} (h : Bounded i t q) (hi : i ≤ j) (ht : t ≤ t')
    (ht' : t' < 4096) : Bounded j t' q := by
  intro p hp
  obtain ⟨hc, hn⟩ := h p hp
  refine ⟨hc.trans ?_, fun n hjn => hn n (hi.trans hjn)⟩
  rw [ofNat_le_iff (by omega) ht']
  exact ht

theorem Bounded.append {i : ℕ} {q q' : List Packet} (h : Bounded i t q) (h' : Bounded i t q') :
    Bounded i t (q ++ q') := by
  intro p hp
  rcases List.mem_append.1 hp with hp | hp
  · exact h p hp
  · exact h' p hp

theorem bounded_store (s : ℕ) : Bounded 0 (s + 10) [returnedStore s] := by
  intro p hp
  obtain rfl := List.mem_singleton.1 hp
  exact ⟨le_rfl, fun n _ => completions_store rfl rfl ⟨rfl, rfl, rfl, rfl, rfl, rfl⟩⟩

theorem bounded_load (s t i : ℕ) : Bounded (i + 1) t [streamLoad s t i] := by
  intro p hp
  obtain rfl := List.mem_singleton.1 hp
  refine ⟨le_rfl, fun n hn => ?_⟩
  have hd : IsDemand (l1dConfig 1) (streamLoad s t i) := ⟨rfl, rfl⟩
  have hf : Fresh (streamLoad s t i) := ⟨rfl, rfl, rfl, rfl, rfl, rfl⟩
  rw [completions_fresh hd hf, if_neg]
  intro heq
  have hni : n = i := Consumer.lq.inj heq
  omega

/-- A load that is not in `PROCESSED` keeps to the contract of the core. -/
theorem Stage.asksLive (h : Stage f a b c) {i : ℕ} (hq : Bounded i t c.processed)
    (hi : i < lqSize) : AsksLive (l1dConfig 1) c (clock t, .addRq (streamLoad a t i)) := by
  have hp := h.pending_eq i
  have hr : recorded (l1dConfig 1) c (.lq i) = 0 := by
    refine List.sum_eq_zero fun m hm => ?_
    obtain ⟨p, hp, rfl⟩ := List.mem_map.1 hm
    exact (hq p hp).2 i le_rfl
  refine ⟨⟨⟨rfl, rfl⟩, ⟨rfl, rfl, rfl, rfl, rfl, rfl⟩, hp⟩, ?_, ?_⟩
  · exact Finset.mem_map_of_mem _ (Finset.mem_range.2 hi)
  · show pending (l1dConfig 1) c (.lq i) + recorded (l1dConfig 1) c (.lq i) = 0
    rw [hp, hr]

/-- The L1D at cycle `t` of a run by the clock: the steps of a cycle read its clock, and the cycle
ends with the one `update_rob`. -/
inductive Timed (cfg : Config) (ok : Cache → Env × Action → Prop) : ℕ → Cache → Prop
  | start : Timed cfg ok 0 (Cache.init cfg)
  | step {t : ℕ} {c c' : Cache} {a : Action} {os : List Event} : Timed cfg ok t c →
      ok c (clock t, a) → (∀ cpu, a ≠ .updateRob cpu) →
      (cacheLts cfg).step c (clock t, a) = some (c', os) → Timed cfg ok t c'
  | tick {t : ℕ} {c : Cache} : Timed cfg ok t c → ok c (clock t, .updateRob 0) →
      Timed cfg ok (t + 1) (c.updateRob (clock t) 0)

/-- A run by the clock is a run. -/
theorem Timed.reachable {cfg : Config} {ok : Cache → Env × Action → Prop}
    (h : Timed cfg ok t c) : (cacheLts cfg).Reachable ok c := by
  induction h with
  | start => exact .init rfl
  | step _ hok _ hs ih => exact ih.step hok hs
  | tick _ hok ih => exact ih.step hok rfl

/-- The end of a cycle with an empty `PROCESSED`. -/
theorem updateRob_nil (hq : c.processed = []) (env : Env) : c.updateRob env 0 = c := by
  rw [Cache.updateRob, hq]

/-- The end of a cycle in which `PROCESSED` has a ready access. -/
theorem updateRob_cons {i : ℕ} {q : List Packet} (hq : c.processed = q) (h0 : q ≠ [])
    (hb : Bounded i t q) (ht : t < 4096) :
    c.updateRob (clock t) 0 = { c with processed := q.tail } := by
  cases q with
  | nil => exact absurd rfl h0
  | cons p rest =>
    have hready : p.eventCycle ≤ (clock t).cycle 0 := by
      rw [clock_cycle ht]
      exact (hb p List.mem_cons_self).1
    rw [Cache.updateRob, hq]
    simp only [if_pos hready]
    rfl

/-- A store retires in a timed run. -/
theorem Timed.enter (ht : Timed (l1dConfig 1) (AsksLive (l1dConfig 1)) b c) (h : Stage f a b c)
    (hb : b < 4000) (hab : a ≤ b) (hroom : b - a < 64) :
    ∃ c', Timed (l1dConfig 1) (AsksLive (l1dConfig 1)) b c' ∧ Stage f a (b + 1) c' ∧
      c'.processed = c.processed := by
  obtain ⟨c', os, hs, hst, hq⟩ := h.enter hb hab hroom
  have hok : AsksLive (l1dConfig 1) c (clock b, .addWq (streamStore b)) :=
    ⟨⟨rfl, rfl, ⟨rfl, rfl, rfl, rfl, rfl, rfl⟩⟩, trivial⟩
  exact ⟨c', ht.step hok (by simp) hs, hst, hq⟩

/-- A store misses and is answered in a timed run. -/
theorem Timed.alloc (ht : Timed (l1dConfig 1) (AsksLive (l1dConfig 1)) (a + 5) c)
    (h : Stage f a b c) (hab : a < b) (hfa : f ≤ a) (hroom : a - f < 16) (ha : a < 3000) :
    ∃ c', Timed (l1dConfig 1) (AsksLive (l1dConfig 1)) (a + 5) c' ∧ Stage f (a + 1) b c' ∧
      c'.processed = c.processed := by
  obtain ⟨c₁, os, c', hs, hin, hs', hst, hq⟩ := h.alloc hab hfa hroom ha
  have hok : AsksLive (l1dConfig 1) c (clock (a + 5), .handleWriteback) := ⟨trivial, trivial⟩
  have hok' : AsksLive (l1dConfig 1) c₁ (clock (a + 5), .returnData (queuedStore a)) :=
    ⟨hin, trivial⟩
  exact ⟨c', (ht.step hok (by simp) hs).step hok' (by simp) hs', hst, hq⟩

/-- A line is filled in a timed run. -/
theorem Timed.fill (ht : Timed (l1dConfig 1) (AsksLive (l1dConfig 1)) (f + 10) c)
    (h : Stage f a b c) (hfa : f < a) (ha : a < 3000) (hroom : c.processed.length < robSize) :
    ∃ c', Timed (l1dConfig 1) (AsksLive (l1dConfig 1)) (f + 10) c' ∧ Stage (f + 1) a b c' ∧
      c'.processed = c.processed ++ [returnedStore f] := by
  obtain ⟨c', os, hs, hst, hq⟩ := h.fill hfa ha hroom
  have hok : AsksLive (l1dConfig 1) c (clock (f + 10), .handleFill) := ⟨trivial, trivial⟩
  exact ⟨c', ht.step hok (by simp) hs, hst, hq⟩

/-- A load is answered in a timed run, while `PROCESSED` has room. -/
theorem Timed.load {i : ℕ} (ht : Timed (l1dConfig 1) (AsksLive (l1dConfig 1)) t c)
    (h : Stage f a b c) (hab : a < b) (hb : Bounded i t c.processed) (hi : i < lqSize)
    (hroom : c.processed.length < robSize) :
    ∃ c', Timed (l1dConfig 1) (AsksLive (l1dConfig 1)) t c' ∧ Stage f a b c' ∧
      c'.processed = c.processed ++ [streamLoad a t i] := by
  have hdel : (l1dConfig 1).delivers (streamLoad a t i) = true ∧
      c.processed.length < (l1dConfig 1).robSize := ⟨rfl, hroom⟩
  refine ⟨_, ht.step (h.asksLive hb hi) (by simp) (h.load hab t i), h.withProcessed _, ?_⟩
  rw [Cache.finish, if_pos hdel]

/-! ## The stream, cycle by cycle -/

/-- The L1D in the stream at the start of cycle `k + 10`: `n` accesses are in `PROCESSED`, and the
loads among them are among the oldest `m` and have indices below `i`. -/
structure Streaming (k i m n : ℕ) (c : Cache) : Prop where
  timed : Timed (l1dConfig 1) (AsksLive (l1dConfig 1)) (k + 10) c
  stage : Stage k (k + 5) (k + 10) c
  processed : ∃ q q', c.processed = q ++ q' ∧ q.length = m ∧ q.length + q'.length = n ∧
    Bounded i (k + 10) q ∧ Bounded 0 (k + 10) q'

/-- The stores on their way: each cycle one retires, and after the latency one misses. -/
theorem stream_starts : ∃ c, Streaming 0 0 0 0 c := by
  have hok : ∀ c t, AsksLive (l1dConfig 1) c (clock t, .updateRob 0) := fun _ _ =>
    ⟨trivial, trivial⟩
  have henter : ∀ t ≤ 5, ∃ c, Timed (l1dConfig 1) (AsksLive (l1dConfig 1)) t c ∧ Stage 0 0 t c ∧
      c.processed = [] := by
    intro t
    induction t with
    | zero =>
      intro _
      refine ⟨Cache.init (l1dConfig 1), .start, ?_, rfl⟩
      refine ⟨MshrOk.reachable (.init rfl), rfl, rfl, ?_, ?_, rfl, ?_, ?_⟩
      · intro e he h0
        obtain rfl := List.eq_of_mem_replicate he
        exact absurd rfl h0
      · intro s _ hs
        exact absurd hs (Nat.not_lt_zero s)
      · intro set _ way _
        have hinit : ((Cache.init (l1dConfig 1)).block set way).valid = false := rfl
        simp [hinit]
      · intro set _ way _ hv
        cases hv
    | succ t ih =>
      intro ht
      obtain ⟨c, htimed, hst, hq⟩ := ih (by omega)
      obtain ⟨c', htimed', hst', hq'⟩ := htimed.enter hst (by omega) (by omega) (by omega)
      have htick := htimed'.tick (hok c' t)
      rw [updateRob_nil (hq'.trans hq)] at htick
      exact ⟨c', htick, hst', hq'.trans hq⟩
  have halloc : ∀ j ≤ 5, ∃ c, Timed (l1dConfig 1) (AsksLive (l1dConfig 1)) (j + 5) c ∧
      Stage 0 j (j + 5) c ∧ c.processed = [] := by
    intro j
    induction j with
    | zero =>
      intro _
      exact henter 5 le_rfl
    | succ j ih =>
      intro hj
      obtain ⟨c, htimed, hst, hq⟩ := ih (by omega)
      obtain ⟨c₁, htimed₁, hst₁, hq₁⟩ := htimed.enter hst (by omega) (by omega) (by omega)
      obtain ⟨c₂, htimed₂, hst₂, hq₂⟩ :=
        htimed₁.alloc hst₁ (by omega) (by omega) (by omega) (by omega)
      have hempty : c₂.processed = [] := hq₂.trans (hq₁.trans hq)
      have htick := htimed₂.tick (hok c₂ (j + 5))
      rw [updateRob_nil hempty, Nat.add_right_comm] at htick
      rw [Nat.add_right_comm] at hst₂
      exact ⟨c₂, htick, hst₂, hempty⟩
  obtain ⟨c, htimed, hst, hq⟩ := halloc 5 le_rfl
  exact ⟨c, htimed, hst, [], [], hq, rfl, rfl, bounded_nil _ _, bounded_nil _ _⟩

/-- The rest of a cycle, after the store has retired and perhaps a load was answered: a line is
filled, a store misses, and `update_rob` takes the oldest access. -/
theorem Timed.endCycle {k i : ℕ} (ht : Timed (l1dConfig 1) (AsksLive (l1dConfig 1)) (k + 10) c)
    (h : Stage k (k + 5) (k + 11) c) (hk : k < 2900) (hb : Bounded i (k + 10) c.processed)
    (hroom : c.processed.length < robSize) :
    ∃ c', Timed (l1dConfig 1) (AsksLive (l1dConfig 1)) (k + 11) c' ∧
      Stage (k + 1) (k + 6) (k + 11) c' ∧
      c'.processed = (c.processed ++ [returnedStore k]).tail := by
  obtain ⟨c₁, ht₁, hst₁, hq₁⟩ := ht.fill h (by omega) (by omega) hroom
  obtain ⟨c₂, ht₂, hst₂, hq₂⟩ := ht₁.alloc hst₁ (by omega) (by omega) (by omega) (by omega)
  have hok : AsksLive (l1dConfig 1) c₂ (clock (k + 10), .updateRob 0) := ⟨trivial, trivial⟩
  have htick := ht₂.tick hok
  have hb₂ : Bounded i (k + 10) (c.processed ++ [returnedStore k]) :=
    hb.append ((bounded_store k).mono (Nat.zero_le _) le_rfl (by omega))
  rw [updateRob_cons (hq₂.trans hq₁) (by simp) hb₂ (by omega)] at htick
  exact ⟨_, htick, hst₂.withProcessed _, rfl⟩

/-- The accesses in `PROCESSED` in the stream. -/
theorem Streaming.bounded {k i m n : ℕ} (h : Streaming k i m n c) (hk : k < 2900) :
    Bounded i (k + 10) c.processed ∧ c.processed.length = n := by
  obtain ⟨q, q', hq, _, hlen, hb, hb'⟩ := h.processed
  rw [hq, List.length_append]
  exact ⟨hb.append (hb'.mono (Nat.zero_le _) le_rfl (by omega)), hlen⟩

/-- A cycle with a load: `PROCESSED` grows. -/
theorem Streaming.grow {k i m n : ℕ} (h : Streaming k i m n c) (hk : k < 2900) (hi : i < lqSize)
    (hn : n + 1 < robSize) : ∃ c', Streaming (k + 1) (i + 1) (n + 1) (n + 1) c' := by
  obtain ⟨hb, hlen⟩ := h.bounded hk
  obtain ⟨c₁, ht₁, hst₁, hq₁⟩ := h.timed.enter h.stage (by omega) (by omega) (by omega)
  obtain ⟨c₂, ht₂, hst₂, hq₂⟩ :=
    ht₁.load hst₁ (by omega) (by rw [hq₁]; exact hb) hi (by rw [hq₁]; omega)
  have hq : c₂.processed = c.processed ++ [streamLoad (k + 5) (k + 10) i] := by rw [hq₂, hq₁]
  have hb₂ : Bounded (i + 1) (k + 10) c₂.processed := by
    rw [hq]
    exact (hb.mono (Nat.le_succ i) le_rfl (by omega)).append (bounded_load _ _ i)
  obtain ⟨c₃, ht₃, hst₃, hq₃⟩ := ht₂.endCycle hst₂ hk hb₂ (by rw [hq]; simp; omega)
  have hb₃ : Bounded (i + 1) (k + 11) c₃.processed := by
    intro p hp
    rw [hq₃] at hp
    exact ((hb₂.append ((bounded_store k).mono (Nat.zero_le _) le_rfl (by omega))).mono le_rfl
      (Nat.le_succ _) (by omega)) p (List.mem_of_mem_tail hp)
  have hlen₃ : c₃.processed.length = n + 1 := by
    rw [hq₃, hq]
    simp
    omega
  exact ⟨c₃, ht₃, hst₃, c₃.processed, [], (List.append_nil _).symm, hlen₃, hlen₃, hb₃,
    bounded_nil _ _⟩

/-- A cycle without a load: a store takes the place of the oldest access. -/
theorem Streaming.drain {k i m n : ℕ} (h : Streaming k i (m + 1) n c) (hk : k < 2900)
    (hn : n < robSize) : ∃ c', Streaming (k + 1) i m n c' := by
  obtain ⟨hb, hlen⟩ := h.bounded hk
  obtain ⟨q, q', hq, hm, hsum, hbq, hbq'⟩ := h.processed
  obtain ⟨c₁, ht₁, hst₁, hq₁⟩ := h.timed.enter h.stage (by omega) (by omega) (by omega)
  obtain ⟨c₂, ht₂, hst₂, hq₂⟩ :=
    ht₁.endCycle hst₁ hk (by rw [hq₁]; exact hb) (by rw [hq₁]; omega)
  cases q with
  | nil => cases hm
  | cons p rest =>
    refine ⟨c₂, ht₂, hst₂, rest, q' ++ [returnedStore k], ?_, ?_, ?_, ?_, ?_⟩
    · rw [hq₂, hq₁, hq]
      simp
    · simpa using hm
    · simp only [List.length_cons, List.length_append, List.length_nil] at hsum ⊢
      omega
    · intro p' hp'
      exact hbq.mono le_rfl (Nat.le_succ _) (by omega) p' (List.mem_cons_of_mem p hp')
    · exact (hbq'.append (bounded_store k)).mono le_rfl (Nat.le_succ _) (by omega)

/-- Cycles with loads, one after the other. -/
theorem Streaming.growMany {k n : ℕ} (h : Streaming k 0 0 n c) (j : ℕ) (hk : k + j < 2900)
    (hj : j < lqSize) (hn : n + (j + 1) < robSize) :
    ∃ c', Streaming (k + (j + 1)) (j + 1) (n + (j + 1)) (n + (j + 1)) c' := by
  induction j with
  | zero => exact h.grow (by omega) hj hn
  | succ j ih =>
    obtain ⟨c', h'⟩ := ih (by omega) (by omega) (by omega)
    exact h'.grow (by omega) hj (by omega)

/-- Cycles without loads, until no load is left in `PROCESSED`. -/
theorem Streaming.drainAll {k i m n : ℕ} (h : Streaming k i m n c) (hk : k + m < 2900)
    (hn : n < robSize) : ∃ c', Streaming (k + m) 0 0 n c' := by
  induction m generalizing k c with
  | zero =>
    obtain ⟨q, q', hq, hm, hsum, _, hb'⟩ := h.processed
    obtain rfl := List.length_eq_zero_iff.1 hm
    exact ⟨c, h.timed, h.stage, [], q', hq, rfl, hsum, bounded_nil _ _, hb'⟩
  | succ m ih =>
    obtain ⟨c', h'⟩ := h.drain (by omega) hn
    obtain ⟨c'', h''⟩ := ih h' (by omega)
    rw [Nat.add_assoc, Nat.add_comm 1 m] at h''
    exact ⟨c'', h''⟩

/-- A round: loads enter `PROCESSED`, and stores take their place. -/
theorem Streaming.round {k n : ℕ} (h : Streaming k 0 0 n c) (j : ℕ)
    (hk : k + (j + 1) + (n + (j + 1)) < 2900) (hj : j < lqSize) (hn : n + (j + 1) < robSize) :
    ∃ c', Streaming (k + (j + 1) + (n + (j + 1))) 0 0 (n + (j + 1)) c' := by
  obtain ⟨c', h'⟩ := h.growMany j (by omega) hj hn
  exact h'.drainAll hk hn

/-- A load that is answered when `PROCESSED` is full is forgotten. -/
theorem Stage.loadDropped (h : Stage f a b c) (hab : a < b) (t n : ℕ)
    (hfull : robSize ≤ c.processed.length) :
    ∃ c' os, (cacheLts (l1dConfig 1)).step c (clock t, .addRq (streamLoad a t n)) = some (c', os) ∧
      .dropped (streamLoad a t n) ∈ os := by
  refine ⟨_, _, h.load hab t n, List.mem_append_left _ ?_⟩
  have hlt : ¬ c.processed.length < (l1dConfig 1).robSize := not_lt.2 hfull
  have hdel : (l1dConfig 1).delivers (streamLoad a t n) = true := rfl
  rw [Cache.finishEvents, if_pos hdel, if_neg hlt]
  exact List.mem_singleton_self _

/-- Two loads in one cycle, when all but one place of `PROCESSED` is taken: the second is forgotten. -/
theorem Streaming.dropsLoad {k i m n : ℕ} (h : Streaming k i m n c) (hk : k < 2900)
    (hi : i + 1 < lqSize) (hn : n + 1 = robSize) :
    ∃ c₁ c' os, Timed (l1dConfig 1) (AsksLive (l1dConfig 1)) (k + 10) c₁ ∧
      AsksLive (l1dConfig 1) c₁ (clock (k + 10), .addRq (streamLoad (k + 5) (k + 10) (i + 1))) ∧
      (cacheLts (l1dConfig 1)).step c₁
          (clock (k + 10), .addRq (streamLoad (k + 5) (k + 10) (i + 1))) = some (c', os) ∧
      .dropped (streamLoad (k + 5) (k + 10) (i + 1)) ∈ os := by
  obtain ⟨hb, hlen⟩ := h.bounded hk
  obtain ⟨c₁, ht₁, hst₁, hq₁⟩ := h.timed.enter h.stage (by omega) (by omega) (by omega)
  obtain ⟨c₂, ht₂, hst₂, hq₂⟩ :=
    ht₁.load hst₁ (by omega) (by rw [hq₁]; exact hb) (by omega) (by rw [hq₁]; omega)
  have hq : c₂.processed = c.processed ++ [streamLoad (k + 5) (k + 10) i] := by rw [hq₂, hq₁]
  have hb₂ : Bounded (i + 1) (k + 10) c₂.processed := by
    rw [hq]
    exact (hb.mono (Nat.le_succ i) le_rfl (by omega)).append (bounded_load _ _ i)
  have hfull : robSize ≤ c₂.processed.length := by
    rw [hq, List.length_append, hlen]
    exact hn.ge
  obtain ⟨c', os, hs, hdrop⟩ := hst₂.loadDropped (by omega) (k + 10) (i + 1) hfull
  exact ⟨c₂, c', os, ht₂, hst₂.asksLive hb₂ hi, hs, hdrop⟩

end

/-- In a stream of stores the stores fill `PROCESSED`, in three rounds of as many loads as the load
queue holds; then the completion of a load is dropped. -/
theorem load_completion_dropped :
    ∃ t c l c' os p n, Timed (l1dConfig 1) (AsksLive (l1dConfig 1)) t c ∧
      (cacheLts (l1dConfig 1)).Reachable (AsksLive (l1dConfig 1)) c ∧
      l.1 = clock t ∧ AsksLive (l1dConfig 1) c l ∧
      (cacheLts (l1dConfig 1)).step c l = some (c', os) ∧ .dropped p ∈ os ∧
      completions (l1dConfig 1) p (.lq n) = 1 := by
  obtain ⟨c₀, h₀⟩ := stream_starts
  obtain ⟨c₁, h₁⟩ : ∃ c, Streaming 378 0 0 189 c := h₀.round 188 (by decide) (by decide) (by decide)
  obtain ⟨c₂, h₂⟩ : ∃ c, Streaming 945 0 0 378 c := h₁.round 188 (by decide) (by decide) (by decide)
  obtain ⟨c₃, h₃⟩ : ∃ c, Streaming 1701 0 0 567 c :=
    h₂.round 188 (by decide) (by decide) (by decide)
  obtain ⟨c₄, h₄⟩ : ∃ c, Streaming 1709 8 575 575 c :=
    h₃.growMany 7 (by decide) (by decide) (by decide)
  obtain ⟨c₅, c', os, ht, hok, hs, hdrop⟩ := h₄.dropsLoad (by decide) (by decide) rfl
  have hd : IsDemand (l1dConfig 1) (streamLoad 1714 1719 9) := ⟨rfl, rfl⟩
  have hf : Fresh (streamLoad 1714 1719 9) := ⟨rfl, rfl, rfl, rfl, rfl, rfl⟩
  exact ⟨1719, c₅, _, c', os, _, 9, ht, ht.reachable, rfl, hok, hs, hdrop,
    (completions_fresh hd hf).trans (if_pos rfl)⟩

end Arishem
