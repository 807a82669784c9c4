import Arishem.Cache.Steps
import Arishem.Cache.Configs

/-!
# The MSHR bookkeeping over runs

Every step of a cache keeps the bookkeeping of its MSHR table (`Mshr.Ok`), as long as the lower
level answers only misses that are in flight. The handlers rely on it in two places: what
`handle_fill` takes for due has been returned, and `add_mshr` finds a free slot.
-/

namespace Arishem

/-- An entry for this address is in flight. -/
def Mshr.inflight (a : Addr) (m : Mshr) : Bool :=
  m.entry.any fun e => e.address == a && e.returned == .inflight

/-- The contract of the lower level: it answers an address only while it is in flight. -/
def ReturnsInflight (c : Cache) (l : Env × Action) : Prop :=
  match l.2 with
  | .returnData p => c.mshr.inflight p.address = true
  | _ => True

instance (c : Cache) (l : Env × Action) : Decidable (ReturnsInflight c l) := by
  unfold ReturnsInflight
  exact match l.2 with
  | .returnData p => inferInstanceAs (Decidable (c.mshr.inflight p.address = true))
  | .addRq _ | .addWq _ | .addPq _ | .prefetchLine .. | .invalidateEntry _ | .updateRob _
  | .handleFill | .handleWriteback | .startReads | .readOne | .prefetchOne => instDecidableTrue

/-! ## Merged entries -/

section
variable {p e : Packet}

@[simp] theorem Cache.markConsumers_address : (Cache.markConsumers p e).address = e.address := by
  simp only [Cache.markConsumers]
  split_ifs <;> rfl

@[simp] theorem Cache.markConsumers_returned : (Cache.markConsumers p e).returned = e.returned := by
  simp only [Cache.markConsumers]
  split_ifs <;> rfl

@[simp] theorem Cache.markConsumers_eventCycle :
    (Cache.markConsumers p e).eventCycle = e.eventCycle := by
  simp only [Cache.markConsumers]
  split_ifs <;> rfl

@[simp] theorem Cache.markConsumers_type : (Cache.markConsumers p e).type = e.type := by
  simp only [Cache.markConsumers]
  split_ifs <;> rfl

/-- Lowering the fill level leaves the miss alone. -/
theorem Cache.lowerFillLevel_sameMiss : Mshr.SameMiss e (Cache.lowerFillLevel p e) :=
  ⟨rfl, rfl, rfl, fun _ => rfl⟩

/-- An RFO for the same line is merged into the miss. -/
theorem Cache.mergedRfo_sameMiss (ha : e.address = p.address) :
    Mshr.SameMiss e (Cache.mergedRfo p e) := by
  rw [Cache.mergedRfo, Cache.replacePrefetch]
  split
  · rename_i ht
    exact ⟨ha.symm, rfl, rfl, fun h => absurd ht h⟩
  · exact Cache.lowerFillLevel_sameMiss

/-- A read for the same line is merged into the miss. -/
theorem Cache.mergedRead_sameMiss (ha : e.address = p.address) :
    Mshr.SameMiss e (Cache.mergedRead p e) := by
  rw [Cache.mergedRead, Cache.replacePrefetch]
  split
  · rename_i ht
    refine ⟨ha.symm, ?_, ?_, fun h => absurd ?_ h⟩
    · simp [Cache.lowerFillLevel]
    · simp [Cache.lowerFillLevel]
    · simpa [Cache.lowerFillLevel] using ht
  · refine ⟨?_, ?_, ?_, fun _ => ?_⟩ <;> simp [Cache.lowerFillLevel]

end

/-! ## The invariant of a cache -/

/-- The MSHR table of a cache is well kept and has the cache's size. -/
structure MshrOk (cfg : Config) (c : Cache) : Prop where
  ok : c.mshr.Ok
  size : c.mshr.size = cfg.mshrSize

section
variable {cfg : Config} {env : Env} {c c' : Cache} {evs : List Event}

/-- What is due has been returned, and sits in the slot to be filled. -/
theorem Cache.Due.completed {p : Packet} (hd : Cache.Due cfg env c p) (h : c.mshr.Ok) :
    ∃ hi : c.mshr.nextFillIndex < c.mshr.entry.length,
      c.mshr.entry[c.mshr.nextFillIndex] = p ∧ p.returned = .completed := by
  obtain ⟨q, hq, hc, _⟩ := h.attained (lt_of_le_of_lt hd.cycle (env.cycle_lt p.cpu))
  obtain rfl : p = q := Option.some.inj (hd.next.symm.trans hq)
  obtain ⟨hi, hp⟩ := List.getElem?_eq_some_iff.1 hq
  exact ⟨hi, hp, hc⟩

/-- What is found in flight is the entry `check_mshr` finds. -/
theorem Mshr.Ok.checkMshr_inflight {m : Mshr} {a : Addr} (h : m.Ok) (hin : m.inflight a = true) :
    ∃ i e, m.checkMshr a = some (i, e) ∧ e.returned = .inflight := by
  obtain ⟨e, he, hae⟩ := List.any_eq_true.1 hin
  obtain ⟨rfl, hr⟩ : e.address = a ∧ e.returned = .inflight := by simpa using hae
  have hne : e.address ≠ 0 := h.address_ne_zero_of_returned he (by simp [hr])
  obtain ⟨i, hi⟩ := h.checkMshr_of_mem he hne
  exact ⟨i, e, hi, hr⟩

/-- A new miss is in flight. -/
theorem Mshr.Ok.inflight_addMshr {m : Mshr} {p : Packet} (h : m.Ok) (hlt : m.occupancy < m.size)
    (b : Addr) : (m.addMshr p).inflight b = (m.inflight b || p.address == b) := by
  obtain ⟨i, e, hf⟩ := h.exists_free hlt
  obtain ⟨hi, he, h0⟩ := Mshr.checkMshr_some hf
  have hunset : e.returned = .unset := (h.free e (Mshr.mem_of_checkMshr hf)).1 h0
  rw [Mshr.addMshr_of_free hf]
  show (m.entry.set i { p with returned := .inflight }).any _ = _
  rw [Slots.any_set_of_not _ _ _ _ hi (by simp [he, hunset])]
  simp [Mshr.inflight]

/-- Overwriting an entry by one for the same miss leaves alone what is in flight. -/
theorem Mshr.inflight_update {m : Mshr} {a b : Addr} {i : ℕ} {e p : Packet}
    (hf : m.checkMshr a = some (i, e)) (hs : Mshr.SameMiss e p) :
    (m.update i p).inflight b = m.inflight b := by
  obtain ⟨hi, he, _⟩ := Mshr.checkMshr_some hf
  exact Slots.any_set_of_eq _ _ _ _ hi (by rw [he, hs.address, hs.returned])

/-- Giving up a returned entry leaves alone what is in flight. -/
theorem Mshr.inflight_remove {m : Mshr} {b : Addr} {i n : ℕ} (hi : i < m.entry.length)
    (hc : m.entry[i].returned = .completed) : (m.remove n i).inflight b = m.inflight b :=
  Slots.any_set_of_eq _ _ _ _ hi (by
    rw [hc, Packet.empty_returned]
    simp only [show (Returned.unset == .inflight) = false from rfl,
      show (Returned.completed == .inflight) = false from rfl, Bool.and_false])

/-- What has been answered is no longer in flight. -/
theorem Mshr.Ok.inflight_complete {m : Mshr} {a b : Addr} {i : ℕ} {e p : Packet} {due : Cycle}
    (h : m.Ok) (hf : m.checkMshr a = some (i, e)) (ha : a ≠ 0) :
    (m.complete i e p due).inflight b = (m.inflight b && b != a) := by
  obtain ⟨hi, he, hea⟩ := Mshr.checkMshr_some hf
  by_cases hb : b = a
  · subst hb
    simp only [bne_self_eq_false, Bool.and_false, Mshr.inflight, List.any_eq_false,
      Bool.and_eq_true, beq_iff_eq, not_and, Mshr.entry_complete]
    intro q hq hqb hqr
    obtain ⟨j, hj, rfl⟩ := List.getElem_of_mem hq
    rw [List.length_set] at hj
    by_cases hij : i = j
    · subst hij
      rw [List.getElem_set_self] at hqr
      cases hqr
    · rw [List.getElem_set_ne hij] at hqb
      have hia : m.entry[i].address = b := by rw [he, hea]
      have hne : m.entry[i].address ≠ 0 := hia ▸ ha
      have hne' : m.entry[j].address ≠ 0 := hqb ▸ ha
      exact hij (h.keyed i j hi hj hne hne' (hia.trans hqb.symm))
  · have hne : (b != a) = true := by simpa using hb
    have hab : (a == b) = false := by simpa using Ne.symm hb
    rw [hne, Bool.and_true]
    exact Slots.any_set_of_eq _ _ _ _ hi (by rw [he, hea, hab, Bool.false_and, Bool.false_and])

/-- A step that leaves the MSHR table alone keeps it well kept. -/
theorem MshrOk.frame (h : MshrOk cfg c) (hm : c'.mshr = c.mshr) : MshrOk cfg c' :=
  ⟨hm ▸ h.ok, hm ▸ h.size⟩

/-- A new miss. -/
theorem MshrOk.addMshr (h : MshrOk cfg c) {p : Packet} (ha : c.mshr.checkMshr p.address = none)
    (hlt : c.mshr.occupancy < cfg.mshrSize) (hm : c'.mshr = c.mshr.addMshr p) : MshrOk cfg c' := by
  rw [← h.size] at hlt
  obtain ⟨i, e, hf⟩ := h.ok.exists_free hlt
  refine ⟨hm ▸ h.ok.addMshr hlt ha, ?_⟩
  rw [hm, Mshr.addMshr_of_free hf, ← h.size]
  simp [Mshr.size]

/-- A merge into an outstanding miss. -/
theorem MshrOk.update (h : MshrOk cfg c) {a : Addr} {i : ℕ} {e p : Packet}
    (hf : c.mshr.checkMshr a = some (i, e)) (hs : Mshr.SameMiss e p)
    (hm : c'.mshr = c.mshr.update i p) : MshrOk cfg c' := by
  obtain ⟨hi, he, _⟩ := Mshr.checkMshr_some hf
  refine ⟨hm ▸ h.ok.update hi he hs, ?_⟩
  rw [hm, Mshr.size_update, h.size]

/-- The answer to a miss in flight. -/
theorem MshrOk.returnData (h : MshrOk cfg c) {p : Packet}
    (hin : c.mshr.inflight p.address = true) (hs : c.returnData cfg env p = some c') :
    MshrOk cfg c' := by
  obtain ⟨i, e, hf, hr⟩ := h.ok.checkMshr_inflight hin
  obtain ⟨hi, he, _⟩ := Mshr.checkMshr_some hf
  simp only [Cache.returnData, hf, Option.some.injEq] at hs
  subst hs
  refine ⟨h.ok.complete hi he hr, ?_⟩
  rw [← h.size]
  simp [Mshr.size]

/-- A slot that was due is given up. -/
theorem MshrOk.release (h : MshrOk cfg c) {p : Packet} (hd : Cache.Due cfg env c p)
    (hm : c'.mshr = c.mshr.remove cfg.numCpus c.mshr.nextFillIndex) : MshrOk cfg c' := by
  obtain ⟨hi, hp, hc⟩ := hd.completed h.ok
  refine ⟨hm ▸ h.ok.remove hi (by rw [hp]; exact hc), ?_⟩
  rw [hm, ← h.size]
  simp [Mshr.size]

/-- `handle_fill` keeps the table well kept. -/
theorem MshrOk.fillStep (h : MshrOk cfg c) (hs : Cache.FillStep cfg env c c' evs) :
    MshrOk cfg c' := by
  cases hs with
  | idle => exact h
  | bypass hd _ => exact h.release hd rfl
  | fill hd _ => exact h.release hd rfl

/-- `handle_writeback` keeps the table well kept. -/
theorem MshrOk.writebackStep (h : MshrOk cfg c) (hs : Cache.WritebackStep cfg env c c' evs) :
    MshrOk cfg c' := by
  cases hs with
  | idle => exact h.frame rfl
  | hit _ _ => exact h.frame rfl
  | rfoNew _ _ _ ha hlt => exact h.addMshr (p := Cache.stamped env _) ha hlt rfl
  | rfoMerge _ _ _ _ hf =>
    obtain ⟨_, _, ha⟩ := Mshr.checkMshr_some hf
    exact h.update hf (Cache.mergedRfo_sameMiss ha) rfl
  | fill _ _ _ _ _ => exact h.frame rfl

/-- A new read miss keeps the table well kept, also when the page walk answers it at once. -/
theorem MshrOk.readNew (h : MshrOk cfg c) {p : Packet} {rest : List Packet}
    (ha : c.mshr.checkMshr p.address = none) (hlt : c.mshr.occupancy < cfg.mshrSize)
    (hs : c.readNew cfg env p rest = some (c', evs)) : MshrOk cfg c' := by
  have hadd : MshrOk cfg { c with mshr := c.mshr.addMshr (Cache.stamped env p) } :=
    h.addMshr (p := Cache.stamped env p) ha hlt rfl
  simp only [Cache.readNew] at hs
  split at hs
  · cases hs
    exact hadd.frame rfl
  · split at hs
    · split at hs
      · cases hs
      · rename_i c₁ hr
        cases hs
        refine (hadd.returnData ?_ hr).frame rfl
        obtain ⟨i, e, hf⟩ := h.ok.exists_free (h.size ▸ hlt)
        obtain ⟨hi, _, _⟩ := Mshr.checkMshr_some hf
        simp only [Mshr.addMshr_of_free hf, Mshr.inflight, List.any_eq_true]
        exact ⟨_, List.mem_set hi _, by simp [Cache.stamped]⟩
    · cases hs
      exact hadd.frame rfl

/-- A round of `handle_read` keeps the table well kept. -/
theorem MshrOk.readStep (h : MshrOk cfg c) (hs : Cache.ReadStep cfg env c c' evs) :
    MshrOk cfg c' := by
  cases hs with
  | idle => exact h.frame rfl
  | hit _ _ => exact h.frame rfl
  | @new _ _ buffer _ _ _ _ ha hlt hn =>
    have hb : MshrOk cfg { c with pageBuffer := buffer } := h.frame rfl
    exact hb.readNew ha hlt hn
  | merge _ _ hf =>
    obtain ⟨_, _, ha⟩ := Mshr.checkMshr_some hf
    exact h.update hf (Cache.mergedRead_sameMiss ha) rfl

/-- A round of `handle_prefetch` keeps the table well kept. -/
theorem MshrOk.prefetchStep (h : MshrOk cfg c) (hs : Cache.PrefetchStep cfg env c c' evs) :
    MshrOk cfg c' := by
  cases hs with
  | idle => exact h.frame rfl
  | hit _ _ => exact h.frame rfl
  | @new p rest buffer _ _ ha hlt _ _ =>
    have haddr : (Cache.stamped env (Cache.prefetchOperated cfg env p)).address = p.address := by
      simp only [Cache.stamped, Cache.prefetchOperated, Cache.withMetadata]
      split_ifs <;> [skip; rfl]
      split <;> rfl
    simp only [Cache.prefetchNew]
    split
    · exact h.addMshr (p := Cache.stamped env (Cache.prefetchOperated cfg env p))
        (haddr ▸ ha) hlt rfl
    · exact h.frame rfl
  | drop _ _ => exact h.frame rfl
  | merge _ _ hf => exact h.update hf Cache.lowerFillLevel_sameMiss rfl

/-- `add_pq` does not touch the table. -/
theorem Cache.PqStep.mshr_eq {p : Packet} {r : Reply} (hs : Cache.PqStep cfg env c p r c' evs) :
    c'.mshr = c.mshr := by
  cases hs <;> rfl

/-- Every step of a cache keeps its table well kept. -/
theorem MshrOk.act (h : MshrOk cfg c) {a : Action} (hr : ReturnsInflight c (env, a))
    (hs : c.act cfg env a = some (c', evs)) : MshrOk cfg c' := by
  cases a with
  | addRq p =>
    obtain ⟨r, evs', hx, _⟩ := Cache.replied_some hs
    cases Cache.addRq_cases hx <;> exact h.frame rfl
  | addWq p =>
    obtain ⟨r, evs', hx, _⟩ := Cache.replied_some hs
    cases (Cache.addWq_cases hx).1 <;> exact h.frame rfl
  | addPq p =>
    obtain ⟨r, evs', hx, _⟩ := Cache.replied_some hs
    exact h.frame (Cache.addPq_cases hx).mshr_eq
  | prefetchLine cpu ip pfAddr fill metadata =>
    simp only [Cache.act, Cache.prefetchLine] at hs
    split at hs
    · split at hs
      · cases hs
      · rename_i hx
        cases hs
        exact h.frame (Cache.addPq_cases hx).mshr_eq
    · cases hs
      exact h.frame rfl
  | returnData p =>
    obtain ⟨c₁, hx, he⟩ := Option.map_eq_some_iff.1 hs
    cases he
    exact h.returnData hr hx
  | invalidateEntry a =>
    cases hs
    refine h.frame ?_
    rw [Cache.invalidateEntry]
    split <;> rfl
  | updateRob cpu =>
    cases hs
    refine h.frame ?_
    rw [Cache.updateRob]
    split
    · rfl
    · split <;> rfl
  | handleFill => exact h.fillStep (Cache.handleFill_cases hs)
  | handleWriteback => exact h.writebackStep (Cache.handleWriteback_cases hs)
  | startReads =>
    cases hs
    exact h.frame rfl
  | readOne => exact h.readStep (Cache.readOne_cases hs)
  | prefetchOne => exact h.prefetchStep (Cache.prefetchOne_cases hs)

end

/-- The bookkeeping holds in every reachable state of a cache whose lower level answers only what is
in flight. -/
theorem MshrOk.reachable {cfg : Config} {c : Cache}
    (h : (cacheLts cfg).Reachable ReturnsInflight c) : MshrOk cfg c := by
  refine h.invariant (I := MshrOk cfg) ?_ ?_
  · rintro s rfl
    exact ⟨Mshr.init_ok _ _, by simp [Cache.init, Mshr.init, Mshr.size]⟩
  · intro s l s' os hI hok hs
    exact hI.act hok hs

/-- The MSHR bookkeeping of a reachable cache: the occupied entries have distinct addresses, the two
counters count them and the returned ones, and the cached fill cycle is the minimum over the
returned entries, attained at the cached index. So `handle_fill` does nothing or gives up a returned
entry, and `add_mshr`, which is called for an address that is not in the table while the counter is
below `MSHR_SIZE`, finds a free slot. -/
theorem mshr_bookkeeping (cfg : Config) (c : Cache)
    (h : (cacheLts cfg).Reachable ReturnsInflight c) :
    ((c.mshr.entry.filter fun e => decide (e.address ≠ 0)).map (·.address)).Nodup ∧
    c.mshr.occupancy = c.mshr.entry.countP (fun e => e.address != 0) ∧
    c.mshr.numReturned = c.mshr.entry.countP (fun e => e.returned == .completed) ∧
    c.mshr.nextFillCycle = c.mshr.minFillCycle ∧
    (c.mshr.nextFillCycle < uint64Max →
      ∃ e, c.mshr.nextFill = some e ∧ e.returned = .completed ∧
        e.eventCycle = c.mshr.nextFillCycle) ∧
    (∀ env c' evs, c.handleFill cfg env = some (c', evs) →
      (c' = c ∧ evs = []) ∨
        ∃ e, c.mshr.nextFill = some e ∧ e.returned = .completed ∧
          c'.mshr = c.mshr.remove cfg.numCpus c.mshr.nextFillIndex) ∧
    (∀ a, c.mshr.checkMshr a = none → c.mshr.occupancy < cfg.mshrSize →
      ∃ i e, c.mshr.checkMshr 0 = some (i, e) ∧ e.returned = .unset) := by
  have hm := MshrOk.reachable h
  refine ⟨hm.ok.keyed.nodup, hm.ok.occupancy, hm.ok.numReturned, hm.ok.nextFillCycle_eq,
    hm.ok.attained, ?_, ?_⟩
  · intro env c' evs hs
    cases Cache.handleFill_cases hs with
    | idle => exact .inl ⟨rfl, rfl⟩
    | bypass hd _ =>
      obtain ⟨_, _, hc⟩ := hd.completed hm.ok
      exact .inr ⟨_, hd.next, hc, rfl⟩
    | fill hd _ =>
      obtain ⟨_, _, hc⟩ := hd.completed hm.ok
      exact .inr ⟨_, hd.next, hc, rfl⟩
  · intro a _ hlt
    obtain ⟨i, e, hf⟩ := hm.ok.exists_free (hm.size ▸ hlt)
    obtain ⟨_, _, h0⟩ := Mshr.checkMshr_some hf
    exact ⟨i, e, hf, (hm.ok.free e (Mshr.mem_of_checkMshr hf)).1 h0⟩

/-- A load packet of core 0 for a line. -/
def loadPacket (numCpus : ℕ) (a : Addr) (lqIndex : ℕ) : Packet :=
  { Packet.empty numCpus with
    fillLevel := fillL1, cpu := 0, address := a, fullAddr := a <<< log2BlockSize,
    lqIndex := lqIndex, eventCycle := 0 }

/-- The bookkeeping at work: two misses of the L1D, the second of which has been answered. -/
theorem mshr_bookkeeping_two_misses :
    ∃ c : Cache, c.mshr.occupancy = 2 ∧ c.mshr.numReturned = 1 ∧
      c.mshr.nextFillCycle = c.mshr.minFillCycle := by
  obtain ⟨c, hr, hp⟩ := Lts.reachable_of_exec (cacheLts (l1dConfig 1)) ReturnsInflight
    (fun c => c.mshr.occupancy == 2 && c.mshr.numReturned == 1)
    ([Action.addRq (loadPacket 1 7 0), .addRq (loadPacket 1 9 1)].map (Env.calmAt 10, ·) ++
      [Action.startReads, .readOne, .readOne, .returnData (loadPacket 1 9 1)].map
        (Env.calmAt 15, ·)) rfl (by decide +kernel)
  obtain ⟨h1, h2⟩ : c.mshr.occupancy = 2 ∧ c.mshr.numReturned = 1 := by simpa using hp
  exact ⟨c, h1, h2, (mshr_bookkeeping (l1dConfig 1) c hr).2.2.2.1⟩

end Arishem
