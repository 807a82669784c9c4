import Arishem.Dram.Bookkeeping
import Arishem.Lib.Deadlines
import Mathlib.Algebra.Order.BigOperators.Group.List

/-!
# The memory controller makes progress

A channel without arrivals serves its queues to the end. Each call of `operate` that finds the noted
cycles of the channel past starts a request, finishes one or changes the mode; none of this can be
undone more than a few times, since a channel goes through four changes of its mode at most before
both queues are empty. The indices that the queues cache are those that a scan would find.
-/

namespace Arishem

/-- The watermarks of the macros: a write queue that is not yet to be drained is not at its high
watermark. -/
structure DramConfig.Drains (cfg : DramConfig) : Prop where
  channels_pos : 0 < cfg.channels
  high_pos : 0 < cfg.writeHighWm
  low_le : cfg.writeLowWm ≤ cfg.writeHighWm

/-- How far ahead of a call the cycles lie that it notes. -/
def DramConfig.wait (cfg : DramConfig) : ℕ :=
  cfg.tRP.toNat + cfg.tRCD.toNat + cfg.tCAS.toNat + cfg.dbusReturnTime.toNat +
    cfg.dbusTurnAroundTime.toNat

/-- The cached indices are up to date, where there is something to index. -/
structure DramQueue.Cached (q : DramQueue) : Prop where
  schedule : ∀ e ∈ q.entry, e.address ≠ 0 → e.scheduled = false → q.updateScheduleCycle = q
  process : ∀ e ∈ q.entry, e.scheduled = true → q.updateProcessCycle = q

namespace MemoryController

/-- The cycles that are noted in a channel are at most `t`. -/
structure Noted (ch t : ℕ) (s : MemoryController) : Prop where
  entry : ∀ k, ∀ e ∈ (s.queue k ch).entry, e.address ≠ 0 → e.packet.eventCycle.toNat ≤ t
  bank : ∀ b, b.channel = ch → (s.bankRequest b).cycleAvailable.toNat ≤ t
  dbus : (s.dbusCycleAvailable ch).toNat ≤ t

/-- Two states have the same channel. -/
structure SameChannel (ch : ℕ) (s s' : MemoryController) : Prop where
  queue : ∀ k, s'.queue k ch = s.queue k ch
  bank : ∀ b, b.channel = ch → s'.bankRequest b = s.bankRequest b
  writeMode : s'.writeMode ch = s.writeMode ch
  scheduled : ∀ k, s'.scheduled k ch = s.scheduled k ch
  dbus : s'.dbusCycleAvailable ch = s.dbusCycleAvailable ch

/-- A part of `operate` for one channel leaves the others alone. -/
def Local (ch : ℕ) (s s' : MemoryController) : Prop := ∀ ch', ch' ≠ ch → SameChannel ch' s s'

/-- The cached indices of all queues. -/
def Cached (s : MemoryController) : Prop := ∀ k ch, (s.queue k ch).Cached

section
variable {cfg : DramConfig} {env : DramEnv} {s s' s'' : MemoryController} {k k' : QueueKind}
variable {ch ch' i t c n m : ℕ} {e : DramEntry} {hit : Bool} {evs : List DramEvent}

theorem SameChannel.refl (ch : ℕ) (s : MemoryController) : SameChannel ch s s :=
  ⟨fun _ => rfl, fun _ _ => rfl, rfl, fun _ => rfl, rfl⟩

theorem SameChannel.trans (h : SameChannel ch s s') (h' : SameChannel ch s' s'') :
    SameChannel ch s s'' where
  queue k := (h'.queue k).trans (h.queue k)
  bank b hb := (h'.bank b hb).trans (h.bank b hb)
  writeMode := h'.writeMode.trans h.writeMode
  scheduled k := (h'.scheduled k).trans (h.scheduled k)
  dbus := h'.dbus.trans h.dbus

theorem Local.refl (ch : ℕ) (s : MemoryController) : Local ch s s := fun ch' _ => .refl ch' s

theorem Local.trans (h : Local ch s s') (h' : Local ch s' s'') : Local ch s s'' :=
  fun ch' hne => (h ch' hne).trans (h' ch' hne)

theorem Noted.mono {t' : ℕ} (h : Noted ch t s) (ht : t ≤ t') : Noted ch t' s where
  entry k e he hne := (h.entry k e he hne).trans ht
  bank b hb := (h.bank b hb).trans ht
  dbus := h.dbus.trans ht

theorem Noted.same (h : Noted ch t s) (hs : SameChannel ch s s') : Noted ch t s' where
  entry k e he hne := h.entry k e (hs.queue k ▸ he) hne
  bank b hb := by
    rw [hs.bank b hb]
    exact h.bank b hb
  dbus := hs.dbus ▸ h.dbus

/-! ## The cached indices -/

/-- A scan that finds a selected request finds one that is due no later. -/
theorem firstMin_found {q : DramQueue} (sel : DramEntry → Bool) (he : e ∈ q.entry) (hs : sel e = true)
    (hlt : e.packet.eventCycle < uint64Max) :
    ∃ e', q.entry[(Slots.firstMin sel (·.packet.eventCycle) q.entry 0 (uint64Max, q.size)).2]? =
        some e' ∧ sel e' = true ∧
      (Slots.firstMin sel (·.packet.eventCycle) q.entry 0 (uint64Max, q.size)).1 ≤
        e.packet.eventCycle := by
  have hle : (Slots.firstMin sel (·.packet.eventCycle) q.entry 0 (uint64Max, q.size)).1 ≤
      e.packet.eventCycle := Slots.firstMin_le q.entry 0 (uint64Max, q.size) e he hs
  rcases Slots.firstMin_attained sel (·.packet.eventCycle) q.entry 0 (uint64Max, q.size) with
    heq | ⟨j, hj, hindex, hsel, -, -⟩
  · rw [heq] at hle
    exact absurd hlt (not_lt.2 hle)
  · refine ⟨q.entry[j], ?_, hsel, hle⟩
    rw [hindex, Nat.zero_add]
    exact List.getElem?_eq_getElem hj

theorem cached_update (q : DramQueue) :
    q.updateScheduleCycle.updateProcessCycle.Cached :=
  ⟨fun _ _ _ _ => rfl, fun _ _ _ => rfl⟩

theorem updateScheduleCycle_eq {q : DramQueue} : q.updateScheduleCycle = q ↔
    Slots.firstMin (fun e : DramEntry => e.address != 0 && !e.scheduled) (·.packet.eventCycle)
      q.entry 0 (uint64Max, q.size) = (q.nextScheduleCycle, q.nextScheduleIndex) := by
  constructor
  · intro h
    exact Prod.ext (congrArg DramQueue.nextScheduleCycle h) (congrArg DramQueue.nextScheduleIndex h)
  · intro h
    rw [DramQueue.updateScheduleCycle, h]

theorem updateProcessCycle_eq {q : DramQueue} : q.updateProcessCycle = q ↔
    Slots.firstMin DramEntry.scheduled (·.packet.eventCycle) q.entry 0 (uint64Max, q.size) =
      (q.nextProcessCycle, q.nextProcessIndex) := by
  constructor
  · intro h
    exact Prod.ext (congrArg DramQueue.nextProcessCycle h) (congrArg DramQueue.nextProcessIndex h)
  · intro h
    rw [DramQueue.updateProcessCycle, h]

/-- A slot whose request is not to be scheduled is overwritten by another such. -/
theorem updateScheduleCycle_set {q q' : DramQueue} {e' : DramEntry} (he : q.entry[i]? = some e)
    (hold : e.scheduled = true ∨ e.address = 0) (hnew : e'.scheduled = true ∨ e'.address = 0)
    (hentry : q'.entry = q.entry.set i e') (hcycle : q'.nextScheduleCycle = q.nextScheduleCycle)
    (hindex : q'.nextScheduleIndex = q.nextScheduleIndex) (h : q.updateScheduleCycle = q) :
    q'.updateScheduleCycle = q' := by
  obtain ⟨hi, hget⟩ := List.getElem?_eq_some_iff.1 he
  have hsel : ∀ e : DramEntry, e.scheduled = true ∨ e.address = 0 →
      (e.address != 0 && !e.scheduled) = false := by
    rintro e (hs | hz)
    · rw [hs, Bool.not_true, Bool.and_false]
    · simp [hz]
  rw [updateScheduleCycle_eq] at h ⊢
  rw [hcycle, hindex, ← h, DramQueue.size, hentry, List.length_set]
  exact @Slots.firstMin_set _ _ _ (fun e : DramEntry => e.address != 0 && !e.scheduled) _ e'
    (hsel e' hnew) _ _ _ _ hi (hsel _ (hget ▸ hold))

/-- A slot whose request is not scheduled is overwritten by another such. -/
theorem updateProcessCycle_set {q q' : DramQueue} {e' : DramEntry} (he : q.entry[i]? = some e)
    (hold : e.scheduled = false) (hnew : e'.scheduled = false)
    (hentry : q'.entry = q.entry.set i e') (hcycle : q'.nextProcessCycle = q.nextProcessCycle)
    (hindex : q'.nextProcessIndex = q.nextProcessIndex) (h : q.updateProcessCycle = q) :
    q'.updateProcessCycle = q' := by
  obtain ⟨hi, hget⟩ := List.getElem?_eq_some_iff.1 he
  rw [updateProcessCycle_eq] at h ⊢
  rw [hcycle, hindex, ← h, DramQueue.size, hentry, List.length_set]
  exact Slots.firstMin_set _ hnew _ _ _ _ hi (hget ▸ hold)

/-- A queue is written, and the others stay. -/
theorem Cached.modifyQueue {f : DramQueue → DramQueue} (h : Cached s) (hq : (f (s.queue k ch)).Cached) :
    Cached (s.modifyQueue k ch f) := by
  intro k' ch'
  rw [modifyQueue_queue]
  split
  · exact hq
  · exact h k' ch'

/-- The packet that arrives changes what is to be scheduled only. -/
theorem Cached.arrive (h : Cached s) (hs : Agree cfg s) (p : Packet) : Cached (s.arrive cfg k p) := by
  refine h.modifyQueue ⟨fun _ _ _ _ => rfl, fun e he hsched => ?_⟩
  generalize hq : s.queue k (cfg.getChannel p.address) = q at he ⊢
  have hold : ∀ e ∈ q.entry, e.scheduled = true → q.updateProcessCycle = q :=
    hq ▸ (h k (cfg.getChannel p.address)).process
  suffices hsame : (q.insert p).updateProcessCycle = q.insert p from
    congrArg DramQueue.updateScheduleCycle hsame
  have he : e ∈ (q.insert p).entry := he
  rw [DramQueue.insert] at he ⊢
  split at he
  · rename_i i e₀ hfree
    obtain ⟨hslot, hzero⟩ := checkDramQueue_some hfree
    have hidle : e₀.scheduled = false := by
      by_contra hcon
      have hactive : s.Active k (cfg.getChannel p.address) i e₀ :=
        ⟨by rw [slot, hq]; exact hslot, by simpa using hcon⟩
      exact hs.occupied _ _ _ _ hactive hzero
    have hmem : e ∈ q.entry := by
      rcases List.mem_or_eq_of_mem_set he with hmem | rfl
      · exact hmem
      · cases hsched
    exact updateProcessCycle_set hslot hidle rfl rfl rfl rfl (hold e hmem hsched)
  · exact hold e he hsched

/-! ## Requests that are started -/

/-- What a part of `operate` does to the counts of a channel: `n` requests of a queue are started and
`m` are finished. -/
structure Worked (s s' : MemoryController) (k : QueueKind) (ch n m : ℕ) : Prop where
  writeMode : s'.writeMode ch = s.writeMode ch
  scheduled : s'.scheduled k ch + m = s.scheduled k ch + n
  occupancy : (s'.queue k ch).occupancy + m = (s.queue k ch).occupancy
  other : ∀ k', k' ≠ k → (s'.queue k' ch).occupancy = (s.queue k' ch).occupancy ∧
    s'.scheduled k' ch = s.scheduled k' ch

theorem Worked.refl (s : MemoryController) (k : QueueKind) (ch : ℕ) : Worked s s k ch 0 0 :=
  ⟨rfl, rfl, rfl, fun _ _ => ⟨rfl, rfl⟩⟩

theorem Worked.trans {n' m' : ℕ} (h : Worked s s' k ch n m) (h' : Worked s' s'' k ch n' m') :
    Worked s s'' k ch (n + n') (m + m') where
  writeMode := h'.writeMode.trans h.writeMode
  scheduled := by
    have h₁ := h.scheduled
    have h₂ := h'.scheduled
    omega
  occupancy := by
    have h₁ := h.occupancy
    have h₂ := h'.occupancy
    omega
  other k' hk := by
    obtain ⟨ho, hs⟩ := h.other k' hk
    obtain ⟨ho', hs'⟩ := h'.other k' hk
    exact ⟨ho'.trans ho, hs'.trans hs⟩

/-- The latency of a request. -/
def latencyOf (cfg : DramConfig) (hit : Bool) : Cycle :=
  if hit then cfg.tCAS else cfg.tRP + cfg.tRCD + cfg.tCAS

theorem toNat_add_le (a b : UInt64) : (a + b).toNat ≤ a.toNat + b.toNat := by
  rw [UInt64.toNat_add]
  exact Nat.mod_le _ _

theorem latencyOf_le (cfg : DramConfig) (hit : Bool) :
    (latencyOf cfg hit).toNat ≤ cfg.tRP.toNat + cfg.tRCD.toNat + cfg.tCAS.toNat := by
  have hsum := toNat_add_le (cfg.tRP + cfg.tRCD) cfg.tCAS
  have hpair := toNat_add_le cfg.tRP cfg.tRCD
  rw [latencyOf]
  split <;> omega

/-- The queues after a start. -/
theorem start_queue : (s.start cfg env k ch i hit e).queue k' ch' =
      if k' = k ∧ ch' = ch then
        { s.queue k ch with
          entry := (s.queue k ch).entry.set i
            (marked true (env.cycle e.packet.cpu + latencyOf cfg hit)
              e) }.updateScheduleCycle.updateProcessCycle
      else s.queue k' ch' := by
  simp only [start, modifyQueue_queue, setEntry_queue, setScheduled_queue, setBank_queue, and_self,
    if_true]
  split <;> rfl

/-- A part of `operate` for a channel at a cycle: the cycles that it notes lie ahead by `d` at most, and
where it starts and finishes nothing it notes none. -/
structure Works (c t d : ℕ) (s s' : MemoryController) (k : QueueKind) (ch n m : ℕ) :
    Prop where
  worked : Worked s s' k ch n m
  noted : Noted ch (max t c + d) s'
  quiet : n = 0 → m = 0 → Noted ch t s'
  cached : Cached s'
  others : Local ch s s'

theorem start_works (hs : Agree cfg s) (he : s.slot k ch i = some e) (hne : e.address ≠ 0)
    (hcached : Cached s) (hnoted : Noted ch t s) (hnow : (env.cycle e.packet.cpu).toNat ≤ c) :
    Works c t (cfg.tRP.toNat + cfg.tRCD.toNat + cfg.tCAS.toNat) s (s.start cfg env k ch i hit e)
      k ch 1 0 := by
  have hch : (cfg.bankOf e.address).channel = ch := hs.home _ _ _ _ he hne
  have hdue : (env.cycle e.packet.cpu + latencyOf cfg hit).toNat ≤
      max t c + (cfg.tRP.toNat + cfg.tRCD.toNat + cfg.tCAS.toNat) := by
    have hsum := toNat_add_le (env.cycle e.packet.cpu) (latencyOf cfg hit)
    have hle := latencyOf_le cfg hit
    omega
  have hlate : t ≤ max t c + (cfg.tRP.toNat + cfg.tRCD.toNat + cfg.tCAS.toNat) := by omega
  have hqueue : ∀ k' ch', (s.start cfg env k ch i hit e).queue k' ch' = _ := fun _ _ =>
    start_queue
  have hbank : (s.start cfg env k ch i hit e).bankRequest = Function.update s.bankRequest
      (cfg.bankOf e.address)
        { cycleAvailable := env.cycle e.packet.cpu + latencyOf cfg hit
          openRow := cfg.getRow e.address
          working := true
          workingType := e.packet.type
          rowBufferHit := hit
          isWrite := k = .wq
          isRead := k = .rq
          requestIndex := some i } := rfl
  have hscheduled : ∀ k' ch', (s.start cfg env k ch i hit e).scheduled k' ch' =
      if k' = k ∧ ch' = ch then s.scheduled k ch + 1 else s.scheduled k' ch' := fun k' ch' => by
    simp only [start, modifyQueue_scheduled, setEntry_scheduled, setScheduled_scheduled,
      setBank_scheduled, hch]
  refine ⟨⟨rfl, ?_, ?_, fun k' hk => ⟨?_, ?_⟩⟩, ⟨fun k' e' he' hne' => ?_, fun b hb => ?_, ?_⟩,
    fun hn => absurd hn Nat.one_ne_zero, fun k' ch' => ?_,
    fun ch' hne' => ⟨fun k' => ?_, fun b hb => ?_, rfl, fun k' => ?_, rfl⟩⟩
  · rw [hscheduled, if_pos ⟨rfl, rfl⟩]
  · rw [hqueue, if_pos ⟨rfl, rfl⟩]
    rfl
  · rw [hqueue, if_neg fun h => hk h.1]
  · rw [hscheduled, if_neg fun h => hk h.1]
  · rw [hqueue] at he'
    split at he'
    · rcases List.mem_or_eq_of_mem_set he' with hmem | rfl
      · exact (hnoted.entry k e' hmem hne').trans hlate
      · exact hdue
    · exact (hnoted.entry k' e' he' hne').trans hlate
  · rw [hbank]
    rcases eq_or_ne b (cfg.bankOf e.address) with rfl | hb'
    · rw [Function.update_self]
      exact hdue
    · rw [Function.update_of_ne hb']
      exact (hnoted.bank b hb).trans hlate
  · exact hnoted.dbus.trans hlate
  · rw [hqueue]
    split
    · exact cached_update _
    · exact hcached k' ch'
  · rw [hqueue, if_neg fun h => hne' h.2]
  · rw [hbank, Function.update_of_ne]
    rintro rfl
    exact hne' (hb.symm.trans hch)
  · rw [hscheduled, if_neg fun h => hne' h.2]

/-- A part that does nothing. -/
theorem Works.refl (k : QueueKind) {d : ℕ} (hcached : Cached s) (hnoted : Noted ch t s) :
    Works c t d s s k ch 0 0 :=
  ⟨.refl s k ch, hnoted.mono (by omega), fun _ _ => hnoted, hcached, .refl ch s⟩

/-- A request whose bank is idle is found. -/
theorem oldest_ne_none (he : e ∈ (s.queue k ch).entry) (hs : s.schedulable cfg e = true)
    (hlt : e.packet.eventCycle < uint64Max) : s.oldest cfg k ch ≠ none := by
  obtain ⟨e', he', -, -⟩ := firstMin_found _ he hs hlt
  have hindex := (List.getElem?_eq_some_iff.1 he').1
  rw [oldest]
  dsimp only
  split
  · exact Option.some_ne_none _
  · exact Option.some_ne_none _

/-- `schedule` starts the request that it finds. -/
theorem schedule_works (hs : Agree cfg s) (hcached : Cached s) (hnoted : Noted ch t s)
    (hnow : ∀ cpu, (env.cycle cpu).toNat ≤ c) (k : QueueKind) :
    ∃ n, Works c t (cfg.tRP.toNat + cfg.tRCD.toNat + cfg.tCAS.toNat) s (s.schedule cfg env k ch)
      k ch n 0 ∧ (n = 0 → s.schedule cfg env k ch = s ∧ s.oldest cfg k ch = none) := by
  rw [schedule]
  cases hold : s.oldest cfg k ch with
  | none => exact ⟨0, .refl k hcached hnoted, fun _ => ⟨rfl, rfl⟩⟩
  | some r =>
    obtain ⟨i, hit⟩ := r
    obtain ⟨e, he, hschedulable⟩ := oldest_some hold
    have hne : e.address ≠ 0 := by
      simp only [schedulable, Bool.and_eq_true, bne_iff_ne] at hschedulable
      exact hschedulable.1.2
    dsimp only
    rw [he]
    exact ⟨1, start_works hs he hne hcached hnoted (hnow _), fun hn => absurd hn Nat.one_ne_zero⟩

/-! ## Requests that are finished -/

/-- The controller after a request is finished. -/
def finished (cfg : DramConfig) (env : DramEnv) (k : QueueKind) (ch i : ℕ) (e : DramEntry)
    (s : MemoryController) : MemoryController :=
  (((s.setDbus ch (env.cycle e.packet.cpu + cfg.dbusReturnTime)).freeBank
    (cfg.bankOf e.address)).setScheduled k ch (s.scheduled k ch - 1)).modifyQueue k ch fun _ =>
      { s.queue k ch with
        entry := (s.queue k ch).entry.set i (.empty cfg.numCpus)
        occupancy := (s.queue k ch).occupancy - 1
        head := if (s.queue k ch).size ≤ (s.queue k ch).head + 1 then 0
          else (s.queue k ch).head + 1 }.updateProcessCycle

theorem channel_of_active (hs : Agree cfg s) (ha : s.Active k ch i e) :
    (cfg.bankOf e.address).channel = ch :=
  hs.home _ _ _ _ ha.1 (hs.occupied _ _ _ _ ha)

theorem occupancy_pos (hs : Agree cfg s) (ha : s.Active k ch i e) :
    0 < (s.queue k ch).occupancy := by
  rw [hs.occupancy]
  exact List.countP_pos_iff.2
    ⟨e, List.mem_of_getElem? ha.1, by simpa using hs.occupied _ _ _ _ ha⟩

theorem scheduled_pos (hs : Agree cfg s) (ha : s.Active k ch i e) : 0 < s.scheduled k ch := by
  rw [hs.count]
  exact List.countP_pos_iff.2 ⟨e, List.mem_of_getElem? ha.1, ha.2⟩

theorem finish_eq (hs : Agree cfg s) (ha : s.Active k ch i e)
    (h : s.finish cfg env k ch i e = some (s', evs)) : s' = s.finished cfg env k ch i e := by
  have hremove : (s.queue k ch).removeQueue cfg.numCpus i =
      some { s.queue k ch with
        entry := (s.queue k ch).entry.set i (.empty cfg.numCpus)
        occupancy := (s.queue k ch).occupancy - 1
        head := if (s.queue k ch).size ≤ (s.queue k ch).head + 1 then 0
          else (s.queue k ch).head + 1 } := by
    rw [DramQueue.removeQueue, if_neg fun hz => (occupancy_pos hs ha).ne' hz.1]
  rw [finish] at h
  simp only [setScheduled_queue, freeBank_queue, setDbus_queue, hremove,
    channel_of_active hs ha] at h
  exact (Prod.mk.inj (Option.some.inj h)).1.symm

theorem finished_queue : (s.finished cfg env k ch i e).queue k' ch' =
    if k' = k ∧ ch' = ch then
      { s.queue k ch with
        entry := (s.queue k ch).entry.set i (.empty cfg.numCpus)
        occupancy := (s.queue k ch).occupancy - 1
        head := if (s.queue k ch).size ≤ (s.queue k ch).head + 1 then 0
          else (s.queue k ch).head + 1 }.updateProcessCycle
    else s.queue k' ch' := by
  rw [finished, modifyQueue_queue]
  rfl

theorem finished_scheduled : (s.finished cfg env k ch i e).scheduled k' ch' =
    if k' = k ∧ ch' = ch then s.scheduled k ch - 1 else s.scheduled k' ch' := by
  rw [finished, modifyQueue_scheduled, setScheduled_scheduled, freeBank_scheduled,
    setDbus_scheduled]

theorem finished_bankRequest (b : BankId) : (s.finished cfg env k ch i e).bankRequest b =
    (s.freeBank (cfg.bankOf e.address)).bankRequest b := by
  rw [finished, modifyQueue_bankRequest, setScheduled_bankRequest]
  rfl

theorem finished_dbus : (s.finished cfg env k ch i e).dbusCycleAvailable =
    Function.update s.dbusCycleAvailable ch (env.cycle e.packet.cpu + cfg.dbusReturnTime) := rfl

/-- The requests that are left, in a queue from which one was finished. -/
theorem mem_of_finished {e' : DramEntry}
    (he : e' ∈ ((s.finished cfg env k ch i e).queue k' ch').entry) (hne : e'.address ≠ 0) :
    e' ∈ (s.queue k' ch').entry := by
  rw [finished_queue] at he
  split at he
  · rename_i hk
    rw [hk.1, hk.2]
    rcases List.mem_or_eq_of_mem_set he with hmem | rfl
    · exact hmem
    · exact absurd rfl hne
  · exact he

theorem finished_noted (hnoted : Noted ch t s) (hnow : (env.cycle e.packet.cpu).toNat ≤ c) :
    Noted ch (max t c + cfg.dbusReturnTime.toNat) (s.finished cfg env k ch i e) := by
  have hlate : t ≤ max t c + cfg.dbusReturnTime.toNat := by omega
  refine ⟨fun k' e' he' hne' => ?_, fun b hb => ?_, ?_⟩
  · exact (hnoted.entry k' e' (mem_of_finished he' hne') hne').trans hlate
  · rw [finished_bankRequest]
    rcases eq_or_ne b (cfg.bankOf e.address) with rfl | hb'
    · rw [freeBank, setBank_bankRequest, Function.update_self]
      exact (hnoted.bank _ hb).trans hlate
    · rw [freeBank_of_ne hb']
      exact (hnoted.bank b hb).trans hlate
  · rw [finished_dbus, Function.update_self]
    have hsum := toNat_add_le (env.cycle e.packet.cpu) cfg.dbusReturnTime
    omega

theorem finished_cached (hcached : Cached s) (ha : s.Active k ch i e) :
    Cached (s.finished cfg env k ch i e) := by
  intro k' ch'
  rw [finished_queue]
  split
  · refine ⟨fun e' he' hne' hidle => ?_, fun _ _ _ => rfl⟩
    have hmem : e' ∈ (s.queue k ch).entry := by
      rcases List.mem_or_eq_of_mem_set he' with hmem | rfl
      · exact hmem
      · exact absurd rfl hne'
    have hold := (hcached k ch).schedule e' hmem hne' hidle
    exact updateScheduleCycle_set ha.1 (.inl ha.2) (.inr rfl) rfl rfl rfl hold
  · exact hcached k' ch'

theorem finished_local (hch : (cfg.bankOf e.address).channel = ch) :
    Local ch s (s.finished cfg env k ch i e) := by
  refine fun ch' hne => ⟨fun k' => ?_, fun b hb => ?_, rfl, fun k' => ?_, ?_⟩
  · rw [finished_queue, if_neg fun h => hne h.2]
  · rw [finished_bankRequest, freeBank_of_ne]
    rintro rfl
    exact hne (hb.symm.trans hch)
  · rw [finished_scheduled, if_neg fun h => hne h.2]
  · rw [finished_dbus, Function.update_of_ne hne]

/-- A request whose bank and bus are ready is finished. -/
theorem finish_works (hs : Agree cfg s) (hcached : Cached s) (hnoted : Noted ch t s)
    (hnow : (env.cycle e.packet.cpu).toNat ≤ c) (ha : s.Active k ch i e)
    (h : s.finish cfg env k ch i e = some (s', evs)) :
    Works c t cfg.dbusReturnTime.toNat s s' k ch 0 1 := by
  obtain rfl := finish_eq hs ha h
  refine ⟨⟨rfl, ?_, ?_, fun k' hk => ⟨?_, ?_⟩⟩, finished_noted hnoted hnow,
    fun _ hm => absurd hm Nat.one_ne_zero, finished_cached hcached ha,
    finished_local (channel_of_active hs ha)⟩
  · have hpos := scheduled_pos hs ha
    rw [finished_scheduled, if_pos ⟨rfl, rfl⟩]
    omega
  · rw [finished_queue, if_pos ⟨rfl, rfl⟩]
    exact Nat.sub_add_cancel (occupancy_pos hs ha)
  · rw [finished_queue, if_neg fun h => hk h.1]
  · rw [finished_scheduled, if_neg fun h => hk h.1]

/-- `process` finishes its request unless the bank or the bus is not ready. -/
theorem process_works (hs : Agree cfg s) (hcached : Cached s) (hnoted : Noted ch t s)
    (hnow : ∀ cpu, (env.cycle cpu).toNat ≤ c) (ha : s.Active k ch (s.queue k ch).nextProcessIndex e)
    (h : s.process cfg env k ch = some (s', evs)) :
    ∃ m, Works c t cfg.dbusReturnTime.toNat s s' k ch 0 m ∧
      ((∀ cpu, t ≤ (env.cycle cpu).toNat) → m = 1) := by
  have hserved := hs.bank _ _ _ _ ha
  have hne := hs.occupied _ _ _ _ ha
  have hch : (cfg.bankOf e.address).channel = ch := hs.home _ _ _ _ ha.1 hne
  have hbank := hnoted.bank _ hch
  have hdbus := hnoted.dbus
  rw [process] at h
  simp only [ha.1] at h
  rw [if_neg fun hindex => hindex hserved.requestIndex, hch] at h
  split at h
  · split at h
    · exact ⟨1, finish_works hs hcached hnoted (hnow _) ha h, fun _ => rfl⟩
    · rename_i hbusy
      obtain ⟨rfl, -⟩ := Prod.mk.inj (Option.some.inj h)
      have hnoted' : Noted ch t (s.setBank (cfg.bankOf e.address)
          { s.bankRequest (cfg.bankOf e.address) with
            cycleAvailable := s.dbusCycleAvailable ch }) := by
        refine ⟨hnoted.entry, fun b hb => ?_, hdbus⟩
        rcases eq_or_ne b (cfg.bankOf e.address) with rfl | hb'
        · rw [setBank_bankRequest, Function.update_self]
          exact hdbus
        · rw [setBank_bankRequest, Function.update_of_ne hb']
          exact hnoted.bank b hb
      refine ⟨0, ⟨⟨rfl, rfl, rfl, fun _ _ => ⟨rfl, rfl⟩⟩, hnoted'.mono (by omega), fun _ _ => hnoted',
        hcached, fun ch' hne' => ⟨fun _ => rfl, fun b hb => ?_, rfl, fun _ => rfl, rfl⟩⟩,
        fun hle => absurd (UInt64.le_iff_toNat_le.2 (hdbus.trans (hle _))) hbusy⟩
      rw [setBank_bankRequest, Function.update_of_ne]
      rintro rfl
      exact hne' (hb.symm.trans hch)
  · rename_i hbusy
    obtain ⟨rfl, -⟩ := Prod.mk.inj (Option.some.inj h)
    exact ⟨0, .refl k hcached hnoted,
      fun hle => absurd (UInt64.le_iff_toNat_le.2 (hbank.trans (hle _))) hbusy⟩

/-! ## Serving a queue -/

theorem Works.mono {d d' : ℕ} (h : Works c t d s s' k ch n m) (hd : d ≤ d') :
    Works c t d' s s' k ch n m :=
  ⟨h.worked, h.noted.mono (by omega), h.quiet, h.cached, h.others⟩

/-- A request was started, and then others are finished. -/
theorem Works.trans {d d' n' m' : ℕ} (h : Works c t d s s' k ch n m)
    (h' : Works c (max t c + d) d' s' s'' k ch n' m') (hn : n ≠ 0) :
    Works c t (d + d') s s'' k ch (n + n') (m + m') :=
  ⟨h.worked.trans h'.worked, h'.noted.mono (by omega),
    fun hzero => absurd (Nat.eq_zero_of_add_eq_zero_right hzero) hn, h'.cached,
    h.others.trans h'.others⟩

theorem due_of_le {d : Cycle} (he : s.slot k ch i = some e)
    (hle : ∀ cpu, d.toNat ≤ (env.cycle cpu).toNat) : s.due env k ch i d = true := by
  rw [due, he]
  exact decide_eq_true (UInt64.le_iff_toNat_le.2 (hle _))

/-- A request that waits is found when its cycle is past. -/
theorem due_schedule (hcached : (s.queue k ch).Cached) (hnoted : Noted ch t s)
    (ht : t < uint64Max.toNat) (hle : ∀ cpu, t ≤ (env.cycle cpu).toNat)
    (he : e ∈ (s.queue k ch).entry) (hne : e.address ≠ 0) (hidle : e.scheduled = false) :
    s.due env k ch (s.queue k ch).nextScheduleIndex (s.queue k ch).nextScheduleCycle = true := by
  have hcycle := hnoted.entry k e he hne
  have hfound := firstMin_found (fun e : DramEntry => e.address != 0 && !e.scheduled) he
    (by simp [hne, hidle]) (UInt64.lt_iff_toNat_lt.2 (hcycle.trans_lt ht))
  rw [updateScheduleCycle_eq.1 (hcached.schedule e he hne hidle)] at hfound
  obtain ⟨e', he', -, hfirst⟩ := hfound
  exact due_of_le he' fun cpu => (UInt64.le_iff_toNat_le.1 hfirst).trans (hcycle.trans (hle cpu))

/-- A scheduled request is found when its cycle is past. -/
theorem due_process (hcached : (s.queue k ch).Cached) (hnoted : Noted ch t s)
    (ht : t < uint64Max.toNat) (hle : ∀ cpu, t ≤ (env.cycle cpu).toNat)
    (he : e ∈ (s.queue k ch).entry) (hne : e.address ≠ 0) (hsched : e.scheduled = true) :
    s.due env k ch (s.queue k ch).nextProcessIndex (s.queue k ch).nextProcessCycle = true := by
  have hcycle := hnoted.entry k e he hne
  have hfound := firstMin_found DramEntry.scheduled he hsched
    (UInt64.lt_iff_toNat_lt.2 (hcycle.trans_lt ht))
  rw [updateProcessCycle_eq.1 (hcached.process e he hsched)] at hfound
  obtain ⟨e', he', -, hfirst⟩ := hfound
  exact due_of_le he' fun cpu => (UInt64.le_iff_toNat_le.1 hfirst).trans (hcycle.trans (hle cpu))

/-- All banks of a channel without scheduled requests are idle. -/
theorem schedulable_of_idle (h : Sound cfg s) (hmode : s.writeMode ch = decide (k = .wq))
    (hnone : ∀ e ∈ (s.queue k ch).entry, e.scheduled = false) (he : e ∈ (s.queue k ch).entry)
    (hne : e.address ≠ 0) : s.schedulable cfg e = true := by
  obtain ⟨i, hi⟩ := List.getElem?_of_mem he
  have hch : (cfg.bankOf e.address).channel = ch := h.agree.home k ch i e hi hne
  have hidle : (s.bankRequest (cfg.bankOf e.address)).working = false := by
    by_contra hworking
    obtain ⟨k', i', e', hactive, -⟩ := h.agree.owner _ (by simpa using hworking)
    rw [hch] at hactive
    have hkind : k' = k := by
      have hdecide := hmode.symm.trans (h.moded _ _ _ _ hactive)
      cases k <;> cases k' <;> first | rfl | cases hdecide
    subst hkind
    have hsched := hnone e' (List.mem_of_getElem? hactive.1)
    rw [hactive.2] at hsched
    cases hsched
  simp [schedulable, hnone e he, hne, hidle]

/-- The queue that is served: when the noted cycles are past, a request is started or finished. -/
theorem serve_works (h : Sound cfg s) (hcached : Cached s) (hnoted : Noted ch t s)
    (hnow : ∀ cpu, (env.cycle cpu).toNat ≤ c) (hmode : s.writeMode ch = decide (k = .wq))
    (hx : s.serve cfg env k ch = some (s', evs)) :
    ∃ n m, Works c t (cfg.tRP.toNat + cfg.tRCD.toNat + cfg.tCAS.toNat + cfg.dbusReturnTime.toNat)
        s s' k ch n m ∧
      ((∀ cpu, t ≤ (env.cycle cpu).toNat) → t < uint64Max.toNat → (s.queue k ch).occupancy ≠ 0 →
        0 < n + m) := by
  have hstarted : ∃ n s₁, (if s.due env k ch (s.queue k ch).nextScheduleIndex
      (s.queue k ch).nextScheduleCycle then s.schedule cfg env k ch else s) = s₁ ∧
      Works c t (cfg.tRP.toNat + cfg.tRCD.toNat + cfg.tCAS.toNat) s s₁ k ch n 0 ∧
      Sound cfg s₁ ∧ (n = 0 → s₁ = s ∧ (s.due env k ch (s.queue k ch).nextScheduleIndex
        (s.queue k ch).nextScheduleCycle = true → s.oldest cfg k ch = none)) := by
    split
    · obtain ⟨n, hworks, hnone⟩ := schedule_works h.agree hcached hnoted hnow k
      obtain ⟨hparts, hone⟩ := @schedule_spec cfg env s k ch h.agree
      exact ⟨n, _, rfl, hworks, h.oneQueue hparts hone hmode,
        fun hn => ⟨(hnone hn).1, fun _ => (hnone hn).2⟩⟩
    · rename_i hdue
      exact ⟨0, s, rfl, .refl k hcached hnoted, h, fun _ => ⟨rfl, fun hd => absurd hd hdue⟩⟩
  obtain ⟨n, s₁, hs₁, hworks, hsound, hnone⟩ := hstarted
  rw [serve] at hx
  simp only [hs₁] at hx
  rcases Nat.eq_zero_or_pos n with rfl | hpos
  · obtain ⟨rfl, holdest⟩ := hnone rfl
    split at hx
    · rename_i hdue
      obtain ⟨e, ha⟩ := due_active (hsound.next k ch) hdue
      obtain ⟨m, hworks', hone⟩ := process_works h.agree hcached hnoted hnow ha hx
      refine ⟨0, m, hworks'.mono (by omega), fun hle _ _ => ?_⟩
      rw [hone hle]
      exact Nat.zero_lt_one
    · rename_i hdue
      obtain ⟨rfl, -⟩ := Prod.mk.inj (Option.some.inj hx)
      refine ⟨0, 0, .refl k hcached hnoted, fun hle ht hocc => ?_⟩
      -- no request is scheduled, since it would have been due
      have hidle : ∀ e ∈ (s₁.queue k ch).entry, e.scheduled = false := by
        intro e he
        by_contra hsched
        have hsched : e.scheduled = true := by simpa using hsched
        obtain ⟨i, hi⟩ := List.getElem?_of_mem he
        exact hdue (due_process (hcached k ch) hnoted ht hle he
          (h.agree.occupied k ch i e ⟨hi, hsched⟩) hsched)
      rw [h.agree.occupancy] at hocc
      obtain ⟨e, he, hlive⟩ := List.countP_pos_iff.1 (Nat.pos_of_ne_zero hocc)
      have hne : e.address ≠ 0 := by simpa using hlive
      have hfind := oldest_ne_none he (schedulable_of_idle h hmode hidle he hne)
        (UInt64.lt_iff_toNat_lt.2 ((hnoted.entry k e he hne).trans_lt ht))
      exact absurd (holdest (due_schedule (hcached k ch) hnoted ht hle he hne (hidle e he)))
        hfind
  · split at hx
    · rename_i hdue
      obtain ⟨e, ha⟩ := due_active (hsound.next k ch) hdue
      obtain ⟨m, hworks', -⟩ := process_works hsound.agree hworks.cached hworks.noted hnow ha hx
      exact ⟨n + 0, 0 + m, hworks.trans hworks' hpos.ne', fun _ _ _ => by omega⟩
    · obtain ⟨rfl, -⟩ := Prod.mk.inj (Option.some.inj hx)
      exact ⟨n, 0, hworks.mono (by omega), fun _ _ _ => by omega⟩

/-! ## Changes of the mode -/

theorem unschedule_available (b : BankId) :
    ((s.unschedule cfg env k ch i e).bankRequest b).cycleAvailable =
      if b = cfg.bankOf e.address then env.cycle e.packet.cpu
      else (s.bankRequest b).cycleAvailable := by
  rw [unschedule]
  dsimp only
  rw [setEntry_bankRequest]
  split_ifs <;> rename_i hb <;> simp [hb, Function.update_of_ne]

/-- A request that is unscheduled notes the cycle of the call only. -/
theorem unschedule_noted (hs : Agree cfg s) (ha : s.Active k ch i e) (hnoted : Noted ch t s)
    (hnow : ∀ cpu, (env.cycle cpu).toNat ≤ t) :
    Noted ch t (s.unschedule cfg env k ch i e) ∧ Local ch s (s.unschedule cfg env k ch i e) := by
  have hch : (cfg.bankOf e.address).channel = ch :=
    hs.home _ _ _ _ ha.1 (hs.occupied _ _ _ _ ha)
  have havailable := fun b => @unschedule_available cfg env s k ch i e b
  obtain ⟨r, -, heq⟩ := unschedule_eq env ch (hs.bank _ _ _ _ ha)
  refine ⟨⟨fun k' e' he' hne' => ?_, fun b hb => ?_, ?_⟩,
    fun ch' hne' => ⟨fun k' => ?_, fun b hb => ?_, ?_, fun k' => ?_, ?_⟩⟩
  · rw [heq, setEntry_queue] at he'
    split at he'
    · rename_i hk
      rcases List.mem_or_eq_of_mem_set he' with hmem | rfl
      · exact hnoted.entry k e' hmem hne'
      · exact hnow _
    · exact hnoted.entry k' e' he' hne'
  · rw [havailable]
    split
    · exact hnow _
    · exact hnoted.bank b hb
  · rw [heq]
    exact hnoted.dbus
  · rw [heq, setEntry_queue, if_neg fun h => hne' h.2]
    rfl
  · rw [heq, setEntry_bankRequest, setBank_bankRequest, Function.update_of_ne]
    · rfl
    · rintro rfl
      exact hne' (hb.symm.trans hch)
  · rw [heq]
    rfl
  · rw [heq, setEntry_scheduled, setBank_scheduled, setScheduled_scheduled,
      if_neg fun h => hne' h.2]
  · rw [heq]
    rfl

/-- The loop of `reset_remain_requests` notes the cycle of the call only. -/
theorem resetLoop_noted (hs : Agree cfg s) (hnoted : Noted ch t s)
    (hnow : ∀ cpu, (env.cycle cpu).toNat ≤ t) (k : QueueKind) (is : List ℕ) :
    Noted ch t (is.foldl (resetOne cfg env k ch) s) ∧
      Local ch s (is.foldl (resetOne cfg env k ch) s) := by
  induction is generalizing s with
  | nil => exact ⟨hnoted, .refl ch s⟩
  | cons i is ih =>
    have hagree := hs.parts (resetOne_spec hs env k ch i).1
    have hone : Noted ch t (s.resetOne cfg env k ch i) ∧ Local ch s (s.resetOne cfg env k ch i) := by
      rw [resetOne]
      split
      · rename_i e he
        split
        · rename_i hsched
          exact unschedule_noted hs ⟨he, hsched⟩ hnoted hnow
        · exact ⟨hnoted, .refl ch s⟩
      · exact ⟨hnoted, .refl ch s⟩
    obtain ⟨hnoted', hlocal⟩ := ih hagree hone.1
    exact ⟨hnoted', hone.2.trans hlocal⟩

/-- Parts that end no request leave the occupancies. -/
theorem occupancy_parts (hp : Parts cfg s s' evs) (hevs : evs = []) (k : QueueKind) (ch : ℕ) :
    (s'.queue k ch).occupancy = (s.queue k ch).occupancy := by
  induction hp with
  | nil => rfl
  | @snoc s₁ s₂ evs₁ evs₂ _ hpart ih =>
    obtain ⟨h₁, rfl⟩ := List.append_eq_nil_iff.1 hevs
    refine Eq.trans ?_ (ih h₁)
    generalize hevs' : ([] : List DramEvent) = evs' at hpart
    cases hpart with
    | quiet hq => exact hq.occupancy k ch
    | start _ _ _ _ _ _ hocc => exact hocc k ch
    | unschedule _ _ _ _ hocc => exact hocc k ch
    | @finish k₁ => cases k₁ <;> cases hevs'

/-- The indices of both queues of a channel are computed anew. -/
theorem cached_refresh (h : ∀ k ch', ch' ≠ ch → (s.queue k ch').Cached) : Cached (s.refresh ch) := by
  intro k ch'
  rcases eq_or_ne ch' ch with rfl | hne
  · cases k
    · simp only [refresh, modifyQueue_queue, reduceCtorEq, false_and, if_false, and_self, if_true]
      exact cached_update _
    · simp only [refresh, modifyQueue_queue, reduceCtorEq, false_and, if_false, and_self, if_true]
      exact cached_update _
  · rw [refresh_other hne]
    exact h k ch' hne

/-- What a change of the mode leaves: nothing of the channel is scheduled. -/
structure Switched (cfg : DramConfig) (c t : ℕ) (s s' : MemoryController) (ch : ℕ) :
    Prop where
  writeMode : s'.writeMode ch = !s.writeMode ch
  occupancy : ∀ k, (s'.queue k ch).occupancy = (s.queue k ch).occupancy
  scheduled : ∀ k, s'.scheduled k ch = 0
  noted : Noted ch (max t c + cfg.dbusTurnAroundTime.toNat) s'
  cached : Cached s'
  others : Local ch s s'

theorem resetRemainRequests_eq {s₁ : MemoryController}
    (h : s.resetRemainRequests cfg env k ch = some s₁) :
    s₁ = (s.unscheduleAll cfg env k ch).refresh ch := by
  rw [resetRemainRequests] at h
  split at h
  · cases h
  · exact (Option.some.inj h).symm

/-- `reset_remain_requests` notes the cycle of the call only, and leaves the other channels alone. -/
theorem resetRemainRequests_works (hs : Agree cfg s) (hcached : Cached s) (hnoted : Noted ch t s)
    (hnow : ∀ cpu, (env.cycle cpu).toNat ≤ t) {s₁ : MemoryController}
    (h : s.resetRemainRequests cfg env k ch = some s₁) :
    Noted ch t s₁ ∧ Cached s₁ ∧ Local ch s s₁ := by
  obtain rfl := resetRemainRequests_eq h
  obtain ⟨-, htable, -⟩ := unscheduleAll_spec hs env k ch
  obtain ⟨hnoted', hlocal⟩ := resetLoop_noted hs hnoted hnow k (List.range (s.queue k ch).size)
  have hrefresh := quiet_refresh ch (s.unscheduleAll cfg env k ch)
  refine ⟨⟨fun k' e he => hnoted'.entry k' e (hrefresh.entry k' ch ▸ he), hnoted'.bank,
    hnoted'.dbus⟩, cached_refresh fun k' ch' hne => ?_, fun ch' hne => ⟨fun k' => ?_,
    (hlocal ch' hne).bank, (hlocal ch' hne).writeMode, (hlocal ch' hne).scheduled,
    (hlocal ch' hne).dbus⟩⟩
  · rw [htable.other k' ch' fun h => hne h.2]
    exact hcached k' ch'
  · rw [refresh_other hne]
    exact (hlocal ch' hne).queue k'

/-- When the mode has changed, nothing of the channel is scheduled: the requests of the other mode are
unscheduled, and of this one there were none. -/
theorem scheduled_setWriteMode (h : Sound cfg s) {mode : Bool} (hswitch : mode ≠ s.writeMode ch)
    {s₁ : MemoryController} (hparts : Parts cfg (s.setWriteMode ch mode) s₁ [])
    (hnone : ∀ i e, ¬ s₁.Active (if mode = true then .rq else .wq) ch i e)
    (hother : ∀ k' ch' i e, ¬ (k' = (if mode = true then QueueKind.rq else .wq) ∧ ch' = ch) →
      (s₁.Active k' ch' i e ↔ (s.setWriteMode ch mode).Active k' ch' i e)) (k : QueueKind) :
    s₁.scheduled k ch = 0 := by
  have hquiet : Quiet s (s.setWriteMode ch mode) :=
    ⟨fun _ _ => rfl, fun _ _ => rfl, rfl, fun _ => rfl, fun _ _ _ hs => hs⟩
  rw [((h.agree.quiet hquiet).parts hparts).count, List.countP_eq_zero]
  intro e he hsched
  obtain ⟨i, hi⟩ := List.getElem?_of_mem he
  have ha : s₁.Active k ch i e := ⟨hi, hsched⟩
  by_cases hkind : k = if mode = true then .rq else .wq
  · exact hnone i e (hkind ▸ ha)
  · have hold := h.moded _ _ _ _ (hquiet.active.1 ((hother k ch i e fun h => hkind h.1).1 ha))
    cases mode <;> cases k <;> simp_all

theorem switchMode_works (h : Sound cfg s) (hcached : Cached s) (hnoted : Noted ch t s)
    (hnow : ∀ cpu, (env.cycle cpu).toNat ≤ c) (hx : s.switchMode cfg env ch = some s') :
    (s.nextWriteMode cfg ch = s.writeMode ch ∧ s' = s) ∨
      (s.nextWriteMode cfg ch ≠ s.writeMode ch ∧ Switched cfg c t s s' ch) := by
  rw [switchMode] at hx
  split at hx
  · rename_i hsame
    exact .inl ⟨hsame, (Option.some.inj hx).symm⟩
  · rename_i hswitch
    refine .inr ⟨hswitch, ?_⟩
    generalize s.nextWriteMode cfg ch = mode at hx hswitch
    have hquiet : Quiet s (s.setWriteMode ch mode) :=
      ⟨fun _ _ => rfl, fun _ _ => rfl, rfl, fun _ => rfl, fun _ _ _ hs => hs⟩
    have hagree := h.agree.quiet hquiet
    obtain ⟨s₁, hs₁, hparts, hwrite, hnone, hother, -⟩ :=
      resetRemainRequests_spec hagree env (if mode = true then .rq else .wq) ch
    have hlate := hnoted.mono (le_max_left t c)
    have hnoted₀ : Noted ch (max t c) (s.setWriteMode ch mode) :=
      ⟨hlate.entry, hlate.bank, hlate.dbus⟩
    obtain ⟨hnoted₁, hcached₁, hlocal₁⟩ := resetRemainRequests_works hagree hcached hnoted₀
      (fun cpu => (hnow cpu).trans (le_max_right ..)) hs₁
    have hzero := scheduled_setWriteMode h hswitch hparts hnone hother
    simp only [hs₁] at hx
    obtain rfl := Option.some.inj hx
    refine ⟨?_, fun k' => ?_, hzero, ⟨fun k' e he hne => ?_, fun b hb => ?_, ?_⟩, hcached₁,
      fun ch' hne => ⟨fun k' => (hlocal₁ ch' hne).queue k', (hlocal₁ ch' hne).bank, ?_,
        (hlocal₁ ch' hne).scheduled, ?_⟩⟩
    · rw [setDbus_writeMode, hwrite, setWriteMode_writeMode, Function.update_self]
      cases mode <;> cases hmode : s.writeMode ch <;>
        first | rfl | exact absurd hmode.symm hswitch
    · rw [setDbus_queue, occupancy_parts hparts rfl]
      rfl
    · exact (hnoted₁.entry k' e he hne).trans (by omega)
    · exact (hnoted₁.bank b hb).trans (by omega)
    · have hdbus := hnoted₁.dbus
      have hsum := toNat_add_le (s₁.dbusCycleAvailable ch) cfg.dbusTurnAroundTime
      show (Function.update s₁.dbusCycleAvailable ch _ ch).toNat ≤ _
      rw [Function.update_self]
      omega
    · rw [setDbus_writeMode, hwrite, setWriteMode_writeMode, Function.update_of_ne hne]
    · show Function.update s₁.dbusCycleAvailable ch _ ch' = _
      rw [Function.update_of_ne hne]
      exact (hlocal₁ ch' hne).dbus

/-! ## The work of a channel -/

/-- The requests in the queues of a channel. -/
def backlog (ch : ℕ) (s : MemoryController) : ℕ :=
  (s.queue .rq ch).occupancy + (s.queue .wq ch).occupancy

/-- How many changes of the mode a channel without arrivals still makes, at most. -/
def phase (cfg : DramConfig) (ch : ℕ) (s : MemoryController) : ℕ :=
  if s.writeMode ch then if (s.queue .rq ch).occupancy = 0 then 1 else 3
  else if (s.queue .wq ch).occupancy = 0 then 0
  else if (s.queue .rq ch).occupancy = 0 ∨ (s.queue .wq ch).occupancy < cfg.writeHighWm then 2
  else 4

/-- The work that is left: the changes of the mode, each of which may unschedule all requests, and
the requests that are to be started and finished. -/
def work (cfg : DramConfig) (most ch : ℕ) (s : MemoryController) : ℕ :=
  s.phase cfg ch * (most + 1) + (2 * s.backlog ch - (s.scheduled .rq ch + s.scheduled .wq ch))

/-- A channel with some work, and the cycle by which the next part of it is due. -/
structure Due (cfg : DramConfig) (most ch t : ℕ) (s : MemoryController) : Prop where
  sound : Sound cfg s
  cached : Cached s
  noted : Noted ch t s
  backlog_le : s.backlog ch ≤ most

theorem scheduled_le (h : Agree cfg s) (k : QueueKind) (ch : ℕ) :
    s.scheduled k ch ≤ (s.queue k ch).occupancy := by
  rw [h.count, h.occupancy]
  refine List.countP_mono_left fun e he hsched => ?_
  obtain ⟨i, hi⟩ := List.getElem?_of_mem he
  simpa using h.occupied k ch i e ⟨hi, hsched⟩

/-- A change of the mode is one of those that were left. -/
theorem Switched.phase_lt (hcfg : cfg.Drains) (h : Switched cfg c t s s' ch)
    (hswitch : s.nextWriteMode cfg ch ≠ s.writeMode ch) : s'.phase cfg ch < s.phase cfg ch := by
  have hhigh := hcfg.high_pos
  have hlow := hcfg.low_le
  rw [phase, phase, h.writeMode, h.occupancy, h.occupancy]
  rw [nextWriteMode] at hswitch
  cases hmode : s.writeMode ch
  · simp only [hmode, Bool.false_eq_true, if_false, ne_eq, Bool.not_eq_false, Bool.or_eq_true,
      decide_eq_true_eq, Bool.and_eq_true] at hswitch
    simp only [Bool.not_false, if_true, Bool.false_eq_true, if_false]
    split_ifs <;> omega
  · simp only [hmode, if_true, ne_eq, Bool.not_eq_true, Bool.not_eq_false', Bool.or_eq_true,
      decide_eq_true_eq, Bool.and_eq_true] at hswitch
    simp only [Bool.not_true, Bool.false_eq_true, if_false, if_true]
    split_ifs <;> omega

/-- Serving a queue makes no change of the mode necessary. -/
theorem Worked.phase_le (h : Worked s s' k ch n m) (hmode : s.writeMode ch = decide (k = .wq)) :
    s'.phase cfg ch ≤ s.phase cfg ch := by
  have hserved := h.occupancy
  rw [phase, phase, h.writeMode, hmode]
  cases k with
  | rq =>
    have hother := (h.other .wq (by decide)).1
    simp only [reduceCtorEq, decide_false, Bool.false_eq_true, if_false]
    split_ifs <;> omega
  | wq =>
    have hother := (h.other .rq (by decide)).1
    simp only [decide_true, if_true]
    split_ifs <;> omega

/-- The counts after serving a queue. -/
theorem Worked.counts (h : Worked s s' k ch n m) :
    s'.backlog ch + m = s.backlog ch ∧
      s'.scheduled .rq ch + s'.scheduled .wq ch + m =
        s.scheduled .rq ch + s.scheduled .wq ch + n := by
  have hserved := h.occupancy
  have hscheduled := h.scheduled
  rw [backlog, backlog]
  cases k with
  | rq =>
    obtain ⟨hother, hother'⟩ := h.other .wq (by decide)
    omega
  | wq =>
    obtain ⟨hother, hother'⟩ := h.other .rq (by decide)
    omega

/-- The mode stays although the served queue is empty: there is nothing left. -/
theorem work_eq_zero (hsame : s.nextWriteMode cfg ch = s.writeMode ch)
    (hmode : s.writeMode ch = decide (k = .wq)) (hempty : (s.queue k ch).occupancy = 0) (most : ℕ) :
    s.work cfg most ch = 0 := by
  rw [nextWriteMode] at hsame
  cases k with
  | wq =>
    have hmode : s.writeMode ch = true := hmode
    simp [hmode, hempty] at hsame
  | rq =>
    have hmode : s.writeMode ch = false := hmode
    simp only [hmode, Bool.false_eq_true, if_false, hempty, decide_true, Bool.true_and,
      Bool.or_eq_false_iff, decide_eq_false_iff_not, Nat.not_lt, Nat.le_zero] at hsame
    have hphase : s.phase cfg ch = 0 := by
      rw [phase, hmode, hsame.2]
      rfl
    rw [work, hphase, backlog, hempty, hsame.2]
    omega

/-- Serving the queue of the mode does a part of the work, or the work is not yet due or all done. -/
theorem serve_advances {most : ℕ} (h : Due cfg most ch t s)
    (hsame : s.nextWriteMode cfg ch = s.writeMode ch) (hmode : s.writeMode ch = decide (k = .wq))
    (hnow : ∀ cpu, (env.cycle cpu).toNat = c) (ht : t ≤ c → c < uint64Max.toNat)
    (hsound : Sound cfg s') (hx : s.serve cfg env k ch = some (s', evs)) :
    (s'.work cfg most ch < s.work cfg most ch ∧ Due cfg most ch (max t c + cfg.wait) s') ∨
      (s'.work cfg most ch = s.work cfg most ch ∧ Due cfg most ch t s' ∧
        (c < t ∨ s.work cfg most ch = 0)) := by
  have hread := scheduled_le hsound.agree .rq ch
  have hwrite := scheduled_le hsound.agree .wq ch
  have hread₀ := scheduled_le h.sound.agree .rq ch
  have hwrite₀ := scheduled_le h.sound.agree .wq ch
  have hmost := h.backlog_le
  have hwait : cfg.wait = cfg.tRP.toNat + cfg.tRCD.toNat + cfg.tCAS.toNat +
    cfg.dbusReturnTime.toNat + cfg.dbusTurnAroundTime.toNat := rfl
  have hsum : s'.backlog ch = (s'.queue .rq ch).occupancy + (s'.queue .wq ch).occupancy := rfl
  have hsum₀ : s.backlog ch = (s.queue .rq ch).occupancy + (s.queue .wq ch).occupancy := rfl
  obtain ⟨n, m, hworks, hprogress⟩ :=
    serve_works h.sound h.cached h.noted (fun cpu => (hnow cpu).le) hmode hx
  have hphase : s'.phase cfg ch ≤ s.phase cfg ch := hworks.worked.phase_le hmode
  have hpart := Nat.mul_le_mul_right (most + 1) hphase
  obtain ⟨hbacklog, hscheduled⟩ := hworks.worked.counts
  rcases Nat.eq_zero_or_pos (n + m) with hzero | hpos
  · obtain ⟨rfl, rfl⟩ := Nat.add_eq_zero_iff.1 hzero
    have hnoted := hworks.quiet rfl rfl
    have hle : s'.work cfg most ch ≤ s.work cfg most ch := by
      rw [work, work]
      omega
    rcases Nat.lt_or_ge c t with hearly | hdue
    · rcases Nat.lt_or_eq_of_le hle with hlt | heq
      · exact .inl ⟨hlt, hsound, hworks.cached, hnoted.mono (by omega), by omega⟩
      · exact .inr ⟨heq, ⟨hsound, hworks.cached, hnoted, by omega⟩, .inl hearly⟩
    · have hempty : (s.queue k ch).occupancy = 0 := by
        by_contra hne
        exact Nat.lt_irrefl 0
          (hprogress (fun cpu => (hnow cpu).symm ▸ hdue) (hdue.trans_lt (ht hdue)) hne)
      have hdone := work_eq_zero hsame hmode hempty most
      rw [hdone] at hle ⊢
      exact .inr ⟨Nat.le_zero.1 hle, ⟨hsound, hworks.cached, hnoted, by omega⟩, .inr rfl⟩
  · refine .inl ⟨?_, hsound, hworks.cached, hworks.noted.mono (by omega), by omega⟩
    rw [work, work]
    omega

/-- A change of the mode is a part of the work, whatever is served behind it. -/
theorem Switched.work_lt {most : ℕ} (hcfg : cfg.Drains) (h : Switched cfg c t s s' ch)
    (hswitch : s.nextWriteMode cfg ch ≠ s.writeMode ch) (hworked : Worked s' s'' k ch n m)
    (hmode : s'.writeMode ch = decide (k = .wq)) (hsound₀ : Sound cfg s) (hsound : Sound cfg s'')
    (hmost : s.backlog ch ≤ most) :
    s''.work cfg most ch < s.work cfg most ch ∧ s''.backlog ch ≤ most := by
  have hread := scheduled_le hsound.agree .rq ch
  have hwrite := scheduled_le hsound.agree .wq ch
  have hread₀ := scheduled_le hsound₀.agree .rq ch
  have hwrite₀ := scheduled_le hsound₀.agree .wq ch
  have hphase : s''.phase cfg ch < s.phase cfg ch :=
    (hworked.phase_le hmode).trans_lt (h.phase_lt hcfg hswitch)
  have hpart : s''.phase cfg ch * (most + 1) + (most + 1) ≤ s.phase cfg ch * (most + 1) := by
    rw [← Nat.succ_mul]
    exact Nat.mul_le_mul_right _ hphase
  obtain ⟨hbacklog, -⟩ := hworked.counts
  have hsame : s'.backlog ch = s.backlog ch := by
    rw [backlog, backlog, h.occupancy, h.occupancy]
  have hsum : s''.backlog ch = (s''.queue .rq ch).occupancy + (s''.queue .wq ch).occupancy := rfl
  have hsum₀ : s.backlog ch = (s.queue .rq ch).occupancy + (s.queue .wq ch).occupancy := rfl
  refine ⟨?_, by omega⟩
  rw [work, work]
  omega

/-- A call for a channel does a part of its work, or the work is not yet due or all done. -/
theorem operateChannel_works (hcfg : cfg.Drains) {most : ℕ} (h : Due cfg most ch t s)
    (hnow : ∀ cpu, (env.cycle cpu).toNat = c) (ht : max t c + cfg.wait < uint64Max.toNat)
    (hx : s.operateChannel cfg env ch = some (s', evs)) :
    (s'.work cfg most ch < s.work cfg most ch ∧ Due cfg most ch (max t c + cfg.wait) s') ∨
      (s'.work cfg most ch = s.work cfg most ch ∧ Due cfg most ch t s' ∧
        (c < t ∨ s.work cfg most ch = 0)) := by
  obtain ⟨s₁, hs₁, hsound₁, -⟩ := switchMode_spec h.sound env ch
  obtain ⟨s₂, evs₂, hs₂, hsound₂, -⟩ := operateChannel_spec h.sound env ch
  obtain ⟨rfl, -⟩ := Prod.mk.inj (Option.some.inj (hs₂.symm.trans hx))
  rw [operateChannel, hs₁] at hx
  have hx : s₁.serve cfg env (s₁.servedKind ch) ch = some (s₂, evs) := hx
  have hmode : s₁.writeMode ch = decide (s₁.servedKind ch = .wq) := writeMode_servedKind
  have hupto : ∀ cpu, (env.cycle cpu).toNat ≤ c := fun cpu => (hnow cpu).le
  rcases switchMode_works h.sound h.cached h.noted hupto hs₁ with ⟨hsame, rfl⟩ | ⟨hswitch, hswitched⟩
  · exact serve_advances h hsame hmode hnow (fun _ => by omega) hsound₂ hx
  · obtain ⟨n, m, hworks, -⟩ :=
      serve_works hsound₁ hswitched.cached hswitched.noted hupto hmode hx
    have hwait : cfg.wait = cfg.tRP.toNat + cfg.tRCD.toNat + cfg.tCAS.toNat +
      cfg.dbusReturnTime.toNat + cfg.dbusTurnAroundTime.toNat := rfl
    obtain ⟨hless, hmost⟩ :=
      hswitched.work_lt hcfg hswitch hworks.worked hmode h.sound hsound₂ h.backlog_le
    exact .inl ⟨hless, hsound₂, hworks.cached, hworks.noted.mono (by omega), hmost⟩

/-! ## All channels -/

theorem Noted.top (ch : ℕ) (s : MemoryController) : Noted ch (2 ^ 64) s :=
  ⟨fun _ e _ _ => (UInt64.toNat_lt e.packet.eventCycle).le, fun _ _ => (UInt64.toNat_lt _).le,
    (UInt64.toNat_lt _).le⟩

/-- The call for a channel leaves the other channels alone. -/
theorem operateChannel_others (h : Sound cfg s) (hcached : Cached s)
    (hx : s.operateChannel cfg env ch = some (s', evs)) :
    Sound cfg s' ∧ Cached s' ∧ Local ch s s' := by
  obtain ⟨s₁, hs₁, hsound₁, -⟩ := switchMode_spec h env ch
  obtain ⟨s₂, evs₂, hs₂, hsound₂, -⟩ := operateChannel_spec h env ch
  obtain ⟨rfl, -⟩ := Prod.mk.inj (Option.some.inj (hs₂.symm.trans hx))
  rw [operateChannel, hs₁] at hx
  have hx : s₁.serve cfg env (s₁.servedKind ch) ch = some (s₂, evs) := hx
  have hnow : ∀ cpu, (env.cycle cpu).toNat ≤ 2 ^ 64 := fun cpu => (UInt64.toNat_lt _).le
  have hswitch : Cached s₁ ∧ Local ch s s₁ := by
    rcases switchMode_works h hcached (Noted.top ch s) hnow hs₁ with ⟨-, rfl⟩ | ⟨-, hswitched⟩
    · exact ⟨hcached, .refl ch s₁⟩
    · exact ⟨hswitched.cached, hswitched.others⟩
  obtain ⟨n, m, hworks, -⟩ :=
    serve_works hsound₁ hswitch.1 (Noted.top ch s₁) hnow writeMode_servedKind hx
  exact ⟨hsound₂, hworks.cached, hswitch.2.trans hworks.others⟩

/-- The calls for several channels, seen from a channel that is not among them. -/
theorem operateChannels_same {chs : List ℕ} (h : Sound cfg s) (hcached : Cached s) (hmem : ch ∉ chs)
    (hx : s.operateChannels cfg env chs = some (s', evs)) :
    Sound cfg s' ∧ Cached s' ∧ SameChannel ch s s' := by
  induction chs generalizing s evs with
  | nil =>
    obtain ⟨rfl, -⟩ := Prod.mk.inj (Option.some.inj hx)
    exact ⟨h, hcached, .refl ch s⟩
  | cons ch' chs ih =>
    obtain ⟨hne, hmem⟩ := not_or.1 fun h => hmem (List.mem_cons.2 h)
    obtain ⟨s₁, evs₁, hs₁, -⟩ := operateChannel_spec h env ch'
    obtain ⟨hsound₁, hcached₁, hlocal⟩ := operateChannel_others h hcached hs₁
    rw [operateChannels, hs₁] at hx
    dsimp only at hx
    split at hx
    · cases hx
    · rename_i s₂ evs₂ hs₂
      obtain ⟨rfl, -⟩ := Prod.mk.inj (Option.some.inj hx)
      obtain ⟨hsound₂, hcached₂, hsame⟩ := ih hsound₁ hcached₁ hmem hs₂
      exact ⟨hsound₂, hcached₂, (hlocal ch hne).trans hsame⟩

/-- The calls for several channels, seen from one of them. -/
theorem operateChannels_at {chs : List ℕ} (h : Sound cfg s) (hcached : Cached s)
    (hnodup : chs.Nodup) (hmem : ch ∈ chs)
    (hx : s.operateChannels cfg env chs = some (s', evs)) :
    ∃ s₁ s₂ evs₁, Sound cfg s₁ ∧ Cached s₁ ∧ SameChannel ch s s₁ ∧
      s₁.operateChannel cfg env ch = some (s₂, evs₁) ∧ SameChannel ch s₂ s' ∧ Sound cfg s' ∧
        Cached s' := by
  induction chs generalizing s evs with
  | nil => exact absurd hmem List.not_mem_nil
  | cons ch' chs ih =>
    obtain ⟨hnot, hnodup⟩ := List.nodup_cons.1 hnodup
    obtain ⟨s₁, evs₁, hs₁, -⟩ := operateChannel_spec h env ch'
    obtain ⟨hsound₁, hcached₁, hlocal⟩ := operateChannel_others h hcached hs₁
    rw [operateChannels, hs₁] at hx
    dsimp only at hx
    split at hx
    · cases hx
    · rename_i s₂ evs₂ hs₂
      obtain ⟨rfl, -⟩ := Prod.mk.inj (Option.some.inj hx)
      rcases List.mem_cons.1 hmem with rfl | hmem
      · obtain ⟨hsound₂, hcached₂, hsame⟩ :=
          operateChannels_same hsound₁ hcached₁ hnot hs₂
        exact ⟨s, s₁, evs₁, h, hcached, .refl ch s, hs₁, hsame, hsound₂, hcached₂⟩
      · have hne : ch ≠ ch' := fun heq => hnot (heq ▸ hmem)
        obtain ⟨t₁, t₂, evs', hsound', hcached', hsame, hcall, hsame', hlast⟩ :=
          ih hsound₁ hcached₁ hnodup hmem hs₂
        exact ⟨t₁, t₂, evs', hsound', hcached', (hlocal ch hne).trans hsame, hcall, hsame', hlast⟩

theorem SameChannel.backlog (h : SameChannel ch s s') : s'.backlog ch = s.backlog ch := by
  rw [MemoryController.backlog, MemoryController.backlog, h.queue, h.queue]

theorem SameChannel.work (h : SameChannel ch s s') (most : ℕ) :
    s'.work cfg most ch = s.work cfg most ch := by
  rw [MemoryController.work, MemoryController.work, phase, phase, h.backlog, h.writeMode, h.queue,
    h.queue, h.scheduled, h.scheduled]

theorem Due.same {most : ℕ} (h : Due cfg most ch t s) (hs : SameChannel ch s s')
    (hsound : Sound cfg s') (hcached : Cached s') : Due cfg most ch t s' :=
  ⟨hsound, hcached, h.noted.same hs, hs.backlog.trans_le h.backlog_le⟩

/-- A call of `operate` at a time that all cores show. -/
def Operates (cfg : DramConfig) (now : ℕ) (s s' : MemoryController) : Prop :=
  ∃ env evs, (∀ cpu, (env.cycle cpu).toNat = now) ∧ s.operate cfg env = some (s', evs)

/-- `operate` advances each channel. -/
theorem operate_advances (hcfg : cfg.Drains) (most : ℕ) (hch : ch < cfg.channels) :
    Deadlines.Advances (Operates cfg) (work cfg most ch) (Due cfg most ch) cfg.wait
      uint64Max.toNat where
  call := by
    rintro now t s s' hdue hlimit ⟨env, evs, hnow, hx⟩
    obtain ⟨s₁, s₂, evs₁, hsound₁, hcached₁, hbefore, hcall, hafter, hsound, hcached⟩ :=
      operateChannels_at hdue.sound hdue.cached List.nodup_range (List.mem_range.2 hch) hx
    have hdue₁ := hdue.same hbefore hsound₁ hcached₁
    rw [hafter.work, ← hbefore.work most]
    rcases operateChannel_works hcfg hdue₁ hnow hlimit hcall with
      ⟨hless, hdue₂⟩ | ⟨heq, hdue₂, hwait⟩
    · exact .inl ⟨hless, hdue₂.same hafter hsound hcached⟩
    · exact .inr ⟨heq, hdue₂.same hafter hsound hcached, hwait⟩

/-- A bound of the work of all channels. -/
def toServe (cfg : DramConfig) (s : MemoryController) : ℕ :=
  ((List.range cfg.channels).map fun ch => 6 * s.backlog ch + 4).sum

theorem work_le_toServe (cfg : DramConfig) (s : MemoryController) (hch : ch < cfg.channels) :
    s.work cfg (s.backlog ch) ch ≤ s.toServe cfg := by
  have hphase : s.phase cfg ch ≤ 4 := by
    rw [phase]
    split_ifs <;> decide
  have hpart := Nat.mul_le_mul_right (s.backlog ch + 1) hphase
  have hmem : 6 * s.backlog ch + 4 ∈ (List.range cfg.channels).map fun ch => 6 * s.backlog ch + 4 :=
    List.mem_map.2 ⟨ch, List.mem_range.2 hch, rfl⟩
  have hsum : 6 * s.backlog ch + 4 ≤ s.toServe cfg :=
    List.single_le_sum (fun _ _ => Nat.zero_le _) _ hmem
  rw [work]
  omega

theorem Sound.follows {cs : List ℕ} (h : Sound cfg s)
    (hcalls : Deadlines.Follows (Operates cfg) cs s s') : Sound cfg s' := by
  induction cs generalizing s with
  | nil =>
    obtain rfl : s = s' := hcalls
    exact h
  | cons c cs ih =>
    obtain ⟨s₁, ⟨env, evs, -, hx⟩, hcalls⟩ := hcalls
    obtain ⟨s₂, evs₂, hs₂, hsound₂, -⟩ := operateChannels_spec env (List.range cfg.channels) h
    obtain ⟨rfl, -⟩ := Prod.mk.inj (Option.some.inj (hs₂.symm.trans hx))
    exact ih hsound₂ hcalls

/-- Enough calls of `operate` at growing times empty the queues of all channels. -/
theorem drains (hcfg : cfg.Drains) (h : Sound cfg s) (hcached : Cached s)
    (hnoted : ∀ ch < cfg.channels, Noted ch t s) {now : ℕ} {cs : List ℕ}
    (hgrowing : Deadlines.Growing now cs)
    (henough : s.toServe cfg * (cfg.wait + 1) + (t - now) ≤ cs.length)
    (hlimit : ∀ c ∈ cs, max t c + cfg.wait * s.toServe cfg + cfg.wait < uint64Max.toNat)
    (hcalls : Deadlines.Follows (Operates cfg) cs s s') (hch : ch < cfg.channels) :
    s'.backlog ch = 0 := by
  have hle := work_le_toServe cfg s hch
  have hlength := Nat.mul_le_mul_right (cfg.wait + 1) hle
  have hlate := Nat.mul_le_mul_left cfg.wait hle
  have hdone := (operate_advances hcfg (s.backlog ch) hch).done hgrowing
    ⟨h, hcached, hnoted ch hch, le_rfl⟩ (by omega) (fun c hc => by have hc := hlimit c hc; omega)
    hcalls
  have hsound := h.follows hcalls
  have hread := scheduled_le hsound.agree .rq ch
  have hwrite := scheduled_le hsound.agree .wq ch
  have hsum : s'.backlog ch = (s'.queue .rq ch).occupancy + (s'.queue .wq ch).occupancy := rfl
  rw [work] at hdone
  omega

/-! ## Runs -/

theorem init_cached (cfg : DramConfig) : Cached (init cfg) := by
  intro k ch
  have hfree : ∀ e ∈ ((init cfg).queue k ch).entry, e = .empty cfg.numCpus := fun e he =>
    (List.mem_replicate.1 he).2
  refine ⟨fun e he hne => ?_, fun e he hsched => ?_⟩
  · rw [hfree e he] at hne
    exact absurd rfl hne
  · rw [hfree e he] at hsched
    cases hsched

/-- The calls for all channels keep the cached indices up to date. -/
theorem operateChannels_cached {chs : List ℕ} (h : Sound cfg s) (hcached : Cached s)
    (hx : s.operateChannels cfg env chs = some (s', evs)) : Cached s' := by
  induction chs generalizing s evs with
  | nil =>
    obtain ⟨rfl, -⟩ := Prod.mk.inj (Option.some.inj hx)
    exact hcached
  | cons ch chs ih =>
    obtain ⟨s₁, evs₁, hs₁, -⟩ := operateChannel_spec h env ch
    obtain ⟨hsound₁, hcached₁, -⟩ := operateChannel_others h hcached hs₁
    rw [operateChannels, hs₁] at hx
    dsimp only at hx
    split at hx
    · cases hx
    · rename_i s₂ evs₂ hs₂
      obtain ⟨rfl, -⟩ := Prod.mk.inj (Option.some.inj hx)
      exact ih hsound₁ hcached₁ hs₂

/-- The cached indices are up to date in every state of a run. -/
theorem cached_run {ok : MemoryController → DramEnv × Call → Prop}
    {tr : Lts.Trace (DramEnv × Call) DramEvent} (h : (lts cfg).Run ok s tr) : Cached s := by
  refine h.induct (P := fun s _ => Cached s) (fun s hs => ?_) fun s tr l s' evs hrun hI hl hs => ?_
  · obtain rfl : s = init cfg := hs
    exact init_cached cfg
  · have hsound := sound_reachable ⟨tr, hrun⟩
    obtain ⟨env, call⟩ := l
    cases call with
    | addRq p =>
      cases addRq_cases (Option.some.inj hs) with
      | cold _ => exact hI
      | merged _ _ => exact hI
      | forwarded _ _ => exact hI
      | arrived _ _ => exact hI.arrive hsound.agree p
    | addWq p =>
      cases addWq_cases (Option.some.inj hs) with
      | cold _ => exact hI
      | merged _ _ => exact hI
      | arrived _ => exact hI.arrive hsound.agree p
    | operate => exact operateChannels_cached hsound hI hs

/-! ## The noted cycles of a run -/

/-- The call shows no later cycle than `c`, neither in a counter nor in the packet that arrives. -/
def Shows (c : ℕ) (l : DramEnv × Call) : Prop :=
  (∀ cpu, (l.1.cycle cpu).toNat ≤ c) ∧
    match l.2 with
    | .addRq p => p.eventCycle.toNat ≤ c
    | .addWq p => p.eventCycle.toNat ≤ c
    | .operate => True

theorem Noted.arrive (h : Noted ch t s) {p : Packet} (hp : p.eventCycle.toNat ≤ t) :
    Noted ch t (s.arrive cfg k p) := by
  refine ⟨fun k' e he hne => ?_, h.bank, h.dbus⟩
  rw [MemoryController.arrive, modifyQueue_queue] at he
  split at he
  · rename_i hk
    obtain ⟨rfl, rfl⟩ := hk
    have he : e ∈ ((s.queue k' (cfg.getChannel p.address)).insert p).entry := he
    rw [DramQueue.insert] at he
    split at he
    · rcases List.mem_or_eq_of_mem_set he with hmem | rfl
      · exact h.entry k' e hmem hne
      · exact hp
    · exact h.entry k' e he hne
  · exact h.entry k' e he hne

/-- A call for a channel notes cycles that lie ahead by the waiting time at most. -/
theorem operateChannel_noted (h : Sound cfg s) (hcached : Cached s) (hnoted : Noted ch t s)
    (hnow : ∀ cpu, (env.cycle cpu).toNat ≤ c) (hx : s.operateChannel cfg env ch = some (s', evs)) :
    Noted ch (max t c + cfg.wait) s' := by
  obtain ⟨s₁, hs₁, hsound₁, -⟩ := switchMode_spec h env ch
  rw [operateChannel, hs₁] at hx
  have hx : s₁.serve cfg env (s₁.servedKind ch) ch = some (s', evs) := hx
  have hwait : cfg.wait = cfg.tRP.toNat + cfg.tRCD.toNat + cfg.tCAS.toNat +
    cfg.dbusReturnTime.toNat + cfg.dbusTurnAroundTime.toNat := rfl
  have hswitch : Cached s₁ ∧ Noted ch (max t c + cfg.dbusTurnAroundTime.toNat) s₁ := by
    rcases switchMode_works h hcached hnoted hnow hs₁ with ⟨-, rfl⟩ | ⟨-, hswitched⟩
    · exact ⟨hcached, hnoted.mono (by omega)⟩
    · exact ⟨hswitched.cached, hswitched.noted⟩
  obtain ⟨n, m, hworks, -⟩ :=
    serve_works hsound₁ hswitch.1 hswitch.2 hnow writeMode_servedKind hx
  exact hworks.noted.mono (by omega)

theorem operateChannels_noted {chs : List ℕ} (h : Sound cfg s) (hcached : Cached s)
    (hnoted : Noted ch t s) (hnow : ∀ cpu, (env.cycle cpu).toNat ≤ c) (hnodup : chs.Nodup)
    (hx : s.operateChannels cfg env chs = some (s', evs)) : Noted ch (max t c + cfg.wait) s' := by
  by_cases hmem : ch ∈ chs
  · obtain ⟨s₁, s₂, evs₁, hsound₁, hcached₁, hbefore, hcall, hafter, -, -⟩ :=
      operateChannels_at h hcached hnodup hmem hx
    exact (operateChannel_noted hsound₁ hcached₁ (hnoted.same hbefore) hnow hcall).same hafter
  · obtain ⟨-, -, hsame⟩ := operateChannels_same h hcached hmem hx
    exact (hnoted.same hsame).mono (by omega)

theorem init_noted (cfg : DramConfig) (ch t : ℕ) : Noted ch t (init cfg) := by
  refine ⟨fun k e he hne => ?_, fun b hb => Nat.zero_le t, Nat.zero_le t⟩
  obtain ⟨-, rfl⟩ := List.mem_replicate.1 he
  exact absurd rfl hne

/-- A run notes no cycle further ahead of those it was shown than the waiting time for each call. -/
theorem noted_run {ok : MemoryController → DramEnv × Call → Prop}
    {tr : Lts.Trace (DramEnv × Call) DramEvent} (h : (lts cfg).Run ok s tr)
    (hshows : ∀ x ∈ tr, Shows c x.1) (ch : ℕ) : Noted ch (c + cfg.wait * tr.length) s := by
  refine h.induct (P := fun s tr => (∀ x ∈ tr, Shows c x.1) →
    Noted ch (c + cfg.wait * tr.length) s) (fun s hs _ => ?_)
      (fun s tr l s' evs hrun hI hl hs hshows => ?_) hshows
  · obtain rfl : s = init cfg := hs
    exact init_noted cfg ch _
  · have hnoted := hI fun x hx => hshows x (List.mem_append_left _ hx)
    have hlast := hshows (l, evs) (by simp)
    have hsound := sound_reachable ⟨tr, hrun⟩
    have hlonger : c + cfg.wait * tr.length + cfg.wait = c + cfg.wait * (tr ++ [(l, evs)]).length := by
      rw [List.length_append, List.length_singleton, Nat.mul_succ, Nat.add_assoc]
    have hmono : ∀ {s}, Noted ch (c + cfg.wait * tr.length) s →
        Noted ch (c + cfg.wait * (tr ++ [(l, evs)]).length) s := fun h => h.mono (by omega)
    obtain ⟨env, call⟩ := l
    obtain ⟨hnow, hcall⟩ := hlast
    cases call with
    | addRq p =>
      cases addRq_cases (Option.some.inj hs) with
      | cold _ => exact hmono hnoted
      | merged _ _ => exact hmono hnoted
      | forwarded _ _ => exact hmono hnoted
      | arrived _ _ => exact hmono (hnoted.arrive (hcall.trans (Nat.le_add_right ..)))
    | addWq p =>
      cases addWq_cases (Option.some.inj hs) with
      | cold _ => exact hmono hnoted
      | merged _ _ => exact hmono hnoted
      | arrived _ => exact hmono (hnoted.arrive (hcall.trans (Nat.le_add_right ..)))
    | operate =>
      refine (operateChannels_noted hsound (cached_run hrun) hnoted
        (fun cpu => (hnow cpu).trans (Nat.le_add_right c (cfg.wait * tr.length)))
          List.nodup_range hs).mono ?_
      omega

end

end MemoryController

end Arishem
