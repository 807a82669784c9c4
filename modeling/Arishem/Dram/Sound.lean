import Arishem.Dram.Agree

/-!
# The calls of the memory controller

Each call is a sequence of parts and keeps the views in agreement, the scheduled requests of the
right kind, and the index of the next request to be processed valid. So no check of the source
fails.
-/

namespace Arishem

namespace MemoryController

/-- What holds between the calls. -/
structure Sound (cfg : DramConfig) (s : MemoryController) : Prop where
  agree : Agree cfg s
  moded : s.Moded
  next : ∀ k ch, (s.queue k ch).NextOk

section
variable {cfg : DramConfig} {env : DramEnv} {s s' s'' : MemoryController} {k k' : QueueKind}
variable {ch ch' i j : ℕ} {e e' : DramEntry} {hit : Bool} {evs evs' : List DramEvent}

/-! ## The cached indices -/

theorem nextOk_updateProcessCycle (q : DramQueue) : q.updateProcessCycle.NextOk := by
  intro hlt
  rcases Slots.firstMin_attained (·.scheduled) (·.packet.eventCycle) q.entry 0 (uint64Max, q.size)
    with h | ⟨j, hj, hindex, hsel, -, -⟩
  · have hcycle : q.updateProcessCycle.nextProcessCycle = uint64Max := congrArg Prod.fst h
    exact absurd hlt (hcycle ▸ lt_irrefl _)
  · rw [Nat.zero_add] at hindex
    have hnext : q.updateProcessCycle.nextProcessIndex = j := hindex
    refine ⟨q.entry[j], ?_, hsel⟩
    rw [hnext]
    exact List.getElem?_eq_getElem hj

/-- The slot that `schedule` picks holds a request to an idle bank. -/
theorem oldest_some (h : s.oldest cfg k ch = some (i, hit)) :
    ∃ e, s.slot k ch i = some e ∧ s.schedulable cfg e = true := by
  have hfound : ∀ sel : DramEntry → Bool, (∀ e, sel e = true → s.schedulable cfg e = true) →
      (Slots.firstMin sel (·.packet.eventCycle) (s.queue k ch).entry 0
        (uint64Max, (s.queue k ch).size)).2 < (s.queue k ch).size →
      ∃ e, s.slot k ch (Slots.firstMin sel (·.packet.eventCycle) (s.queue k ch).entry 0
        (uint64Max, (s.queue k ch).size)).2 = some e ∧ s.schedulable cfg e = true := by
    intro sel hsel hlt
    rcases Slots.firstMin_attained sel (·.packet.eventCycle) (s.queue k ch).entry 0
      (uint64Max, (s.queue k ch).size) with heq | ⟨j, hj, hindex, hs, -, -⟩
    · rw [heq] at hlt
      exact absurd hlt (lt_irrefl _)
    · rw [Nat.zero_add] at hindex
      rw [hindex]
      exact ⟨_, List.getElem?_eq_getElem hj, hsel _ hs⟩
  rw [oldest] at h
  simp only [] at h
  split at h
  · rename_i hlt
    cases h
    exact hfound _ (fun e he => (Bool.and_eq_true_iff.1 he).1) hlt
  · split at h
    · rename_i hlt
      cases h
      exact hfound _ (fun e he => he) hlt
    · cases h

/-! ## Scheduling -/

theorem start_part (h : Agree cfg s) (he : s.slot k ch i = some e)
    (hs : s.schedulable cfg e = true) : Part cfg s (s.start cfg env k ch i hit e) [] := by
  simp only [schedulable, Bool.and_eq_true, Bool.not_eq_true', bne_iff_ne] at hs
  obtain ⟨⟨hsched, hne⟩, hidle⟩ := hs
  have hch : (cfg.bankOf e.address).channel = ch := h.home _ _ _ _ he hne
  refine Part.start (k := k) (i := i) (e := e)
    (c := env.cycle e.packet.cpu + if hit then cfg.tCAS else cfg.tRP + cfg.tRCD + cfg.tCAS)
    ⟨he, fun k' ch' => ?_, fun b hb => ?_⟩ hsched hne hidle ?_ (fun k' ch' => ?_) fun k' ch' => ?_
  · simp only [start, modifyQueue_queue, setEntry_queue, setScheduled_queue, setBank_queue,
      and_self, if_true]
    split <;> rfl
  · simp only [start, modifyQueue_bankRequest, setEntry_bankRequest, setScheduled_bankRequest,
      setBank_bankRequest, Function.update_of_ne hb]
  · simp only [start, modifyQueue_bankRequest, setEntry_bankRequest, setScheduled_bankRequest,
      setBank_bankRequest, Function.update_self]
    exact ⟨rfl, rfl, rfl, rfl⟩
  · simp only [start, modifyQueue_scheduled, setEntry_scheduled, setScheduled_scheduled,
      setBank_scheduled, hch]
  · simp only [start, modifyQueue_queue, setEntry_queue, setScheduled_queue, setBank_queue,
      and_self, if_true]
    split
    · rename_i hk
      rw [hk.1, hk.2]
      rfl
    · rfl

/-- What a call on one queue leaves as it is. -/
structure OneQueue (s s' : MemoryController) (k : QueueKind) (ch : ℕ) : Prop where
  writeMode : s'.writeMode = s.writeMode
  next : (s.queue k ch).NextOk → (s'.queue k ch).NextOk
  other : ∀ k' ch', ¬ (k' = k ∧ ch' = ch) → s'.queue k' ch' = s.queue k' ch'

/-- A call on the queue that the mode of its channel asks for. -/
theorem Sound.oneQueue (h : Sound cfg s) (hp : Parts cfg s s' evs) (ho : OneQueue s s' k ch)
    (hmode : s.writeMode ch = decide (k = .wq)) : Sound cfg s' where
  agree := h.agree.parts hp
  moded k' ch' i e ha := by
    rw [ho.writeMode]
    by_cases hk : k' = k ∧ ch' = ch
    · rw [hk.1, hk.2, hmode]
    · refine h.moded k' ch' i e ⟨?_, ha.2⟩
      have hslot := ha.1
      rwa [slot, ho.other k' ch' hk] at hslot
  next k' ch' := by
    by_cases hk : k' = k ∧ ch' = ch
    · rw [hk.1, hk.2]
      exact ho.next (h.next k ch)
    · rw [ho.other k' ch' hk]
      exact h.next k' ch'

theorem OneQueue.refl (s : MemoryController) (k : QueueKind) (ch : ℕ) : OneQueue s s k ch :=
  ⟨rfl, id, fun _ _ _ => rfl⟩

theorem start_oneQueue : OneQueue s (s.start cfg env k ch i hit e) k ch where
  writeMode := rfl
  next _ := by
    simp only [start, modifyQueue_queue, and_self, if_true]
    exact nextOk_updateProcessCycle _
  other k' ch' hk := by
    simp only [start, modifyQueue_queue, setEntry_queue, setScheduled_queue, setBank_queue,
      if_neg hk]

theorem schedule_spec (h : Agree cfg s) : Parts cfg s (s.schedule cfg env k ch) [] ∧
    OneQueue s (s.schedule cfg env k ch) k ch := by
  rw [schedule]
  split
  · exact ⟨.nil, .refl s k ch⟩
  · rename_i i hit hold
    obtain ⟨e, he, hs⟩ := oldest_some hold
    rw [he]
    exact ⟨(start_part h he hs).parts, start_oneQueue⟩

/-! ## Processing -/

theorem freeBank_working (b : BankId) : ((s.freeBank b).bankRequest b).working = false := by
  rw [freeBank, setBank_bankRequest, Function.update_self]

@[simp] theorem freeBank_queue (b : BankId) : (s.freeBank b).queue = s.queue := rfl
@[simp] theorem freeBank_scheduled (b : BankId) : (s.freeBank b).scheduled = s.scheduled := rfl

theorem freeBank_of_ne {b b' : BankId} (hb : b' ≠ b) :
    (s.freeBank b).bankRequest b' = s.bankRequest b' := by
  rw [freeBank, setBank_bankRequest, Function.update_of_ne hb]

/-- A scheduled request whose bank and bus are ready is served. -/
theorem finish_spec (h : Agree cfg s) (env : DramEnv) (ha : s.Active k ch i e) :
    ∃ s' evs, s.finish cfg env k ch i e = some (s', evs) ∧ Parts cfg s s' evs ∧
      OneQueue s s' k ch := by
  have hne := h.occupied _ _ _ _ ha
  have hch : (cfg.bankOf e.address).channel = ch := h.home _ _ _ _ ha.1 hne
  obtain ⟨hi, hget⟩ := List.getElem?_eq_some_iff.1 ha.1
  have hocc : (s.queue k ch).occupancy ≠ 0 := by
    rw [h.occupancy]
    refine (List.countP_pos_iff.2 ⟨e, hget ▸ List.getElem_mem hi, ?_⟩).ne'
    simpa using hne
  have hremove : (s.queue k ch).removeQueue cfg.numCpus i =
      some { s.queue k ch with
        entry := (s.queue k ch).entry.set i (.empty cfg.numCpus)
        occupancy := (s.queue k ch).occupancy - 1
        head := if (s.queue k ch).size ≤ (s.queue k ch).head + 1 then 0
          else (s.queue k ch).head + 1 } := by
    rw [DramQueue.removeQueue, if_neg fun hz => hocc hz.1]
  unfold finish
  simp only [setScheduled_queue, freeBank_queue, setDbus_queue, hremove]
  refine ⟨_, _, rfl, ?_, ?_⟩
  · refine Part.parts (Part.finish ⟨ha.1, fun k' ch' => ?_, fun b hb => ?_⟩ ha.2 ?_
      (fun k' ch' => ?_) fun k' ch' => ?_)
    · rw [modifyQueue_queue]
      split <;> rfl
    · exact freeBank_of_ne hb
    · exact freeBank_working _
    · simp only [modifyQueue_scheduled, setScheduled_scheduled, freeBank_scheduled, hch]
      rfl
    · rw [modifyQueue_queue]
      split <;> rfl
  · refine ⟨rfl, fun _ => ?_, fun k' ch' hk => ?_⟩
    · simp only [modifyQueue_queue, and_self, if_true]
      exact nextOk_updateProcessCycle _
    · simp only [modifyQueue_queue, if_neg hk]
      rfl

/-- A write to what the controller knows of a bank that does not concern what the bank serves. -/
theorem quiet_setBank {b : BankId} {r : BankRequest}
    (hw : r.working = (s.bankRequest b).working)
    (hs : ∀ k i, (s.bankRequest b).ServedBy k i → r.ServedBy k i) : Quiet s (s.setBank b r) where
  entry _ _ := rfl
  occupancy _ _ := rfl
  scheduled := rfl
  working b' := by
    rcases eq_or_ne b' b with rfl | hb
    · rw [setBank_bankRequest, Function.update_self, hw]
    · rw [setBank_bankRequest, Function.update_of_ne hb]
  served b' k i h := by
    rcases eq_or_ne b' b with rfl | hb
    · rw [setBank_bankRequest, Function.update_self]
      exact hs k i h
    · rwa [setBank_bankRequest, Function.update_of_ne hb]

theorem process_spec (h : Agree cfg s) (env : DramEnv)
    (ha : s.Active k ch (s.queue k ch).nextProcessIndex e) :
    ∃ s' evs, s.process cfg env k ch = some (s', evs) ∧ Parts cfg s s' evs ∧
      OneQueue s s' k ch := by
  have hserved := h.bank _ _ _ _ ha
  rw [process]
  simp only [ha.1]
  rw [if_neg fun hindex => hindex hserved.requestIndex]
  split
  · split
    · exact finish_spec h env ha
    · refine ⟨_, _, rfl, Part.parts (.quiet (quiet_setBank ?_ fun k i hs => ?_)), rfl, id,
        fun _ _ _ => rfl⟩
      · rfl
      · exact ⟨hs.working, hs.requestIndex, hs.isRead, hs.isWrite⟩
  · exact ⟨s, [], rfl, .nil, .refl s k ch⟩

/-! ## Changes of the mode -/

/-- The counter that is decremented is that of the queue. -/
theorem unschedule_eq (env : DramEnv) (ch : ℕ)
    (h : (s.bankRequest (cfg.bankOf e.address)).ServedBy k i) :
    ∃ r : BankRequest, r.working = false ∧ s.unschedule cfg env k ch i e =
      ((s.setScheduled k ch (s.scheduled k ch - 1)).setBank (cfg.bankOf e.address) r).setEntry k ch i
        (marked false (env.cycle e.packet.cpu) e) := by
  unfold unschedule
  cases k with
  | rq =>
    have hwrite : (s.bankRequest (cfg.bankOf e.address)).isWrite = false := h.isWrite
    have hread : (s.bankRequest (cfg.bankOf e.address)).isRead = true := h.isRead
    simp only [hwrite, hread, if_true, Bool.false_eq_true, if_false]
    exact ⟨_, rfl, rfl⟩
  | wq =>
    have hwrite : (s.bankRequest (cfg.bankOf e.address)).isWrite = true := h.isWrite
    simp only [hwrite, if_true]
    exact ⟨_, rfl, rfl⟩

theorem unschedule_replaces (h : Agree cfg s) (ha : s.Active k ch i e) :
    Replaces cfg s (s.unschedule cfg env k ch i e) k ch i e
      (marked false (env.cycle e.packet.cpu) e) := by
  obtain ⟨r, hr, heq⟩ := unschedule_eq env ch (h.bank _ _ _ _ ha)
  rw [heq]
  refine ⟨ha.1, fun k' ch' => ?_, fun b hb => ?_⟩
  · rw [setEntry_queue]
    split <;> rfl
  · rw [setEntry_bankRequest, setBank_bankRequest, Function.update_of_ne hb]
    rfl

/-- A scheduled request is unscheduled. -/
theorem unschedule_part (h : Agree cfg s) (ha : s.Active k ch i e) :
    Part cfg s (s.unschedule cfg env k ch i e) [] := by
  have hrep : Replaces cfg s (s.unschedule cfg env k ch i e) k ch i e
      (marked false (env.cycle e.packet.cpu) e) := unschedule_replaces h ha
  obtain ⟨r, hr, heq⟩ := unschedule_eq env ch (h.bank _ _ _ _ ha)
  refine Part.unschedule hrep ha.2 ?_ (fun k' ch' => ?_) fun k' ch' => ?_
  · rw [heq, setEntry_bankRequest, setBank_bankRequest, Function.update_self, hr]
  · rw [heq, setEntry_scheduled, setBank_scheduled, setScheduled_scheduled]
  · rw [heq, setEntry_queue]
    split
    · rename_i hk
      rw [hk.1, hk.2]
      rfl
    · rfl

/-- What the loop of `reset_remain_requests` leaves as it is. -/
structure OneTable (s s' : MemoryController) (k : QueueKind) (ch : ℕ) : Prop where
  writeMode : s'.writeMode = s.writeMode
  size : (s'.queue k ch).size = (s.queue k ch).size
  other : ∀ k' ch', ¬ (k' = k ∧ ch' = ch) → s'.queue k' ch' = s.queue k' ch'

/-- The body of the loop of `reset_remain_requests`. -/
def resetOne (cfg : DramConfig) (env : DramEnv) (k : QueueKind) (ch : ℕ) (s : MemoryController)
    (i : ℕ) : MemoryController :=
  match s.slot k ch i with
  | some e => if e.scheduled then s.unschedule cfg env k ch i e else s
  | none => s

/-- The body leaves its slot unscheduled and the others as they are. -/
theorem resetOne_spec (h : Agree cfg s) (env : DramEnv) (k : QueueKind) (ch i : ℕ) :
    Parts cfg s (s.resetOne cfg env k ch i) [] ∧
    OneTable s (s.resetOne cfg env k ch i) k ch ∧
    (∀ e, ¬ (s.resetOne cfg env k ch i).Active k ch i e) ∧
    ∀ j e, (s.resetOne cfg env k ch i).Active k ch j e → s.Active k ch j e := by
  rw [resetOne]
  split
  · rename_i e he
    split
    · rename_i hs
      have ha : s.Active k ch i e := ⟨he, hs⟩
      have hrep : Replaces cfg s (s.unschedule cfg env k ch i e) k ch i e
          (marked false (env.cycle e.packet.cpu) e) := unschedule_replaces h ha
      refine ⟨(unschedule_part h ha).parts, ?_, fun e₁ ha₁ => ?_, fun j e₁ ha₁ => ?_⟩
      · obtain ⟨r, -, heq⟩ := unschedule_eq env ch (h.bank _ _ _ _ ha)
        rw [heq]
        refine ⟨rfl, ?_, fun k' ch' hk => ?_⟩
        · rw [setEntry_queue, if_pos ⟨rfl, rfl⟩]
          exact List.length_set
        · rw [setEntry_queue, if_neg hk]
          rfl
      · have hslot := Option.some.inj (hrep.slot_self.symm.trans ha₁.1)
        have hs₁ := ha₁.2
        rw [← hslot] at hs₁
        cases hs₁
      · rcases hrep.slot_cases ha₁.1 with ⟨-, rfl⟩ | ⟨-, h₁⟩
        · have hs₁ := ha₁.2
          cases hs₁
        · exact ⟨h₁, ha₁.2⟩
    · rename_i hs
      refine ⟨.nil, ⟨rfl, rfl, fun _ _ _ => rfl⟩, fun e₁ ha => hs ?_, fun _ _ ha => ha⟩
      rw [Option.some.inj (he.symm.trans ha.1)]
      exact ha.2
  · rename_i he
    refine ⟨.nil, ⟨rfl, rfl, fun _ _ _ => rfl⟩, fun e₁ ha => ?_, fun _ _ ha => ha⟩
    have hnone := he.symm.trans ha.1
    cases hnone

theorem OneTable.trans (h : OneTable s s' k ch) (h' : OneTable s' s'' k ch) :
    OneTable s s'' k ch :=
  ⟨h'.writeMode.trans h.writeMode, h'.size.trans h.size,
    fun k' ch' hk => (h'.other k' ch' hk).trans (h.other k' ch' hk)⟩

/-- The loop leaves the slots that it visits unscheduled. -/
theorem resetLoop_spec (h : Agree cfg s) (env : DramEnv) (k : QueueKind) (ch : ℕ)
    (is : List ℕ) :
    Parts cfg s (is.foldl (resetOne cfg env k ch) s) [] ∧
    OneTable s (is.foldl (resetOne cfg env k ch) s) k ch ∧
    ∀ i e, (is.foldl (resetOne cfg env k ch) s).Active k ch i e → i ∉ is ∧ s.Active k ch i e := by
  induction is generalizing s with
  | nil => exact ⟨.nil, ⟨rfl, rfl, fun _ _ _ => rfl⟩, fun i e ha => ⟨List.not_mem_nil, ha⟩⟩
  | cons i is ih =>
    obtain ⟨hparts, htable, hself, hkeep⟩ :=
      resetOne_spec h env k ch i
    obtain ⟨hparts', htable', hall⟩ := ih (h.parts hparts)
    refine ⟨hparts.trans hparts', htable.trans htable', fun j e ha => ?_⟩
    obtain ⟨hj, ha'⟩ := hall j e ha
    refine ⟨fun hmem => ?_, hkeep j e ha'⟩
    rcases List.mem_cons.1 hmem with rfl | hmem
    · exact hself e ha'
    · exact hj hmem

/-- After the loop no request of the queue is scheduled. -/
theorem unscheduleAll_spec (h : Agree cfg s) (env : DramEnv) (k : QueueKind) (ch : ℕ) :
    Parts cfg s (s.unscheduleAll cfg env k ch) [] ∧
    OneTable s (s.unscheduleAll cfg env k ch) k ch ∧
    ∀ i e, ¬ (s.unscheduleAll cfg env k ch).Active k ch i e := by
  obtain ⟨hparts, htable, hall⟩ :=
    resetLoop_spec h env k ch (List.range (s.queue k ch).size)
  refine ⟨hparts, htable, fun i e ha => ?_⟩
  obtain ⟨hi, ha'⟩ := hall i e ha
  refine hi (List.mem_range.2 ?_)
  exact (List.getElem?_eq_some_iff.1 ha'.1).1

/-- A write of the cached indices of a queue. -/
theorem quiet_modifyQueue (f : DramQueue → DramQueue) (hentry : ∀ q, (f q).entry = q.entry)
    (hocc : ∀ q, (f q).occupancy = q.occupancy) (k : QueueKind) (ch : ℕ) :
    Quiet s (s.modifyQueue k ch f) where
  entry k' ch' := by
    rw [modifyQueue_queue]
    split
    · rename_i hk
      rw [hentry, hk.1, hk.2]
    · rfl
  occupancy k' ch' := by
    rw [modifyQueue_queue]
    split
    · rename_i hk
      rw [hocc, hk.1, hk.2]
    · rfl
  scheduled := rfl
  working _ := rfl
  served _ _ _ h := h

theorem Quiet.trans (h : Quiet s s') (h' : Quiet s' s'') : Quiet s s'' where
  entry k ch := (h'.entry k ch).trans (h.entry k ch)
  occupancy k ch := (h'.occupancy k ch).trans (h.occupancy k ch)
  scheduled := h'.scheduled.trans h.scheduled
  working b := (h'.working b).trans (h.working b)
  served b k i hs := h'.served b k i (h.served b k i hs)

/-- The cached indices of both queues of a channel are computed anew. -/
def refresh (ch : ℕ) (s : MemoryController) : MemoryController :=
  (((s.modifyQueue .rq ch DramQueue.updateScheduleCycle).modifyQueue .wq ch
    DramQueue.updateScheduleCycle).modifyQueue .rq ch DramQueue.updateProcessCycle).modifyQueue .wq ch
      DramQueue.updateProcessCycle

theorem quiet_refresh (ch : ℕ) (s : MemoryController) : Quiet s (s.refresh ch) := by
  have hschedule : ∀ (k : QueueKind) (s : MemoryController),
      Quiet s (s.modifyQueue k ch DramQueue.updateScheduleCycle) := fun k s =>
    quiet_modifyQueue DramQueue.updateScheduleCycle (fun _ => rfl) (fun _ => rfl) k ch
  have hprocess : ∀ (k : QueueKind) (s : MemoryController),
      Quiet s (s.modifyQueue k ch DramQueue.updateProcessCycle) := fun k s =>
    quiet_modifyQueue DramQueue.updateProcessCycle (fun _ => rfl) (fun _ => rfl) k ch
  exact ((hschedule .rq s).trans (hschedule .wq _)).trans
    ((hprocess .rq _).trans (hprocess .wq _))

theorem nextOk_refresh (k : QueueKind) (ch : ℕ) (s : MemoryController) :
    ((s.refresh ch).queue k ch).NextOk := by
  cases k
  · simp only [refresh, modifyQueue_queue, reduceCtorEq, false_and, if_false, and_self, if_true]
    exact nextOk_updateProcessCycle _
  · simp only [refresh, modifyQueue_queue, and_self, if_true]
    exact nextOk_updateProcessCycle _

theorem refresh_other (hne : ch' ≠ ch) (k : QueueKind) (s : MemoryController) :
    (s.refresh ch).queue k ch' = s.queue k ch' := by
  simp only [refresh, modifyQueue_queue, hne, and_false, if_false]

/-- The check of `reset_remain_requests` holds. -/
theorem resetRemainRequests_spec (h : Agree cfg s) (env : DramEnv) (k : QueueKind) (ch : ℕ) :
    ∃ s', s.resetRemainRequests cfg env k ch = some s' ∧ Parts cfg s s' [] ∧
      s'.writeMode = s.writeMode ∧ (∀ i e, ¬ s'.Active k ch i e) ∧
      (∀ k' ch' i e, ¬ (k' = k ∧ ch' = ch) → (s'.Active k' ch' i e ↔ s.Active k' ch' i e)) ∧
      ∀ k' ch', (ch' = ch ∨ (s.queue k' ch').NextOk) → (s'.queue k' ch').NextOk := by
  obtain ⟨hparts, htable, hnone⟩ := unscheduleAll_spec h env k ch
  have hquiet := quiet_refresh ch (s.unscheduleAll cfg env k ch)
  have hall := hparts.trans (Part.quiet hquiet).parts
  have hagree := h.parts hall
  have hempty : ∀ i e, ¬ ((s.unscheduleAll cfg env k ch).refresh ch).Active k ch i e :=
    fun i e ha => hnone i e (hquiet.active.1 ha)
  have hzero : ((s.unscheduleAll cfg env k ch).refresh ch).scheduled k ch = 0 := by
    rw [hagree.count, List.countP_eq_zero]
    intro e he hs
    obtain ⟨i, hi, rfl⟩ := List.getElem_of_mem he
    exact hempty i _ ⟨List.getElem?_eq_getElem hi, hs⟩
  refine ⟨(s.unscheduleAll cfg env k ch).refresh ch, ?_, hall, htable.writeMode, hempty,
    fun k' ch' i e hk => ?_, fun k' ch' hn => ?_⟩
  · rw [resetRemainRequests]
    exact if_neg fun hne => hne hzero
  · rw [hquiet.active, Active, slot, htable.other k' ch' hk]
    rfl
  · rcases eq_or_ne ch' ch with rfl | hne
    · exact nextOk_refresh k' ch' _
    · rw [refresh_other hne, htable.other k' ch' fun hk => hne hk.2]
      exact hn.resolve_left hne

/-- The queue that the mode of a channel asks for. -/
def servedKind (s : MemoryController) (ch : ℕ) : QueueKind := if s.writeMode ch then .wq else .rq

theorem writeMode_servedKind : s.writeMode ch = decide (s.servedKind ch = .wq) := by
  rw [servedKind]
  cases s.writeMode ch <;> rfl

/-- A change of the mode leaves the requests in their queues and unschedules those of the other
kind. -/
theorem switchMode_spec (h : Sound cfg s) (env : DramEnv) (ch : ℕ) :
    ∃ s', s.switchMode cfg env ch = some s' ∧ Sound cfg s' ∧ Parts cfg s s' [] := by
  unfold switchMode
  simp only []
  split
  · exact ⟨s, rfl, h, .nil⟩
  · rename_i hmode
    generalize hm : s.nextWriteMode cfg ch = mode at hmode
    generalize hk : (if mode = true then QueueKind.rq else QueueKind.wq) = k
    have hquiet : Quiet s (s.setWriteMode ch mode) :=
      ⟨fun _ _ => rfl, fun _ _ => rfl, rfl, fun _ => rfl, fun _ _ _ hs => hs⟩
    obtain ⟨s', hs', hparts, hwrite, hnone, hother, hnext⟩ :=
      resetRemainRequests_spec (h.agree.quiet hquiet) env k ch
    rw [hs']
    have hdbus : Quiet s' (s'.setDbus ch (s'.dbusCycleAvailable ch + cfg.dbusTurnAroundTime)) :=
      ⟨fun _ _ => rfl, fun _ _ => rfl, rfl, fun _ => rfl, fun _ _ _ hs => hs⟩
    have hstart : Parts cfg s (s.setWriteMode ch mode) [] := (Part.quiet hquiet).parts
    have hall := (hstart.trans hparts).trans (Part.quiet hdbus).parts
    refine ⟨_, rfl, ⟨h.agree.parts hall, fun k' ch' i e ha => ?_, fun k' ch' => ?_⟩, hall⟩
    · have ha : s'.Active k' ch' i e := hdbus.active.1 ha
      have hk' : ¬ (k' = k ∧ ch' = ch) := by
        rintro ⟨rfl, rfl⟩
        exact hnone i e ha
      have hold := h.moded k' ch' i e (hquiet.active.1 ((hother k' ch' i e hk').1 ha))
      rw [setDbus_writeMode, hwrite, setWriteMode_writeMode]
      rcases eq_or_ne ch' ch with rfl | hne
      · rw [Function.update_self]
        have hne : k' ≠ k := fun heq => hk' ⟨heq, rfl⟩
        subst hk
        cases mode <;> cases k' <;> first | rfl | exact absurd rfl hne
      · rw [Function.update_of_ne hne, hold]
    · refine hnext k' ch' ?_
      exact .inr (h.next k' ch')

/-! ## The calls -/

theorem due_active (h : (s.queue k ch).NextOk)
    (hd : s.due env k ch (s.queue k ch).nextProcessIndex (s.queue k ch).nextProcessCycle = true) :
    ∃ e, s.Active k ch (s.queue k ch).nextProcessIndex e := by
  rw [due] at hd
  split at hd
  · cases hd
  · rename_i e he
    obtain ⟨e', he', hs⟩ := h ((of_decide_eq_true hd).trans_lt (env.cycle_lt _))
    exact ⟨e', he', hs⟩

theorem serve_spec (h : Sound cfg s) (env : DramEnv) (ch : ℕ) :
    ∃ s' evs, s.serve cfg env (s.servedKind ch) ch = some (s', evs) ∧ Sound cfg s' ∧
      Parts cfg s s' evs := by
  generalize hk : s.servedKind ch = k
  have hmode : s.writeMode ch = decide (k = .wq) := hk ▸ writeMode_servedKind
  have hscheduled : ∃ s₁, (if s.due env k ch (s.queue k ch).nextScheduleIndex
      (s.queue k ch).nextScheduleCycle then s.schedule cfg env k ch else s) = s₁ ∧
      Parts cfg s s₁ [] ∧ OneQueue s s₁ k ch := by
    split
    · exact ⟨_, rfl, schedule_spec h.agree⟩
    · exact ⟨s, rfl, .nil, .refl s k ch⟩
  obtain ⟨s₁, hs₁, hparts, hone⟩ := hscheduled
  have hsound := h.oneQueue hparts hone hmode
  rw [serve]
  simp only [hs₁]
  split
  · rename_i hdue
    obtain ⟨e, ha⟩ := due_active (hsound.next k ch) hdue
    obtain ⟨s₂, evs, hs₂, hparts₂, hone₂⟩ := process_spec hsound.agree env ha
    refine ⟨s₂, evs, hs₂, hsound.oneQueue hparts₂ hone₂ ?_, hparts.trans hparts₂⟩
    rw [hone.writeMode, hmode]
  · exact ⟨s₁, [], rfl, hsound, hparts⟩

theorem operateChannel_spec (h : Sound cfg s) (env : DramEnv) (ch : ℕ) :
    ∃ s' evs, s.operateChannel cfg env ch = some (s', evs) ∧ Sound cfg s' ∧
      Parts cfg s s' evs := by
  obtain ⟨s₁, hs₁, hsound, hparts⟩ := switchMode_spec h env ch
  obtain ⟨s₂, evs, hs₂, hsound₂, hparts₂⟩ := serve_spec hsound env ch
  rw [operateChannel]
  simp only [hs₁]
  exact ⟨s₂, evs, hs₂, hsound₂, hparts.trans hparts₂⟩

/-- `operate` fails no check, and is a sequence of parts. -/
theorem operateChannels_spec (env : DramEnv) (chs : List ℕ) (h : Sound cfg s) :
    ∃ s' evs, s.operateChannels cfg env chs = some (s', evs) ∧ Sound cfg s' ∧
      Parts cfg s s' evs := by
  induction chs generalizing s with
  | nil => exact ⟨s, [], rfl, h, .nil⟩
  | cons ch chs ih =>
    obtain ⟨s₁, evs₁, hs₁, hsound, hparts⟩ := operateChannel_spec h env ch
    obtain ⟨s₂, evs₂, hs₂, hsound₂, hparts₂⟩ := ih hsound
    rw [operateChannels]
    simp only [hs₁, hs₂]
    exact ⟨s₂, evs₁ ++ evs₂, rfl, hsound₂, hparts.trans hparts₂⟩

end

end MemoryController

end Arishem
