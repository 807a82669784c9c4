import Arishem.Core.Transitions

/-!
# Waking up

Over a run of a core, an instruction waits for the sources that older instructions record and have not
released, it is put into one of the two arrays once, when it waits for none, and only such instructions
are executed. This rests on the answers of the ITLB and the L1I: the slots of the requests that were
merged are written without the check that the slot of the answered one gets. A slot that has become
empty in between would go through the stages without an instruction.
-/

namespace Arishem

namespace O3Cpu

/-- The source is recorded by an older instruction that is not completed. -/
def RecordedSource (cfg : CoreConfig) (s : O3Cpu) (i : ℕ) (j : Fin numInstrSources) : Prop :=
  ∃ p, s.Older cfg p i ∧ i ∈ (s.rob.entry p).registersIndexDependOnMe j ∧
    (s.rob.entry p).executed ≠ .completed

open Classical in
/-- The sources of an instruction that are recorded by older ones which are not completed. -/
noncomputable def recordedSources (cfg : CoreConfig) (s : O3Cpu) (i : ℕ) :
    Finset (Fin numInstrSources) :=
  Finset.univ.filter (s.RecordedSource cfg i)

/-- The instructions with these ids have been put into the arrays: each id once, and those of the
buffer that are ready. -/
structure Noted (cfg : CoreConfig) (ids : List ℕ) (s : O3Cpu) : Prop where
  wakes : s.Wakes cfg
  once : ids.Nodup
  idLt : ∀ id ∈ ids, id < s.instrUniqueId
  readied : ∀ i, s.Live cfg i → ((s.rob.entry i).instrId ∈ ids ↔ s.Readied cfg i)

section
variable {cfg : CoreConfig} {s s' : O3Cpu} {i p : ℕ} {ids is : List ℕ}

theorem mem_recordedSources {j : Fin numInstrSources} :
    j ∈ s.recordedSources cfg i ↔ s.RecordedSource cfg i j := by
  classical
  simp [recordedSources]

theorem Recorded.waiting_eq (h : s.Recorded cfg none []) (i : ℕ) :
    s.waiting [] i = s.recordedSources cfg i := by
  ext j
  rw [mem_waiting, mem_recordedSources, Waits, RecordedSource]
  constructor
  · rintro (⟨p, hi, hx⟩ | hi)
    · exact ⟨p, h.older p i j hi, hi, hx⟩
    · exact absurd hi List.not_mem_nil
  · rintro ⟨p, -, hi, hx⟩
    exact .inl ⟨p, hi, hx⟩

/-- A stage puts some instructions into the arrays. -/
theorem Noted.adds (h : Noted cfg ids s) (hw : s'.Wakes cfg) (hf : SameFetch s s')
    (ha : Adds cfg is s s') :
    Noted cfg (ids ++ is.map fun i => (s'.rob.entry i).instrId) s' := by
  have hlive : ∀ k ∈ is, s.Live cfg k := fun k hk =>
    hf.ring.live.1 ((ha.readied k).2 (.inr hk)).1
  refine ⟨hw, ?_, fun id hid => ?_, fun k hk => ?_⟩
  · refine List.nodup_append.2 ⟨h.once, ?_, fun a ha' b hb hab => ?_⟩
    · refine ha.nodup.map_on fun k hk k' hk' heq => ?_
      rw [hf.instrId, hf.instrId] at heq
      exact h.wakes.inOrder.instrId_inj (hlive k hk) (hlive k' hk') heq
    · obtain ⟨k, hk, rfl⟩ := List.mem_map.1 hb
      rw [hab, hf.instrId] at ha'
      exact ha.fresh k hk ((h.readied k (hlive k hk)).1 ha')
  · rw [hf.uniqueId]
    rcases List.mem_append.1 hid with hid | hid
    · exact h.idLt id hid
    · obtain ⟨k, hk, rfl⟩ := List.mem_map.1 hid
      rw [hf.instrId]
      exact h.wakes.inOrder.idLt k (hlive k hk)
  · have hk := hf.ring.live.1 hk
    rw [List.mem_append, ha.readied, hf.instrId, h.readied k hk, List.mem_map]
    refine or_congr_right ⟨?_, fun hmem => ⟨k, hmem, hf.instrId k⟩⟩
    rintro ⟨k', hk', heq⟩
    rw [hf.instrId] at heq
    rwa [← h.wakes.inOrder.instrId_inj (hlive k' hk') hk heq]

/-- Instructions come and go. -/
theorem Noted.turnover (h : Noted cfg ids s) (ht : Turnover cfg s s') (ho : s'.InOrder cfg) :
    Noted cfg ids s' := by
  refine ⟨h.wakes.turnover ht ho, h.once, fun id hid => (h.idLt id hid).trans_le ht.uniqueId,
    fun k hk => ?_⟩
  rw [ht.readied hk]
  by_cases hk' : s.Live cfg k
  · rw [ht.kept k hk' hk]
    exact h.readied k hk'
  · have hf := ht.fresh k hk hk'
    rw [hf.instrId]
    exact iff_of_false (fun hid => lt_irrefl _ (h.idLt _ hid)) fun hr => hk' hr.1

/-- The fetch unit goes on. -/
theorem Noted.fetch (h : Noted cfg ids s) (hsame : SameButFetch cfg s s') : Noted cfg ids s' := by
  obtain ⟨hw, ha⟩ := h.wakes.fetch hsame
  refine ⟨hw, h.once, fun id hid => ?_, fun k hk => ?_⟩
  · rw [hsame.uniqueId]
    exact h.idLt id hid
  · rw [ha.readied, hsame.field RobEntry.instrId (fun _ => rfl)]
    rw [h.readied k (hsame.ring.live.1 hk)]
    exact (or_iff_left List.not_mem_nil).symm

theorem noted_init (hpos : 0 < cfg.robSize) : Noted cfg [] O3Cpu.init :=
  ⟨wakes_init hpos, List.nodup_nil, fun _ h => absurd h List.not_mem_nil,
    fun i h => absurd h (not_live_init i)⟩

end

end O3Cpu

namespace CoreSystem

section
variable (cfg : PipelineConfig)

/-- The slots that an answer of the ITLB or the L1I marks for merged requests hold instructions. -/
def MarksLive (s : CoreSystem) : CoreLabel → Prop
  | .completeInstrFetch _ _ merged =>
    ∀ r ∈ merged, s.core.cpu.Live cfg.toCoreConfig r.robIndex
  | _ => True

instance decidableMarksLive (s : CoreSystem) : (l : CoreLabel) → Decidable (MarksLive cfg s l)
  | .completeInstrFetch _ _ merged =>
    inferInstanceAs (Decidable (∀ r ∈ merged, s.core.cpu.Live cfg.toCoreConfig r.robIndex))
  | .tick | .handleBranch _ _ | .fetchInstruction _ _ | .scheduleInstruction
  | .executeInstruction | .scheduleMemoryInstruction | .operateLsq _ _ _
  | .completeDataFetch _ _ | .completeExecutions | .retireRob _ => isTrue trivial

/-- Register wake-up in a state that a run has reached, and in the steps from it. -/
structure WakesEach {L : Type*} (tr : Lts.Trace L CoreEvent) (s : CoreSystem) : Prop where
  count : ∀ i, s.core.cpu.Live cfg.toCoreConfig i → (s.core.cpu.rob.entry i).scheduled ≠ .none →
    (s.core.cpu.rob.entry i).numRegDependent =
      (s.core.cpu.recordedSources cfg.toCoreConfig i).card
  ready : ∀ i, s.core.cpu.Live cfg.toCoreConfig i → (s.core.cpu.rob.entry i).scheduled ≠ .none →
    ((s.core.cpu.rob.entry i).regReady = true ↔ (s.core.cpu.rob.entry i).numRegDependent = 0)
  once : (noted CoreEvent.readyId tr).Nodup
  inserted : ∀ i, s.core.cpu.Live cfg.toCoreConfig i →
    ((s.core.cpu.rob.entry i).instrId ∈ noted CoreEvent.readyId tr ↔
      (s.core.cpu.rob.entry i).isMemory = false ∧ (s.core.cpu.rob.entry i).scheduled ≠ .none ∧
        (s.core.cpu.rob.entry i).numRegDependent = 0)
  executed : ∀ i, s.core.cpu.Live cfg.toCoreConfig i →
    (s.core.cpu.rob.entry i).isMemory = false → (s.core.cpu.rob.entry i).executed ≠ .none →
    (s.core.cpu.rob.entry i).instrId ∈ noted CoreEvent.readyId tr
  afterProducers : ∀ l s' os, MarksLive cfg s l → s.step cfg l = some (s', os) →
    ∀ id ∈ os.filterMap CoreEvent.readyId, ∃ i, s'.core.cpu.Live cfg.toCoreConfig i ∧
      (s'.core.cpu.rob.entry i).instrId = id ∧
      ∀ j p, i ∈ (s'.core.cpu.rob.entry p).registersIndexDependOnMe j →
        (s'.core.cpu.rob.entry p).executed = .completed
  faults : ∀ l e, s.run cfg l = .error e → e ≠ .rte0 ∧ e ≠ .rte1
  waits : ∀ i, s.core.cpu.Live cfg.toCoreConfig i → (s.core.cpu.rob.entry i).scheduled ≠ .none →
    (s.core.cpu.rob.entry i).regReady = false →
    ∃ p, s.core.cpu.Older cfg.toCoreConfig p i ∧
      i ∈ (s.core.cpu.rob.entry p).registersInstrsDependOnMe ∧
      (s.core.cpu.rob.entry p).regRawProducer = true ∧
      (s.core.cpu.rob.entry p).executed ≠ .completed

end

section
variable {cfg : PipelineConfig} {s s' : CoreSystem} {l : CoreLabel} {os : List CoreEvent}
  {ids : List ℕ}

theorem noted_step (h : O3Cpu.Noted cfg.toCoreConfig ids s.core.cpu) (hl : MarksLive cfg s l)
    (hs : s.step cfg l = some (s', os)) :
    O3Cpu.Noted cfg.toCoreConfig (ids ++ os.filterMap CoreEvent.readyId) s'.core.cpu := by
  have ho := h.wakes.inOrder
  cases transition h.wakes hs with
  | stage hkept =>
    obtain ⟨is, hins⟩ := hkept.inserts
    rw [hins.readyIds]
    exact h.adds hkept.wakes hkept.fetch hins.adds
  | @reads r mispredicted core hroom hadded hread hfetch =>
    obtain ⟨l₀, l₁, hw⟩ := h.wakes
    rw [List.filterMap_nil, List.append_nil]
    exact h.turnover (hadded.turnover ho hroom hw.recorded) (hadded.inOrder ho hroom)
  | @fetches itlb l1i r hr =>
    have hnone : (r.2.1.map CoreEvent.toItlb ++ r.2.2.map CoreEvent.toL1i).filterMap
        CoreEvent.readyId = [] := by
      rw [List.filterMap_append, List.filterMap_map, List.filterMap_map,
        List.append_eq_nil_iff, List.filterMap_eq_nil_iff, List.filterMap_eq_nil_iff]
      exact ⟨fun _ _ => rfl, fun _ _ => rfl⟩
    rw [hnone, List.append_nil]
    exact h.fetch ((Core.fetchInstruction_same itlb l1i ho).of_ok hr)
  | @translated request merged cpu hopen hc =>
    rw [List.filterMap_nil, List.append_nil]
    refine h.fetch ((O3Cpu.completeInstrFetch_same ho _ _ _ _).of_ok hc fun i hi => ?_)
    obtain ⟨r, hr, rfl⟩ := List.mem_map.1 (List.mem_toFinset.1 hi)
    exact hl r hr
  | @fetched request merged cpu hopen hc =>
    rw [List.filterMap_nil, List.append_nil]
    refine h.fetch ((O3Cpu.completeInstrFetch_same ho _ _ _ _).of_ok hc fun i hi => ?_)
    obtain ⟨r, hr, rfl⟩ := List.mem_map.1 (List.mem_toFinset.1 hi)
    exact hl r hr
  | retires room =>
    rw [O3Cpu.retireRob, filterMap_retireFrom (fun _ => rfl) (fun _ => rfl) fun _ => rfl,
      List.append_nil]
    have hkeep : ∀ t t' : O3Cpu, t.InOrder cfg.toCoreConfig → O3Cpu.Noted cfg.toCoreConfig ids t →
        O3Cpu.Retired cfg.toCoreConfig t t' → O3Cpu.Noted cfg.toCoreConfig ids t' := by
      intro t t' ht hn hret
      obtain ⟨l₀, l₁, hw⟩ := hn.wakes
      exact hn.turnover (hret.turnover ht hw.recorded) (hret.inOrder ht)
    exact (O3Cpu.retireFrom_keeps hkeep cfg.retireWidth ho h).2

theorem noted_run {tr : Lts.Trace CoreLabel CoreEvent}
    (h : (lts cfg).Run (MarksLive cfg) s tr) :
    O3Cpu.Noted cfg.toCoreConfig (noted CoreEvent.readyId tr) s.core.cpu := by
  refine h.induct (P := fun s tr => O3Cpu.Noted cfg.toCoreConfig (noted CoreEvent.readyId tr)
    s.core.cpu) ?_ fun s tr l s' os _ ih hl hs => ?_
  · rintro s rfl
    exact O3Cpu.noted_init (Nat.zero_lt_of_lt cfg.robSize_gt)
  · rw [noted_append]
    exact noted_step ih hl hs

/-! ## Checks -/

theorem not_rte_of_stageFault {e : CoreFault} (h : StageFault e) : e ≠ .rte0 ∧ e ≠ .rte1 :=
  ⟨h.1, h.2.1⟩

/-- The checks of the two arrays do not fail. -/
theorem run_faults (hw : s.core.cpu.Wakes cfg.toCoreConfig) (l : CoreLabel) :
    Ends (s.run cfg l) (fun _ => True) fun e => e ≠ .rte0 ∧ e ≠ .rte1 := by
  have ho := hw.inOrder
  cases l with
  | tick => exact (kept_tick hw).mono (fun _ _ => trivial) fun _ => not_rte_of_stageFault
  | handleBranch r mispredicted =>
    refine ((Core.handleBranch_added r mispredicted s.core).mono (fun _ _ => trivial)
      fun e he => ?_).bind fun _ _ => .ok trivial
    cases he <;> exact ⟨by simp, by simp⟩
  | fetchInstruction itlb l1i =>
    refine ((Core.fetchInstruction_same itlb l1i ho).mono (fun _ _ => trivial)
      fun e he => ?_).bind fun _ _ => .ok trivial
    rcases he with rfl | rfl <;> exact ⟨by simp, by simp⟩
  | scheduleInstruction =>
    exact (kept_scheduleInstruction hw).mono (fun _ _ => trivial) fun _ => not_rte_of_stageFault
  | executeInstruction => exact .ok trivial
  | scheduleMemoryInstruction =>
    exact (kept_scheduleMemoryInstruction hw).mono (fun _ _ => trivial)
      fun _ => not_rte_of_stageFault
  | operateLsq dtlbStores dtlbLoads l1dLoads =>
    exact (kept_operateLsq hw ..).mono (fun _ _ => trivial) fun _ => not_rte_of_stageFault
  | completeInstrFetch isItTlb request merged =>
    refine ((O3Cpu.completeInstrFetch_same ho _ _ _ _).mono (fun _ _ => trivial)
      fun e he => ?_).bind fun cpu _ => ?_
    · subst he
      exact ⟨by simp, by simp⟩
    · split <;> exact .ok trivial
  | completeDataFetch isItTlb p =>
    exact (kept_completeDataFetch hw ..).mono (fun _ _ => trivial) fun _ => not_rte_of_stageFault
  | completeExecutions =>
    exact (kept_completeExecutions hw).mono (fun _ _ => trivial) fun _ => not_rte_of_stageFault
  | retireRob room => exact .ok trivial

/-- An instruction that is put into one of the arrays waits for no source. -/
theorem released_of_ready (h : O3Cpu.Noted cfg.toCoreConfig ids s.core.cpu) (hl : MarksLive cfg s l)
    (hs : s.step cfg l = some (s', os)) {id : ℕ} (hid : id ∈ os.filterMap CoreEvent.readyId) :
    ∃ i, s'.core.cpu.Live cfg.toCoreConfig i ∧ (s'.core.cpu.rob.entry i).instrId = id ∧
      ∀ j p, i ∈ (s'.core.cpu.rob.entry p).registersIndexDependOnMe j →
        (s'.core.cpu.rob.entry p).executed = .completed := by
  have h' := noted_step h hl hs
  cases transition h.wakes hs with
  | stage hkept =>
    obtain ⟨is, hins⟩ := hkept.inserts
    rw [hins.readyIds] at hid
    obtain ⟨i, hi, rfl⟩ := List.mem_map.1 hid
    have hr := (hins.adds.readied i).2 (.inr hi)
    obtain ⟨l₀, l₁, hw⟩ := h'.wakes
    refine ⟨i, hr.1, rfl, fun j p hj => ?_⟩
    by_contra hx
    -- a source that is not released would be counted
    have hcount := hw.recorded.count i hr.1
    rw [hr.2.2.2, eq_comm, Int.natCast_eq_zero, Finset.card_eq_zero] at hcount
    have hmem : j ∈ s'.core.cpu.waiting [] i := O3Cpu.mem_waiting.2 (.inl ⟨p, hj, hx⟩)
    rw [hcount] at hmem
    exact absurd hmem (Finset.notMem_empty j)
  | reads => exact absurd hid List.not_mem_nil
  | fetches =>
    obtain ⟨e, he, heq⟩ := List.mem_filterMap.1 hid
    rcases List.mem_append.1 he with he | he
    · obtain ⟨r, -, rfl⟩ := List.mem_map.1 he
      cases heq
    · obtain ⟨r, -, rfl⟩ := List.mem_map.1 he
      cases heq
  | translated => exact absurd hid List.not_mem_nil
  | fetched => exact absurd hid List.not_mem_nil
  | retires room =>
    rw [O3Cpu.retireRob, filterMap_retireFrom (fun _ => rfl) (fun _ => rfl) fun _ => rfl] at hid
    exact absurd hid List.not_mem_nil

/-- What the stages keep is all that wake-up asks for. -/
theorem wakesEach_of_noted {L : Type*} {tr : Lts.Trace L CoreEvent}
    (hn : O3Cpu.Noted cfg.toCoreConfig (noted CoreEvent.readyId tr) s.core.cpu) :
    WakesEach cfg tr s := by
  obtain ⟨l₀, l₁, hw⟩ := hn.wakes
  have hr := hw.recorded
  refine ⟨fun i hi _ => ?_, fun i hi hs => hr.ready i hi (.inl hs), hn.once, fun i hi => ?_,
    fun i hi hm hx => ?_, fun l s' os hl hs id hid => released_of_ready hn hl hs hid,
    fun l e he => (run_faults hn.wakes l).of_error he, fun i hi hs hready => ?_⟩
  · rw [← hr.waiting_eq]
    exact hr.count i hi
  · exact (hn.readied i hi).trans (and_iff_right hi)
  · have hsched := hn.wakes.inOrder.scheduled i hx
    exact (hn.readied i hi).2 ⟨hi, hm, hsched, hw.queued.issued i hi hm hx⟩
  · have hne : (s.core.cpu.rob.entry i).numRegDependent ≠ 0 := fun hzero => by
      rw [(hr.ready i hi (.inl hs)).2 hzero] at hready
      cases hready
    rw [hr.count i hi, ne_eq, Int.natCast_eq_zero, ← ne_eq, Finset.card_ne_zero] at hne
    obtain ⟨j, hj⟩ := hne
    rcases O3Cpu.mem_waiting.1 hj with ⟨p, hp, hx⟩ | hj
    · have hinstr := (hr.instrs p i).2 ⟨j, hp⟩
      exact ⟨p, hr.older p i j hp, hinstr, hr.producer p i hinstr, hx⟩
    · exact absurd hj List.not_mem_nil

end

end CoreSystem

end Arishem
