import Arishem.Core.Stages

/-!
# The steps of a core

A step of a core reads an instruction, sends requests to the ITLB and the L1I or takes an answer of one,
retires instructions, or is a stage that leaves the reorder buffer and the fetch unit alone but for the
registers and memory operands. The invariant of the register stages is kept by all of them, as long as
an answer of the ITLB or the L1I marks slots that hold instructions.
-/

namespace Arishem

/-- The id of an instruction that is put into RTE0 or RTE1. -/
def CoreEvent.readyId : CoreEvent → Option ℕ
  | .ready _ id => some id
  | _ => none

/-- The id of an instruction that the ITLB accepts. -/
def CoreEvent.itlbId : CoreEvent → Option ℕ
  | .toItlb r => some r.instrId
  | _ => none

/-- The id of an instruction that the L1I accepts. -/
def CoreEvent.l1iId : CoreEvent → Option ℕ
  | .toL1i r => some r.instrId
  | _ => none

/-- The ids of a kind in what is seen of a run. -/
def noted {L : Type*} (f : CoreEvent → Option ℕ) (tr : Lts.Trace L CoreEvent) : List ℕ :=
  tr.flatMap fun x => x.2.filterMap f

namespace O3Cpu

section
variable {cfg : CoreConfig}

/-! ## Before the first instruction -/

theorem not_live_init (i : ℕ) : ¬ O3Cpu.init.Live cfg i := fun h => Nat.not_lt_zero _ h.2

theorem inOrder_init (hpos : 0 < cfg.robSize) : O3Cpu.init.InOrder cfg := by
  refine ⟨⟨hpos, Nat.zero_le _, (Ring.index_zero hpos).symm⟩, fun i _ => ?_, fun p i h => ?_,
    fun i h => ?_, fun i h => absurd rfl h, fun i h => absurd rfl h⟩
  · exact ⟨rfl, rfl, rfl, rfl, rfl, rfl, fun _ => rfl⟩
  · exact absurd h.live (not_live_init i)
  · exact absurd h (not_live_init i)

theorem wakes_init (hpos : 0 < cfg.robSize) : O3Cpu.init.Wakes cfg := by
  have hindex : ∀ (p i : ℕ) (j : Fin numInstrSources),
      i ∉ (O3Cpu.init.rob.entry p).registersIndexDependOnMe j := fun _ _ _ => Finset.notMem_empty _
  have hinstrs : ∀ p i : ℕ, i ∉ (O3Cpu.init.rob.entry p).registersInstrsDependOnMe :=
    fun _ _ => Finset.notMem_empty _
  have hholds : Ring.Holds cfg.robSize ReadyArray.empty.slots ReadyArray.empty.head
      ReadyArray.empty.tail [] :=
    ⟨hpos, Nat.zero_le _, (Ring.index_zero hpos).symm, fun _ _ => rfl⟩
  refine ⟨[], [], inOrder_init hpos, ⟨fun p i j h => ?_, fun p i j h => ?_, fun p i j h => ?_,
    fun p q i j h => ?_, fun p i => ?_, fun p i h => ?_, fun i j h => ?_, fun i h => ?_,
    fun i h => ?_⟩, ⟨hholds, hholds, List.nodup_nil, fun i => ?_, fun i h => ?_⟩⟩
  · exact absurd h (hindex p i j)
  · exact absurd h (hindex p i j)
  · exact absurd h (hindex p i j)
  · exact absurd h (hindex p i j)
  · exact iff_of_false (hinstrs p i) fun ⟨j, h⟩ => hindex p i j h
  · exact absurd h (hinstrs p i)
  · exact absurd h List.not_mem_nil
  · exact absurd h (not_live_init i)
  · exact absurd h (not_live_init i)
  · exact iff_of_false List.not_mem_nil fun h => not_live_init i h.1.1
  · exact absurd h (not_live_init i)

end

end O3Cpu

namespace CoreSystem

/-- The stage puts some instructions into RTE0 or RTE1, each once, and this is what is seen of it. -/
structure Inserts (cfg : PipelineConfig) (s s' : CoreSystem) (os : List CoreEvent) (is : List ℕ) :
    Prop where
  adds : O3Cpu.Adds cfg.toCoreConfig is s.core.cpu s'.core.cpu
  seen : ∃ a, os = (idsAt s'.core.cpu is).map (.ready a)

/-- A stage that leaves the reorder buffer and the fetch unit alone, but for the registers and the
memory operands. -/
structure Kept (cfg : PipelineConfig) (s s' : CoreSystem) (os : List CoreEvent) : Prop where
  wakes : s'.core.cpu.Wakes cfg.toCoreConfig
  fetch : O3Cpu.SameFetch s.core.cpu s'.core.cpu
  lastRead : s'.core.fetch.lastRead = s.core.fetch.lastRead
  lastFetch : s'.core.fetch.lastFetch = s.core.fetch.lastFetch
  itlb : s'.itlb = s.itlb
  l1i : s'.l1i = s.l1i
  inserts : ∃ is, Inserts cfg s s' os is

/-- The checks of the stages that leave the fetch unit alone. -/
def StageFault (e : CoreFault) : Prop :=
  e ≠ .rte0 ∧ e ≠ .rte1 ∧ e ≠ .itlbOrder ∧ e ≠ .l1iOrder

section
variable {cfg : PipelineConfig} {s s' : CoreSystem} {os : List CoreEvent} {is : List ℕ}

theorem noted_append {L : Type*} (f : CoreEvent → Option ℕ) (tr : Lts.Trace L CoreEvent)
    (x : L × List CoreEvent) : noted f (tr ++ [x]) = noted f tr ++ x.2.filterMap f := by
  rw [noted, List.flatMap_append, List.flatMap_singleton]
  rfl

/-- What is seen of retiring is of its own kinds. -/
theorem filterMap_retireFrom {f : CoreEvent → Option ℕ} (hw : ∀ e, f (.written e) = none)
    (hf : ∀ i, f (.freed i) = none) (hr : ∀ id, f (.retired id) = none) (room : ℕ → Bool) (k : ℕ)
    (cpu : O3Cpu) : (cpu.retireFrom cfg.toCoreConfig room k).2.filterMap f = [] := by
  have hhead : ∀ t : O3Cpu, t.retireEvents.filterMap f = [] := by
    intro t
    rw [O3Cpu.retireEvents, List.filterMap_append, List.filterMap_append, List.filterMap_map,
      List.filterMap_map, List.append_eq_nil_iff, List.append_eq_nil_iff,
      List.filterMap_eq_nil_iff, List.filterMap_eq_nil_iff]
    refine ⟨⟨fun e _ => hw e, fun i _ => hf i⟩, ?_⟩
    rw [List.filterMap_cons, hr]
    rfl
  induction k generalizing cpu with
  | zero => rfl
  | succ k ih =>
    rw [O3Cpu.retireFrom]
    split
    · rw [List.filterMap_append, hhead, ih, List.append_nil]
    · rfl

/-- What is seen of requests is their ids, each of its cache. -/
theorem itlbIds_requests (rs rs' : List FetchRequest) :
    (rs.map CoreEvent.toItlb ++ rs'.map CoreEvent.toL1i).filterMap CoreEvent.itlbId =
      rs.map (·.instrId) := by
  have hnone : rs'.filterMap (CoreEvent.itlbId ∘ CoreEvent.toL1i) = [] :=
    List.filterMap_eq_nil_iff.2 fun _ _ => rfl
  rw [List.filterMap_append, List.filterMap_map, List.filterMap_map, hnone, List.append_nil]
  exact congrFun List.filterMap_eq_map rs

theorem l1iIds_requests (rs rs' : List FetchRequest) :
    (rs.map CoreEvent.toItlb ++ rs'.map CoreEvent.toL1i).filterMap CoreEvent.l1iId =
      rs'.map (·.instrId) := by
  have hnone : rs.filterMap (CoreEvent.l1iId ∘ CoreEvent.toItlb) = [] :=
    List.filterMap_eq_nil_iff.2 fun _ _ => rfl
  rw [List.filterMap_append, List.filterMap_map, List.filterMap_map, hnone, List.nil_append]
  exact congrFun List.filterMap_eq_map rs'

/-- A stage that inserts instructions is seen by their ids alone. -/
theorem Inserts.readyIds (h : Inserts cfg s s' os is) :
    os.filterMap CoreEvent.readyId = idsAt s'.core.cpu is := by
  obtain ⟨a, rfl⟩ := h.seen
  rw [List.filterMap_map]
  exact List.filterMap_some

theorem Inserts.itlbIds (h : Inserts cfg s s' os is) : os.filterMap CoreEvent.itlbId = [] := by
  obtain ⟨a, rfl⟩ := h.seen
  rw [List.filterMap_map, List.filterMap_eq_nil_iff]
  exact fun _ _ => rfl

theorem Inserts.l1iIds (h : Inserts cfg s s' os is) : os.filterMap CoreEvent.l1iId = [] := by
  obtain ⟨a, rfl⟩ := h.seen
  rw [List.filterMap_map, List.filterMap_eq_nil_iff]
  exact fun _ _ => rfl

theorem stageFault_of_memory {e : CoreFault} (he : O3Cpu.MemoryFault e) : StageFault e := by
  rcases he with hload | rfl
  · cases hload <;> exact ⟨by simp, by simp, by simp, by simp⟩
  · exact ⟨by simp, by simp, by simp, by simp⟩

/-! ## Stages -/

/-- A stage that puts no instruction into RTE0 or RTE1. -/
theorem kept_nil (hw : s'.core.cpu.Wakes cfg.toCoreConfig)
    (hf : O3Cpu.SameFetch s.core.cpu s'.core.cpu)
    (ha : O3Cpu.Adds cfg.toCoreConfig [] s.core.cpu s'.core.cpu)
    (hfetch : s'.core.fetch = s.core.fetch) (hitlb : s'.itlb = s.itlb) (hl1i : s'.l1i = s.l1i) :
    Kept cfg s s' [] where
  wakes := hw
  fetch := hf
  lastRead := by rw [hfetch]
  lastFetch := by rw [hfetch]
  itlb := hitlb
  l1i := hl1i
  inserts := ⟨[], ha, .rte0, rfl⟩

/-- A stage that leaves all but the memory operands alone. -/
theorem kept_memory (hw : s.core.cpu.Wakes cfg.toCoreConfig)
    (h : O3Cpu.SameButMemory s.core.cpu s'.core.cpu) (hfetch : s'.core.fetch = s.core.fetch)
    (hitlb : s'.itlb = s.itlb) (hl1i : s'.l1i = s.l1i) : Kept cfg s s' [] := by
  obtain ⟨hw', ha⟩ := hw.memory h
  exact kept_nil hw' h.fetch ha hfetch hitlb hl1i

theorem kept_tick (hw : s.core.cpu.Wakes cfg.toCoreConfig) :
    Ends (s.run cfg .tick) (fun r => Kept cfg s r.1 r.2) StageFault :=
  .ok (kept_memory hw ⟨⟨rfl, rfl, rfl⟩, fun _ => rfl, rfl, rfl, rfl⟩ rfl rfl rfl)

theorem kept_scheduleInstruction (hw : s.core.cpu.Wakes cfg.toCoreConfig) :
    Ends (s.run cfg .scheduleInstruction) (fun r => Kept cfg s r.1 r.2) StageFault := by
  obtain ⟨l₀, l₁, hw⟩ := hw
  refine (hw.checkedScheduleInstruction.mono (fun _ h => h) fun _ h => h.elim).bind fun r hr => ?_
  obtain ⟨⟨l₁', hw'⟩, hsame, ha⟩ := hr
  exact .ok ⟨⟨l₀, l₁', hw'⟩, hsame.fetch, rfl, rfl, rfl, rfl, r.2, ha, .rte1, rfl⟩

theorem kept_executeInstruction (hw : s.core.cpu.Wakes cfg.toCoreConfig) :
    Ends (s.run cfg .executeInstruction) (fun r => Kept cfg s r.1 r.2) StageFault := by
  obtain ⟨l₀, l₁, hw⟩ := hw
  obtain ⟨hw', hsame, ha⟩ := hw.executeInstruction
  obtain ⟨l₀', l₁', hw'⟩ := hw'
  exact .ok (kept_nil ⟨l₀', l₁', hw'⟩ hsame.fetch ha rfl rfl rfl)

theorem kept_scheduleMemoryInstruction (hw : s.core.cpu.Wakes cfg.toCoreConfig) :
    Ends (s.run cfg .scheduleMemoryInstruction) (fun r => Kept cfg s r.1 r.2) StageFault := by
  refine (hw.scheduleMemoryInstruction.mono (fun _ h => h) fun _ => stageFault_of_memory).bind
    fun cpu h => ?_
  exact .ok (kept_nil h.1 h.2.2 h.2.1 rfl rfl rfl)

theorem kept_operateLsq (hw : s.core.cpu.Wakes cfg.toCoreConfig)
    (dtlbStores dtlbLoads l1dLoads : ℕ) :
    Ends (s.run cfg (.operateLsq dtlbStores dtlbLoads l1dLoads)) (fun r => Kept cfg s r.1 r.2)
      StageFault := by
  have hstage := @O3Cpu.operateLsq_same cfg.toCoreConfig dtlbStores dtlbLoads l1dLoads s.core.cpu
  refine (hstage.mono (fun _ h => h) fun _ h => stageFault_of_memory (.inl h)).bind fun r h => ?_
  exact .ok (kept_memory hw h.memory rfl rfl rfl)

theorem kept_completeDataFetch (hw : s.core.cpu.Wakes cfg.toCoreConfig) (isItTlb : Bool)
    (p : DataPacket) :
    Ends (s.run cfg (.completeDataFetch isItTlb p)) (fun r => Kept cfg s r.1 r.2) StageFault := by
  have hstage := @O3Cpu.completeDataFetch_same cfg.toCoreConfig isItTlb p s.core.cpu
  refine (hstage.mono (fun _ h => h) fun _ h => stageFault_of_memory (.inl h)).bind fun cpu h => ?_
  cases isItTlb with
  | true => exact .ok (kept_memory hw h.memory rfl rfl rfl)
  | false => exact .ok (kept_memory hw h.memory rfl rfl rfl)

/-! ## Completing executions -/

/-- What completing executions leaves of a core, with the instructions that go to RTE0. -/
structure Completes (cfg : PipelineConfig) (c c' : Core) (is : List ℕ) : Prop where
  wakes : c'.cpu.Wakes cfg.toCoreConfig
  same : O3Cpu.SameButRegisters c.cpu c'.cpu
  adds : O3Cpu.Adds cfg.toCoreConfig is c.cpu c'.cpu
  lastRead : c'.fetch.lastRead = c.fetch.lastRead
  lastFetch : c'.fetch.lastFetch = c.fetch.lastFetch

theorem Completes.trans {c c' c'' : Core} {is' : List ℕ} (h : Completes cfg c c' is)
    (h' : Completes cfg c' c'' is') : Completes cfg c c'' (is ++ is') :=
  ⟨h'.wakes, h.same.trans h'.same, h.adds.trans h'.adds, h'.lastRead.trans h.lastRead,
    h'.lastFetch.trans h.lastFetch⟩

theorem completes_execution {c : Core} (hw : c.cpu.Wakes cfg.toCoreConfig) (i : ℕ) :
    Ends (c.completeExecution cfg i) (fun r => Completes cfg c r.1 r.2) fun _ => False := by
  obtain ⟨l₀, l₁, hw⟩ := hw
  refine (hw.completeExecution i).bind fun r hr => ?_
  obtain ⟨⟨l₀', hw'⟩, hsame, ha⟩ := hr
  split
  · exact .ok ⟨⟨l₀', l₁, hw'⟩, hsame, ha, rfl, rfl⟩
  · exact .ok ⟨⟨l₀', l₁, hw'⟩, hsame, ha, rfl, rfl⟩

theorem completes_executions {c : Core} (hw : c.cpu.Wakes cfg.toCoreConfig) :
    Ends (c.completeExecutions cfg) (fun r => Completes cfg c r.1 r.2) fun _ => False := by
  have hrefl : Completes cfg c c [] := ⟨hw, .refl _, .refl _, rfl, rfl⟩
  rw [Core.completeExecutions]
  split
  · refine Ends.foldlM (I := fun r : Core × List ℕ => Completes cfg c r.1 r.2)
      (fun r i _ h => ?_) hrefl
    exact (completes_execution h.wakes i).bind fun r' hr' => .ok (h.trans hr')
  · exact .ok hrefl

theorem kept_completeExecutions (hw : s.core.cpu.Wakes cfg.toCoreConfig) :
    Ends (s.run cfg .completeExecutions) (fun r => Kept cfg s r.1 r.2) StageFault := by
  refine ((completes_executions hw).mono (fun _ h => h) fun _ h => h.elim).bind fun r h => ?_
  exact .ok ⟨h.wakes, h.same.fetch, h.lastRead, h.lastFetch, rfl, rfl, r.2, h.adds, .rte0, rfl⟩

/-! ## Steps -/

/-- What a step of a core does. -/
inductive Transition (cfg : PipelineConfig) (s : CoreSystem) :
    CoreLabel → CoreSystem → List CoreEvent → Prop
  | stage {l : CoreLabel} {s' : CoreSystem} {os : List CoreEvent} (h : Kept cfg s s' os) :
    Transition cfg s l s' os
  | reads {r : InputInstr} {mispredicted : Bool} {core : Core}
    (hroom : s.core.cpu.rob.occupancy < cfg.robSize)
    (h : O3Cpu.Added cfg.toCoreConfig s.core.cpu core.cpu)
    (hread : core.fetch.lastRead = s.core.fetch.lastRead)
    (hfetch : core.fetch.lastFetch = s.core.fetch.lastFetch) :
    Transition cfg s (.handleBranch r mispredicted) { s with core := core } []
  | fetches {itlb l1i : ℕ} {r : Core × List FetchRequest × List FetchRequest}
    (h : s.core.fetchInstruction cfg itlb l1i = .ok r) :
    Transition cfg s (.fetchInstruction itlb l1i)
      { s with core := r.1, itlb := s.itlb ++ r.2.1, l1i := s.l1i ++ r.2.2 }
      (r.2.1.map .toItlb ++ r.2.2.map .toL1i)
  | translated {request : FetchRequest} {merged : List FetchRequest} {cpu : O3Cpu}
    (hopen : (request :: merged).Subperm s.itlb)
    (h : s.core.cpu.completeInstrFetch cfg.toCoreConfig cfg.fetchWidth true request
      (merged.map (·.robIndex)).toFinset = .ok cpu) :
    Transition cfg s (.completeInstrFetch true request merged)
      { s.withCpu cpu with itlb := s.itlb.diff (request :: merged) } []
  | fetched {request : FetchRequest} {merged : List FetchRequest} {cpu : O3Cpu}
    (hopen : (request :: merged).Subperm s.l1i)
    (h : s.core.cpu.completeInstrFetch cfg.toCoreConfig cfg.fetchWidth false request
      (merged.map (·.robIndex)).toFinset = .ok cpu) :
    Transition cfg s (.completeInstrFetch false request merged)
      { s.withCpu cpu with l1i := s.l1i.diff (request :: merged) } []
  | retires (room : ℕ → Bool) :
    Transition cfg s (.retireRob room) (s.withCpu (s.core.cpu.retireRob cfg.toCoreConfig room).1)
      (s.core.cpu.retireRob cfg.toCoreConfig room).2

theorem step_run {l : CoreLabel} (hs : s.step cfg l = some (s', os)) :
    s.enabled cfg l ∧ s.run cfg l = .ok (s', os) := by
  rw [step, Option.ite_none_right_eq_some] at hs
  obtain ⟨hen, hrun⟩ := hs
  refine ⟨hen, ?_⟩
  cases hr : s.run cfg l with
  | error e =>
    rw [hr] at hrun
    cases hrun
  | ok r =>
    rw [hr] at hrun
    exact congrArg _ (Option.some.inj hrun)

/-- Every step is one of these. -/
theorem transition {l : CoreLabel} (hw : s.core.cpu.Wakes cfg.toCoreConfig)
    (hs : s.step cfg l = some (s', os)) : Transition cfg s l s' os := by
  obtain ⟨hen, hrun⟩ := step_run hs
  cases l with
  | tick => exact .stage ((kept_tick hw).of_ok hrun)
  | handleBranch r mispredicted =>
    rw [run] at hrun
    cases hc : s.core.handleBranch cfg r mispredicted with
    | error e =>
      rw [hc] at hrun
      cases hrun
    | ok core =>
      rw [hc] at hrun
      cases hrun
      obtain ⟨hadded, hread, hfetch⟩ := (Core.handleBranch_added r mispredicted s.core).of_ok hc
      exact .reads hen.1 hadded hread hfetch
  | fetchInstruction itlb l1i =>
    rw [run] at hrun
    cases hc : s.core.fetchInstruction cfg itlb l1i with
    | error e =>
      rw [hc] at hrun
      cases hrun
    | ok r =>
      rw [hc] at hrun
      cases hrun
      exact .fetches hc
  | scheduleInstruction => exact .stage ((kept_scheduleInstruction hw).of_ok hrun)
  | executeInstruction => exact .stage ((kept_executeInstruction hw).of_ok hrun)
  | scheduleMemoryInstruction => exact .stage ((kept_scheduleMemoryInstruction hw).of_ok hrun)
  | operateLsq dtlbStores dtlbLoads l1dLoads =>
    exact .stage ((kept_operateLsq hw dtlbStores dtlbLoads l1dLoads).of_ok hrun)
  | completeInstrFetch isItTlb request merged =>
    rw [run] at hrun
    cases hc : s.core.cpu.completeInstrFetch cfg.toCoreConfig cfg.fetchWidth isItTlb request
        (merged.map (·.robIndex)).toFinset with
    | error e =>
      rw [hc] at hrun
      cases hrun
    | ok cpu =>
      rw [hc] at hrun
      cases isItTlb with
      | true =>
        cases hrun
        exact .translated hen hc
      | false =>
        cases hrun
        exact .fetched hen hc
  | completeDataFetch isItTlb p => exact .stage ((kept_completeDataFetch hw isItTlb p).of_ok hrun)
  | completeExecutions => exact .stage ((kept_completeExecutions hw).of_ok hrun)
  | retireRob room =>
    cases hrun
    exact .retires room

/-- A core with a reorder buffer of two slots that fetches two instructions in a cycle. -/
def twoEntries : PipelineConfig where
  robSize := 2
  schedulerSize := 2
  staSize := 8
  lqSize := 1
  sqSize := 1
  lqWidth := 1
  sqWidth := 1
  execWidth := 1
  retireWidth := 1
  schedulingLatency := 0
  execLatency := 0
  fetchWidth := 2
  branchMispredictPenalty := 0
  robSize_gt := Nat.one_lt_two
  lqSize_pos := Nat.one_pos
  sqSize_pos := Nat.one_pos
  staSize_eq := rfl

/-- An instruction without operands. -/
def nop : InputInstr where
  ip := 1
  destinationRegisters _ := 0
  destinationMemory _ := 0
  sourceRegisters _ := 0
  sourceMemory _ := 0

/-- An instruction that writes a register. -/
def writesRegister : InputInstr := { nop with destinationRegisters := fun d => if d = 0 then 7 else 0 }

/-- An instruction that reads the register. -/
def readsRegister : InputInstr := { nop with sourceRegisters := fun j => if j = 0 then 7 else 0 }

/-- The two instructions are translated and fetched together. -/
def bothFetched : List CoreLabel :=
  [.handleBranch writesRegister false, .handleBranch readsRegister false, .fetchInstruction 2 0,
    .completeInstrFetch true ⟨0, 0⟩ [⟨1, 1⟩], .fetchInstruction 0 2,
    .completeInstrFetch false ⟨0, 0⟩ [⟨1, 1⟩]]

end

end CoreSystem

end Arishem
