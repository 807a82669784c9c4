import Arishem.Core.Wakeup

/-!
# What the load and store stages leave alone

Loads and the answers of the data caches leave the registers, the stages of fetching, the STA and the
order of the store queue alone. Adding stores and scheduling a memory instruction changes its own
stages, and leaves the registers alone too. The checks that can fail in these stages are those of the
queues and of `num_mem_ops`.
-/

namespace Arishem

namespace O3Cpu

section

/-- The fields of an instruction that loads leave alone. -/
def withoutLoads (e : RobEntry) : RobEntry :=
  { e with
    eventCycle := 0
    sourceAdded := fun _ => false
    lqIndex := fun _ => none
    numMemOps := 0
    isProducer := false
    memoryInstrsDependOnMe := ∅ }

/-- The fields of a store that say which store it is. -/
def withoutProgress (l : LsqEntry) : LsqEntry :=
  { l with physicalAddress := 0, eventCycle := 0, translated := .none, fetched := .none }

/-- Loads and answers leave the rest alone. -/
structure SameButLoads (s s' : O3Cpu) : Prop where
  ring : SameRing s s'
  entry : ∀ i, withoutLoads (s'.rob.entry i) = withoutLoads (s.rob.entry i)
  rte0 : s'.rte0 = s.rte0
  rte1 : s'.rte1 = s.rte1
  sta : s'.sta = s.sta
  uniqueId : s'.instrUniqueId = s.instrUniqueId
  cycle : s'.currentCoreCycle = s.currentCoreCycle
  sqHead : s'.sq.head = s.sq.head
  sqTail : s'.sq.tail = s.sq.tail
  sqOccupancy : s'.sq.occupancy = s.sq.occupancy
  sqEntry : ∀ i, withoutProgress (s'.sq.entry i) = withoutProgress (s.sq.entry i)

/-- The fields of an instruction that the load and store stages leave alone, its own scheduling
apart. -/
def withoutMemory (e : RobEntry) : RobEntry :=
  { withoutLoads e with destinationAdded := fun _ => false, sqIndex := fun _ => none }

/-- Adding loads and stores leaves the rest alone. -/
structure SameButMemory (s s' : O3Cpu) : Prop where
  ring : SameRing s s'
  entry : ∀ i, withoutMemory (s'.rob.entry i) = withoutMemory (s.rob.entry i)
  rte0 : s'.rte0 = s.rte0
  rte1 : s'.rte1 = s.rte1
  uniqueId : s'.instrUniqueId = s.instrUniqueId

/-- The checks of the stages for loads. -/
inductive LoadFault : CoreFault → Prop
  | checkRob : LoadFault .checkRob
  | lqFull : LoadFault .lqFull
  | numMemOps : LoadFault .numMemOps
  | producer : LoadFault .producer
  | storeMerged : LoadFault .storeMerged

end

section
variable {cfg : CoreConfig} {s s' s'' : O3Cpu} {i : ℕ}

namespace SameButLoads

theorem refl (s : O3Cpu) : SameButLoads s s :=
  ⟨.refl s, fun _ => rfl, rfl, rfl, rfl, rfl, rfl, rfl, rfl, rfl, fun _ => rfl⟩

theorem trans (h : SameButLoads s s') (h' : SameButLoads s' s'') : SameButLoads s s'' :=
  ⟨h.ring.trans h'.ring, fun i => (h'.entry i).trans (h.entry i), h'.rte0.trans h.rte0,
    h'.rte1.trans h.rte1, h'.sta.trans h.sta, h'.uniqueId.trans h.uniqueId,
    h'.cycle.trans h.cycle, h'.sqHead.trans h.sqHead, h'.sqTail.trans h.sqTail,
    h'.sqOccupancy.trans h.sqOccupancy, fun i => (h'.sqEntry i).trans (h.sqEntry i)⟩

/-- A field that loads leave alone. -/
theorem field {β : Type*} (h : SameButLoads s s') (g : RobEntry → β)
    (hg : ∀ e, g (withoutLoads e) = g e) (i : ℕ) : g (s'.rob.entry i) = g (s.rob.entry i) := by
  rw [← hg, h.entry, hg]

/-- A step that writes neither the reorder buffer nor what loads leave alone. -/
theorem of_eq (hrob : s'.rob = s.rob) (h₀ : s'.rte0 = s.rte0) (h₁ : s'.rte1 = s.rte1)
    (hsta : s'.sta = s.sta) (hid : s'.instrUniqueId = s.instrUniqueId)
    (hc : s'.currentCoreCycle = s.currentCoreCycle) (hsq : s'.sq = s.sq) : SameButLoads s s' :=
  ⟨⟨by rw [hrob], by rw [hrob], by rw [hrob]⟩, fun _ => by rw [hrob], h₀, h₁, hsta, hid, hc,
    by rw [hsq], by rw [hsq], by rw [hsq], fun _ => by rw [hsq]⟩

theorem modifyRob {f : RobEntry → RobEntry} (h : ∀ e, withoutLoads (f e) = withoutLoads e) :
    SameButLoads s (s.modifyRob i f) := by
  refine ⟨⟨rfl, rfl, rfl⟩, fun k => ?_, rfl, rfl, rfl, rfl, rfl, rfl, rfl, rfl, fun _ => rfl⟩
  rw [entry_modifyRob]
  split
  · exact h _
  · rfl

theorem modifyLq (f : LsqEntry → LsqEntry) : SameButLoads s (s.modifyLq i f) :=
  of_eq rfl rfl rfl rfl rfl rfl rfl

theorem modifySq {f : LsqEntry → LsqEntry} (h : ∀ l, withoutProgress (f l) = withoutProgress l) :
    SameButLoads s (s.modifySq i f) := by
  refine ⟨⟨rfl, rfl, rfl⟩, fun _ => rfl, rfl, rfl, rfl, rfl, rfl, rfl, rfl, rfl, fun k => ?_⟩
  by_cases hk : k = i
  · subst hk
    simp only [O3Cpu.modifySq, Function.update_self]
    exact h _
  · simp only [O3Cpu.modifySq, Function.update_of_ne hk]

/-- A loop of steps that leave the rest alone. -/
theorem foldl {α : Type*} {f : O3Cpu → α → O3Cpu} (h : ∀ s a, SameButLoads s (f s a)) :
    ∀ (l : List α) (s : O3Cpu), SameButLoads s (l.foldl f s)
  | [], s => .refl s
  | a :: l, s => (h s a).trans (foldl h l (f s a))

/-- A loop of steps that may fail. -/
theorem foldlM {α : Type} {f : O3Cpu → α → Except CoreFault O3Cpu}
    (h : ∀ s a, Ends (f s a) (SameButLoads s) LoadFault) (l : List α) (s : O3Cpu) :
    Ends (l.foldlM f s) (SameButLoads s) LoadFault :=
  Ends.foldlM (fun s' a _ hs => (h s' a).mono (fun _ h' => hs.trans h') fun _ he => he) (.refl s)

end SameButLoads

/-! ## Loads -/

theorem finishMemOp_same (i : ℕ) (cycle : Cycle) (s : O3Cpu) :
    Ends (s.finishMemOp i cycle) (SameButLoads s) LoadFault := by
  have hmod : SameButLoads s (s.modifyRob i fun e =>
      { e with numMemOps := e.numMemOps - 1, eventCycle := cycle }) := .modifyRob fun _ => rfl
  rw [finishMemOp]
  split
  · exact .error .numMemOps
  · split
    · exact .ok (hmod.trans (.of_eq rfl rfl rfl rfl rfl rfl rfl))
    · exact .ok hmod

theorem releaseLoadQueue_same (i : ℕ) (s : O3Cpu) : SameButLoads s (s.releaseLoadQueue i) :=
  .of_eq rfl rfl rfl rfl rfl rfl rfl

theorem memRawDependency_same (prior current : ℕ) (j : Fin numInstrSources) (lqIndex : ℕ)
    (s : O3Cpu) : SameButLoads s (s.memRawDependency prior current j lqIndex) := by
  rw [memRawDependency]
  split
  · have hmod : SameButLoads s (s.modifyRob prior fun e =>
        { e with
          memoryInstrsDependOnMe := insert current e.memoryInstrsDependOnMe
          isProducer := true }) := .modifyRob fun _ => rfl
    exact hmod.trans (.modifyLq _)
  · exact .refl s

theorem memDependency_same (robIndex : ℕ) (j : Fin numInstrSources) (lqIndex : ℕ) (s : O3Cpu) :
    SameButLoads s (s.memDependency cfg robIndex j lqIndex) := by
  refine SameButLoads.foldl (fun s i => ?_) _ s
  split
  · exact memRawDependency_same ..
  · exact .refl s

theorem forwardLoad_same (sqIndex lqIndex : ℕ) (s : O3Cpu) :
    Ends (s.forwardLoad sqIndex lqIndex) (SameButLoads s) LoadFault :=
  (finishMemOp_same ..).bind fun _ hs =>
    .ok (((SameButLoads.modifyLq _).trans hs).trans (releaseLoadQueue_same ..))

theorem fillLq_same (robIndex : ℕ) (j : Fin numInstrSources) (lqIndex : ℕ) (s : O3Cpu) :
    SameButLoads s (s.fillLq cfg robIndex j lqIndex) := by
  have hmod : SameButLoads s (s.modifyRob robIndex fun e =>
      { e with lqIndex := Function.update e.lqIndex j (some lqIndex) }) := .modifyRob fun _ => rfl
  exact hmod.trans (.of_eq rfl rfl rfl rfl rfl rfl rfl)

theorem obeyWar_same (lqIndex : ℕ) (s : O3Cpu) : SameButLoads s (s.obeyWar cfg lqIndex) := by
  rw [obeyWar]
  split
  · exact .modifyLq _
  · exact .refl s

theorem tryForward_same (robIndex lqIndex : ℕ) (s : O3Cpu) :
    Ends (s.tryForward cfg robIndex lqIndex) (SameButLoads s) LoadFault := by
  rw [tryForward]
  split
  · exact .ok (.refl s)
  · split
    · exact forwardLoad_same ..
    · exact .ok (.refl s)

theorem finishLq_same (robIndex : ℕ) (j : Fin numInstrSources) (lqIndex : ℕ) (s : O3Cpu) :
    SameButLoads s (s.finishLq cfg robIndex j lqIndex) := by
  have hadd : SameButLoads s (s.modifyRob robIndex fun e =>
      { e with sourceAdded := Function.update e.sourceAdded j true }) := .modifyRob fun _ => rfl
  rw [finishLq]
  split
  · exact hadd.trans (.of_eq rfl rfl rfl rfl rfl rfl rfl)
  · exact hadd

/-- `add_load_queue` leaves the rest alone. -/
theorem addLoadQueue_same (robIndex : ℕ) (j : Fin numInstrSources) (s : O3Cpu) :
    Ends (s.addLoadQueue cfg robIndex j) (SameButLoads s) LoadFault := by
  rw [addLoadQueue]
  split
  · exact .error .lqFull
  rename_i lqIndex _
  have hfill := ((@fillLq_same cfg robIndex j lqIndex s).trans
    (@memDependency_same cfg robIndex j lqIndex _)).trans
      (@obeyWar_same cfg lqIndex _)
  exact (tryForward_same ..).bind fun s' hs =>
    .ok ((hfill.trans hs).trans (finishLq_same ..))

theorem addSource_same (robIndex : ℕ) (s : O3Cpu) (j : Fin numInstrSources) :
    Ends (s.addSource cfg robIndex j) (SameButLoads s) LoadFault := by
  rw [addSource]
  split
  · exact addLoadQueue_same ..
  · exact .ok (.refl s)

/-! ## Stores -/

/-- The checks of the stages for loads and stores. -/
def MemoryFault (e : CoreFault) : Prop := LoadFault e ∨ e = .sqTail

theorem SameButLoads.memory (h : SameButLoads s s') : SameButMemory s s' := by
  refine ⟨h.ring, fun i => ?_, h.rte0, h.rte1, h.uniqueId⟩
  rw [withoutMemory, withoutMemory, h.entry]

theorem SameButMemory.refl (s : O3Cpu) : SameButMemory s s :=
  ⟨.refl s, fun _ => rfl, rfl, rfl, rfl⟩

theorem SameButMemory.trans (h : SameButMemory s s') (h' : SameButMemory s' s'') :
    SameButMemory s s'' :=
  ⟨h.ring.trans h'.ring, fun i => (h'.entry i).trans (h.entry i), h'.rte0.trans h.rte0,
    h'.rte1.trans h.rte1, h'.uniqueId.trans h.uniqueId⟩

/-- A field that adding loads and stores leaves alone. -/
theorem SameButMemory.field {β : Type*} (h : SameButMemory s s') (g : RobEntry → β)
    (hg : ∀ e, g (withoutMemory e) = g e) (i : ℕ) : g (s'.rob.entry i) = g (s.rob.entry i) := by
  rw [← hg, h.entry, hg]

theorem addStoreQueue_same (robIndex : ℕ) (d : Fin numInstrDestinationsSparc) (s : O3Cpu) :
    Ends (s.addStoreQueue cfg robIndex d) (SameButMemory s) MemoryFault := by
  rw [addStoreQueue]
  simp only
  split
  · exact .error (.inr rfl)
  · refine .ok ⟨⟨rfl, rfl, rfl⟩, fun k => ?_, rfl, rfl, rfl⟩
    simp only [modifyRob, modifySq]
    by_cases hk : k = robIndex
    · subst hk
      rw [Function.update_self]
      rfl
    · rw [Function.update_of_ne hk]

theorem addDestination_same (robIndex : ℕ) (s : O3Cpu) (d : Fin numInstrDestinationsSparc) :
    Ends (s.addDestination cfg robIndex d) (SameButMemory s) MemoryFault := by
  rw [addDestination]
  split
  · exact addStoreQueue_same ..
  · exact .ok (.refl s)

/-- `check_and_add_lsq` leaves the rest alone. -/
theorem checkAndAddLsq_same (robIndex : ℕ) (s : O3Cpu) :
    Ends (s.checkAndAddLsq cfg robIndex) (SameButMemory s) MemoryFault := by
  have hloads : Ends ((List.finRange numInstrSources).foldlM (addSource cfg robIndex) s)
      (SameButMemory s) MemoryFault :=
    (SameButLoads.foldlM (fun s j => addSource_same robIndex s j) _ s).mono
      (fun _ h => h.memory) fun _ he => .inl he
  refine hloads.bind fun s' hs => ?_
  exact Ends.foldlM (fun t d _ ht =>
    (addDestination_same robIndex t d).mono (fun _ h => ht.trans h) fun _ he => he) hs

/-! ## `operate_lsq` -/

theorem forwardTo_same (sqIndex dependent : ℕ) (s : O3Cpu) (j : Fin numInstrSources) :
    Ends (s.forwardTo sqIndex dependent j) (SameButLoads s) LoadFault := by
  rw [forwardTo]
  split
  · split
    · exact .error .producer
    · split
      · exact .error .producer
      · exact (forwardLoad_same ..).mono (fun _ h => (SameButLoads.modifyLq _).trans h)
          fun _ he => he
  · exact .ok (.refl s)

/-- `execute_store` leaves the rest alone. -/
theorem executeStore_same (robIndex sqIndex : ℕ) (s : O3Cpu) :
    Ends (s.executeStore cfg robIndex sqIndex) (SameButLoads s) LoadFault := by
  have hsq : SameButLoads s (s.modifySq sqIndex fun l =>
      { l with fetched := .completed, eventCycle := s.currentCoreCycle }) := .modifySq fun _ => rfl
  refine (finishMemOp_same ..).bind fun s' hs => ?_
  have hs' := hsq.trans hs
  split
  · refine (SameButLoads.foldlM (fun t i => ?_) _ s').mono (fun _ h => hs'.trans h) fun _ he => he
    exact SameButLoads.foldlM (fun t j => forwardTo_same sqIndex i t j) _ t
  · exact .ok hs'

theorem issueStores_same (k issued accepts : ℕ) (s : O3Cpu) :
    SameButLoads s (s.issueStores cfg k issued accepts).1 := by
  induction k generalizing s issued accepts with
  | zero => exact .refl s
  | succ k ih =>
    rw [issueStores]
    split
    · exact .refl s
    split
    · exact .refl s
    rename_i i _
    split
    · cases accepts with
      | zero => exact .refl s
      | succ a =>
        have hsq : SameButLoads s (s.modifySq i fun l => { l with translated := .inflight }) :=
          .modifySq fun _ => rfl
        have hsend : SameButLoads s (s.sendStore cfg i) :=
          hsq.trans (.of_eq rfl rfl rfl rfl rfl rfl rfl)
        exact hsend.trans (ih (issued + 1) a (s.sendStore cfg i))
    · exact ih ..

theorem executeStores_same (k issued : ℕ) (s : O3Cpu) :
    Ends (s.executeStores cfg k issued) (SameButLoads s) LoadFault := by
  induction k generalizing s issued with
  | zero => exact .ok (.refl s)
  | succ k ih =>
    rw [executeStores]
    split
    · exact .ok (.refl s)
    split
    · exact .ok (.refl s)
    split
    · refine (executeStore_same ..).bind fun s' hs => ?_
      have hpop : SameButLoads s' { s' with rts1 := s'.rts1.pop cfg.sqSize } :=
        .of_eq rfl rfl rfl rfl rfl rfl rfl
      exact (ih ..).mono (fun _ h => (hs.trans hpop).trans h) fun _ he => he
    · exact ih ..

theorem issueLoads_same (k issued accepts : ℕ) (s : O3Cpu) :
    SameButLoads s (s.issueLoads cfg k issued accepts).1 := by
  induction k generalizing s issued accepts with
  | zero => exact .refl s
  | succ k ih =>
    rw [issueLoads]
    split
    · exact .refl s
    split
    · exact .refl s
    rename_i i _
    split
    · cases accepts with
      | zero => exact .refl s
      | succ a =>
        have hsend : SameButLoads s (s.sendLoad cfg i) := .of_eq rfl rfl rfl rfl rfl rfl rfl
        exact hsend.trans (ih (issued + 1) a (s.sendLoad cfg i))
    · exact ih ..

theorem executeLoads_same (k issued accepts : ℕ) (s : O3Cpu) :
    SameButLoads s (s.executeLoads cfg k issued accepts).1 := by
  induction k generalizing s issued accepts with
  | zero => exact .refl s
  | succ k ih =>
    rw [executeLoads]
    split
    · exact .refl s
    split
    · exact .refl s
    rename_i i _
    split
    · cases accepts with
      | zero => exact ih ..
      | succ a =>
        have hsend : SameButLoads s (s.executeLoad cfg i) := .of_eq rfl rfl rfl rfl rfl rfl rfl
        exact hsend.trans (ih (issued + 1) a (s.executeLoad cfg i))
    · exact ih ..

/-- `operate_lsq` leaves the rest alone. -/
theorem operateLsq_same (dtlbStores dtlbLoads l1dLoads : ℕ) (s : O3Cpu) :
    Ends (s.operateLsq cfg dtlbStores dtlbLoads l1dLoads) (fun r => SameButLoads s r.1)
      LoadFault := by
  have hissue := @issueStores_same cfg (lsqTurns cfg.sqSize) 0 dtlbStores s
  refine (executeStores_same ..).bind fun s' hs => .ok ?_
  exact (hissue.trans hs).trans ((issueLoads_same ..).trans (executeLoads_same ..))

/-! ## Answers -/

theorem translateStore_same (dataPa : UInt64) (i : ℕ) (s : O3Cpu) :
    SameButLoads s (s.translateStore cfg dataPa i) := by
  have hsq : SameButLoads s (s.modifySq i fun l =>
      { l with
        physicalAddress := withOffset log2PageSize (dataPa <<< log2PageSize) l.virtualAddress
        translated := .completed
        eventCycle := s.currentCoreCycle }) := .modifySq fun _ => rfl
  exact hsq.trans (.of_eq rfl rfl rfl rfl rfl rfl rfl)

theorem translateLoad_same (dataPa : UInt64) (i : ℕ) (s : O3Cpu) :
    SameButLoads s (s.translateLoad cfg dataPa i) := .of_eq rfl rfl rfl rfl rfl rfl rfl

theorem handleMergedTranslation_same (p : DataPacket) (s : O3Cpu) :
    SameButLoads s (s.handleMergedTranslation cfg p) := by
  have hstores : SameButLoads s (s.translateMergedStores cfg p) := by
    rw [translateMergedStores]
    split
    · exact SameButLoads.foldl (fun s i => translateStore_same p.dataPa i s) _ s
    · exact .refl s
  refine hstores.trans ?_
  rw [handleMergedTranslation, translateMergedLoads]
  split
  · exact SameButLoads.foldl (fun s i => translateLoad_same p.dataPa i s) _ _
  · exact .refl _

theorem finishLoad_same (i robIndex : ℕ) (cycle : Cycle) (s : O3Cpu) :
    Ends (s.finishLoad i robIndex cycle) (SameButLoads s) LoadFault :=
  (finishMemOp_same ..).bind fun _ hs =>
    .ok (((SameButLoads.modifyLq _).trans hs).trans (releaseLoadQueue_same ..))

theorem handleMergedLoad_same (p : DataPacket) (s : O3Cpu) :
    Ends (s.handleMergedLoad cfg p) (SameButLoads s) LoadFault :=
  SameButLoads.foldlM (fun _ _ => finishLoad_same ..) _ s

/-- `complete_data_fetch` leaves the rest alone. -/
theorem completeDataFetch_same (isItTlb : Bool) (p : DataPacket) (s : O3Cpu) :
    Ends (s.completeDataFetch cfg isItTlb p) (SameButLoads s) LoadFault := by
  rw [completeDataFetch]
  split
  · exact .error .checkRob
  split
  · have htranslate : SameButLoads s (if p.type = .rfo then s.translateStore cfg p.dataPa p.sqIndex
        else s.translateLoad cfg p.dataPa p.lqIndex) := by
      split
      · exact translateStore_same ..
      · exact translateLoad_same ..
    exact .ok ((htranslate.trans (handleMergedTranslation_same ..)).trans
      (.modifyRob fun _ => rfl))
  · split
    · exact handleMergedLoad_same ..
    · split
      · exact .error .storeMerged
      · refine (finishLoad_same ..).bind fun s' hs => ?_
        exact (handleMergedLoad_same ..).mono (fun _ h => hs.trans h) fun _ he => he

end

end O3Cpu

end Arishem
