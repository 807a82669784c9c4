import Arishem.Core.MemoryFrames
import Arishem.Core.Rotation

/-!
# Memory scheduling and the start of the ring

`schedule_memory_instruction` visits the ring from the head up to `next_schedule` and stops at a
memory instruction that is blocked. In a ring that wraps there are two loops, and stopping the first
one does not stop the second: the younger instructions at the start of the array are scheduled
although an older one is blocked.
-/

namespace Arishem

namespace O3Cpu

section
variable (cfg : CoreConfig)

/-! ## What has to be scheduled -/

/-- What the memory scheduler reads of an instruction. -/
def memoryStage (e : RobEntry) : Bool × Progress × Cycle × Bool × Progress :=
  (e.isMemory, e.fetched, e.eventCycle, e.regReady, e.scheduled)

/-- A memory instruction that is not fetched, or whose event lies in the future. -/
def blocked (s : O3Cpu) (e : RobEntry) : Bool := e.isMemory && !s.ready e

/-- A memory instruction whose registers are ready and that waits for its operands. -/
def offered (e : RobEntry) : Bool := e.isMemory && e.regReady && e.scheduled = .inflight

/-- Of the slots in a list, the ones to schedule: those before the first blocked instruction that
hold an offered one. -/
def offers (s : O3Cpu) (is : List ℕ) : List ℕ :=
  (is.takeWhile fun i => !s.blocked (s.rob.entry i)).filter fun i => offered (s.rob.entry i)

/-- The number of instructions from the head to `next_schedule`. -/
def memorySpan (s : O3Cpu) : ℕ :=
  if s.rob.head = s.rob.tail ∧ s.rob.occupancy = 0 then 0
  else Ring.span cfg.robSize s.rob.head s.rob.nextSchedule

/-- The places that have to be scheduled, in program order: the offered instructions before the first
blocked one, up to `SCHEDULER_SIZE` of them. -/
def memoryToSchedule (s : O3Cpu) : List ℕ :=
  (((List.range (s.memorySpan cfg)).takeWhile fun k => !s.blocked (s.instruction cfg k)).filter
    fun k => offered (s.instruction cfg k)).take cfg.schedulerSize

/-- A blocked instruction stops the scheduler for good: the ring does not wrap, no memory instruction
before the end of the array is blocked, or the slots at the start of the array have nothing to
schedule, as the limit is reached before or as they begin with a blocked instruction. -/
def StopsForGood (s : O3Cpu) : Prop :=
  s.memorySpan cfg = 0 ∨ s.rob.head < s.rob.nextSchedule ∨
    (∀ i, s.rob.head ≤ i → i < cfg.robSize → s.blocked (s.rob.entry i) = false) ∨
    cfg.schedulerSize ≤
      (s.offers (List.range' s.rob.head (cfg.robSize - s.rob.head))).length ∨
    ∀ i < s.rob.nextSchedule, offered (s.rob.entry i) = true →
      ∃ j ≤ i, s.blocked (s.rob.entry j) = true

/-- The ends of the scan are slots of the array. -/
structure ScanOk (s : O3Cpu) : Prop where
  head_lt : s.rob.head < cfg.robSize
  nextSchedule_le : s.rob.nextSchedule ≤ cfg.robSize

/-- The two reorder buffers hold the same instructions from the head to `next_schedule`, as far as
the memory scheduler looks at them. -/
structure SameMemoryInstructions (s s' : O3Cpu) : Prop where
  span : s'.memorySpan cfg = s.memorySpan cfg
  cycle : s'.currentCoreCycle = s.currentCoreCycle
  stage : ∀ k, k < s.memorySpan cfg →
    memoryStage (s'.instruction cfg k) = memoryStage (s.instruction cfg k)

/-! ## The calls of the scheduler -/

/-- A loop of `schedule_memory_instruction`, with the calls of `do_memory_scheduling` it makes. -/
def memoryCallsFrom : List ℕ → O3Cpu → Except CoreFault (O3Cpu × List ℕ)
  | [], s => .ok (s, [])
  | i :: is, s =>
    if (s.rob.entry i).isMemory = false then memoryCallsFrom is s
    else if s.stopsAt cfg i then .ok (s, [])
    else if (s.rob.entry i).regReady = true ∧ (s.rob.entry i).scheduled = .inflight then do
      let s ← s.doMemoryScheduling cfg i
      let r ← memoryCallsFrom is s
      .ok (r.1, i :: r.2)
    else memoryCallsFrom is s

/-- `schedule_memory_instruction`, with the calls of `do_memory_scheduling` it makes. -/
def memoryCalls (s : O3Cpu) : Except CoreFault (O3Cpu × List ℕ) :=
  if s.rob.head = s.rob.tail ∧ s.rob.occupancy = 0 then .ok (s, [])
  else
    let limit := s.rob.nextSchedule
    let s := { s with numSearched := 0 }
    if s.rob.head < limit then
      s.memoryCallsFrom cfg (List.range' s.rob.head (limit - s.rob.head))
    else do
      let r ← s.memoryCallsFrom cfg (List.range' s.rob.head (cfg.robSize - s.rob.head))
      let r' ← r.1.memoryCallsFrom cfg (List.range limit)
      .ok (r'.1, r.2 ++ r'.2)

end

section
variable {cfg : CoreConfig} {s s' s'' : O3Cpu} {i : ℕ} {r r' : O3Cpu × List ℕ}

theorem memoryCallsFrom_fst (is : List ℕ) (s : O3Cpu) :
    (s.memoryCallsFrom cfg is).map Prod.fst = s.scheduleMemoryFrom cfg is := by
  induction is generalizing s with
  | nil => rfl
  | cons i is ih =>
    rw [memoryCallsFrom, scheduleMemoryFrom]
    split
    · exact ih s
    split
    · rfl
    split
    · cases hdo : s.doMemoryScheduling cfg i with
      | error e => rfl
      | ok s₁ =>
        show (memoryCallsFrom cfg is s₁ >>= fun r => .ok (r.1, i :: r.2)).map Prod.fst =
          s₁.scheduleMemoryFrom cfg is
        rw [← ih s₁]
        cases memoryCallsFrom cfg is s₁ <;> rfl
    · exact ih s

/-- Recording the calls changes nothing else. -/
theorem memoryCalls_fst (s : O3Cpu) :
    (s.memoryCalls cfg).map Prod.fst = s.scheduleMemoryInstruction cfg := by
  rw [memoryCalls, scheduleMemoryInstruction]
  split
  · rfl
  simp only
  split
  · exact memoryCallsFrom_fst _ _
  · rw [← memoryCallsFrom_fst]
    cases hr : memoryCallsFrom cfg _ { s with numSearched := 0 } with
    | error e => rfl
    | ok r =>
      show (memoryCallsFrom cfg (List.range s.rob.nextSchedule) r.1 >>= fun r' =>
        .ok (r'.1, r.2 ++ r'.2)).map Prod.fst = scheduleMemoryFrom cfg _ r.1
      rw [← memoryCallsFrom_fst]
      cases memoryCallsFrom cfg (List.range s.rob.nextSchedule) r.1 <;> rfl

/-! ## What one call leaves alone -/

/-- The stages of all instructions but one, the cycle and the number of searched instructions are the
same. -/
structure SameOthers (i : ℕ) (s s' : O3Cpu) : Prop where
  stage : ∀ j, j ≠ i → memoryStage (s'.rob.entry j) = memoryStage (s.rob.entry j)
  cycle : s'.currentCoreCycle = s.currentCoreCycle
  numSearched : s'.numSearched = s.numSearched

namespace SameOthers

theorem refl (i : ℕ) (s : O3Cpu) : SameOthers i s s := ⟨fun _ _ => rfl, rfl, rfl⟩

theorem trans (h : SameOthers i s s') (h' : SameOthers i s' s'') : SameOthers i s s'' :=
  ⟨fun j hj => (h'.stage j hj).trans (h.stage j hj), h'.cycle.trans h.cycle,
    h'.numSearched.trans h.numSearched⟩

theorem of_eq (hrob : s'.rob = s.rob) (hc : s'.currentCoreCycle = s.currentCoreCycle)
    (hn : s'.numSearched = s.numSearched) : SameOthers i s s' :=
  ⟨fun j _ => by rw [hrob], hc, hn⟩

/-- A write to the instruction. -/
theorem modifyRob_self (f : RobEntry → RobEntry) : SameOthers i s (s.modifyRob i f) := by
  refine ⟨fun j hj => ?_, rfl, rfl⟩
  rw [entry_modifyRob_of_ne hj]

/-- A write to an instruction that leaves its stages alone. -/
theorem modifyRob {f : RobEntry → RobEntry} (p : ℕ) (h : ∀ e, memoryStage (f e) = memoryStage e) :
    SameOthers i s (s.modifyRob p f) := by
  refine ⟨fun j _ => ?_, rfl, rfl⟩
  rw [entry_modifyRob]
  split
  · exact h _
  · rfl

end SameOthers

theorem finishMemOp_others (cycle : Cycle) (s : O3Cpu) :
    Ends (s.finishMemOp i cycle) (SameOthers i s) fun _ => True := by
  have hmod := SameOthers.modifyRob_self (i := i) (s := s) fun e =>
    { e with numMemOps := e.numMemOps - 1, eventCycle := cycle }
  rw [finishMemOp]
  split
  · exact .error trivial
  · split
    · exact .ok (hmod.trans (.of_eq rfl rfl rfl))
    · exact .ok hmod

theorem memRawDependency_others (p : ℕ) (j : Fin numInstrSources) (lqIndex : ℕ) (s : O3Cpu) :
    SameOthers i s (s.memRawDependency p i j lqIndex) := by
  rw [memRawDependency]
  split
  · have hmod : SameOthers i s (s.modifyRob p fun e =>
        { e with
          memoryInstrsDependOnMe := insert i e.memoryInstrsDependOnMe
          isProducer := true }) := .modifyRob p fun _ => rfl
    exact hmod.trans (.of_eq rfl rfl rfl)
  · exact .refl i s

/-- The instruction of a load in the queue. -/
theorem robIndex_memRawDependency (p : ℕ) (j : Fin numInstrSources) (lqIndex : ℕ) (s : O3Cpu) :
    ((s.memRawDependency p i j lqIndex).lq.entry lqIndex).robIndex =
      (s.lq.entry lqIndex).robIndex := by
  rw [memRawDependency]
  split
  · simp only [modifyLq, Function.update_self]
    rfl
  · rfl

/-- Looking for the producer of a load leaves the other instructions and the place of the load
alone. -/
theorem memDependency_others (j : Fin numInstrSources) (lqIndex : ℕ) (s : O3Cpu) :
    SameOthers i s (s.memDependency cfg i j lqIndex) ∧
      ((s.memDependency cfg i j lqIndex).lq.entry lqIndex).robIndex =
        (s.lq.entry lqIndex).robIndex := by
  rw [memDependency]
  generalize s.priors cfg i = ps
  induction ps generalizing s with
  | nil => exact ⟨.refl i s, rfl⟩
  | cons p ps ih =>
    rw [List.foldl_cons]
    split
    · obtain ⟨hsame, hrob⟩ := ih (s.memRawDependency p i j lqIndex)
      exact ⟨(memRawDependency_others p j lqIndex s).trans hsame,
        hrob.trans (robIndex_memRawDependency p j lqIndex s)⟩
    · exact ih s

theorem fillLq_others (j : Fin numInstrSources) (lqIndex : ℕ) (s : O3Cpu) :
    SameOthers i s (s.fillLq cfg i j lqIndex) ∧
      ((s.fillLq cfg i j lqIndex).lq.entry lqIndex).robIndex = i := by
  have hmod := SameOthers.modifyRob_self (i := i) (s := s) fun e =>
    { e with lqIndex := Function.update e.lqIndex j (some lqIndex) }
  refine ⟨hmod.trans (.of_eq rfl rfl rfl), ?_⟩
  simp only [fillLq, modifyLq, Function.update_self]

theorem obeyWar_others (lqIndex : ℕ) (s : O3Cpu) :
    SameOthers i s (s.obeyWar cfg lqIndex) ∧
      ((s.obeyWar cfg lqIndex).lq.entry lqIndex).robIndex = (s.lq.entry lqIndex).robIndex := by
  rw [obeyWar]
  split
  · refine ⟨.of_eq rfl rfl rfl, ?_⟩
    simp only [modifyLq, Function.update_self]
  · exact ⟨.refl i s, rfl⟩

/-- A load that is forwarded finishes an operand of its own instruction. -/
theorem tryForward_others {lqIndex : ℕ} (h : (s.lq.entry lqIndex).robIndex = i) :
    Ends (s.tryForward cfg i lqIndex) (SameOthers i s) fun _ => True := by
  rw [tryForward]
  split
  · exact .ok (.refl i s)
  split
  · rw [forwardLoad]
    simp only [modifyLq, Function.update_self, h]
    refine (finishMemOp_others _ _).bind fun s' hs => .ok ?_
    exact ⟨hs.stage, hs.cycle, hs.numSearched⟩
  · exact .ok (.refl i s)

theorem finishLq_others (j : Fin numInstrSources) (lqIndex : ℕ) (s : O3Cpu) :
    SameOthers i s (s.finishLq cfg i j lqIndex) := by
  have hadd := SameOthers.modifyRob_self (i := i) (s := s) fun e =>
    { e with sourceAdded := Function.update e.sourceAdded j true }
  rw [finishLq]
  split
  · exact hadd.trans (.of_eq rfl rfl rfl)
  · exact hadd

theorem addSource_others (j : Fin numInstrSources) (s : O3Cpu) :
    Ends (s.addSource cfg i j) (SameOthers i s) fun _ => True := by
  rw [addSource]
  split
  · rw [addLoadQueue]
    split
    · exact .error trivial
    · rename_i lqIndex _
      obtain ⟨hfill, hrob⟩ := @fillLq_others cfg i j lqIndex s
      obtain ⟨hdep, hrob'⟩ := @memDependency_others cfg i j lqIndex (s.fillLq cfg i j lqIndex)
      obtain ⟨hwar, hrob''⟩ := @obeyWar_others cfg i lqIndex
        ((s.fillLq cfg i j lqIndex).memDependency cfg i j lqIndex)
      have hlq := hrob''.trans (hrob'.trans hrob)
      refine (tryForward_others hlq).bind fun s' hs => .ok ?_
      exact (((hfill.trans hdep).trans hwar).trans hs).trans (finishLq_others j lqIndex s')
  · exact .ok (.refl i s)

theorem addDestination_others (d : Fin numInstrDestinationsSparc) (s : O3Cpu) :
    Ends (s.addDestination cfg i d) (SameOthers i s) fun _ => True := by
  rw [addDestination]
  split
  · rw [addStoreQueue]
    simp only
    split
    · exact .error trivial
    · refine .ok ⟨fun k hk => ?_, rfl, rfl⟩
      simp only [O3Cpu.modifyRob, O3Cpu.modifySq, Function.update_of_ne hk]
  · exact .ok (.refl i s)

/-- `do_memory_scheduling` changes the stages of one instruction and counts it. -/
theorem doMemoryScheduling_others (s : O3Cpu) :
    Ends (s.doMemoryScheduling cfg i)
      (fun s' => SameOthers i { s with numSearched := s.numSearched + 1 } s') fun _ => True := by
  have hloads : Ends ((List.finRange numInstrSources).foldlM (addSource cfg i) s)
      (SameOthers i s) fun _ => True :=
    Ends.foldlM (fun t j _ ht => (addSource_others j t).mono (fun _ h => ht.trans h)
      fun _ he => he) (.refl i s)
  have hadd : Ends (s.checkAndAddLsq cfg i) (SameOthers i s) fun _ => True :=
    hloads.bind fun s' hs => Ends.foldlM (fun t d _ ht =>
      (addDestination_others d t).mono (fun _ h => ht.trans h) fun _ he => he) hs
  refine hadd.bind fun s' hs => .ok ?_
  have hmark : SameOthers i s (if s'.allAdded i then s'.markScheduled i else s') := by
    split
    · exact hs.trans (.modifyRob_self _)
    · exact hs
  exact ⟨hmark.stage, hmark.cycle, congrArg (· + 1) hmark.numSearched⟩

/-! ## What the loops call -/

@[simp] theorem offers_nil (s : O3Cpu) : s.offers [] = [] := rfl

theorem offers_cons (i : ℕ) (is : List ℕ) : s.offers (i :: is) =
    if s.blocked (s.rob.entry i) then []
    else if offered (s.rob.entry i) then i :: s.offers is
    else s.offers is := by
  rw [offers, List.takeWhile_cons]
  cases s.blocked (s.rob.entry i) with
  | true => rfl
  | false => simp only [Bool.not_false, if_true, List.filter_cons, offers, Bool.false_eq_true,
      if_false]

/-- The slots of two lists, one after the other. -/
theorem offers_append (is js : List ℕ) : s.offers (is ++ js) =
    if ∀ i ∈ is, s.blocked (s.rob.entry i) = false then s.offers is ++ s.offers js
    else s.offers is := by
  induction is with
  | nil => simp
  | cons i is ih =>
    rw [List.cons_append, offers_cons, offers_cons, ih]
    cases hb : s.blocked (s.rob.entry i) with
    | true => simp [hb]
    | false =>
      simp only [Bool.false_eq_true, if_false, List.forall_mem_cons, hb, true_and]
      split <;> split <;> rfl

theorem blocked_congr {e e' : RobEntry} (h : memoryStage e' = memoryStage e)
    (hc : s'.currentCoreCycle = s.currentCoreCycle) : s'.blocked e' = s.blocked e := by
  simp only [memoryStage, Prod.mk.injEq] at h
  obtain ⟨h₁, h₂, h₃, -, -⟩ := h
  rw [blocked, blocked, ready, ready, h₁, h₂, h₃, hc]

theorem offered_congr {e e' : RobEntry} (h : memoryStage e' = memoryStage e) :
    offered e' = offered e := by
  simp only [memoryStage, Prod.mk.injEq] at h
  obtain ⟨h₁, -, -, h₄, h₅⟩ := h
  rw [offered, offered, h₁, h₄, h₅]

theorem offers_congr {is : List ℕ}
    (h : ∀ j ∈ is, memoryStage (s'.rob.entry j) = memoryStage (s.rob.entry j))
    (hc : s'.currentCoreCycle = s.currentCoreCycle) : s'.offers is = s.offers is := by
  rw [offers, offers, takeWhile_congr_mem fun j hj =>
    congrArg (! ·) (blocked_congr (h j hj) hc)]
  refine List.filter_congr fun j hj => ?_
  exact offered_congr (h j ((List.takeWhile_sublist _).subset hj))

/-- The slots from the start of the array have nothing to schedule when each offered instruction
comes after a blocked one. -/
theorem offers_range_eq_nil (n : ℕ) : s.offers (List.range n) = [] ↔
    ∀ i < n, offered (s.rob.entry i) = true → ∃ j ≤ i, s.blocked (s.rob.entry j) = true := by
  induction n with
  | zero => simp
  | succ n ih =>
    rw [List.range_succ, offers_append]
    have hlast : (∀ i < n + 1, offered (s.rob.entry i) = true →
        ∃ j ≤ i, s.blocked (s.rob.entry j) = true) ↔
          (∀ i < n, offered (s.rob.entry i) = true →
            ∃ j ≤ i, s.blocked (s.rob.entry j) = true) ∧
          (offered (s.rob.entry n) = true → ∃ j ≤ n, s.blocked (s.rob.entry j) = true) := by
      simp only [Nat.lt_succ_iff_lt_or_eq]
      constructor
      · exact fun h => ⟨fun i hi => h i (.inl hi), h n (.inr rfl)⟩
      · rintro ⟨h, h'⟩ i (hi | rfl)
        · exact h i hi
        · exact h'
    rw [hlast, ← ih]
    by_cases hall : ∀ i ∈ List.range n, s.blocked (s.rob.entry i) = false
    · -- before the last slot nothing is blocked
      have hone : (∃ j ≤ n, s.blocked (s.rob.entry j) = true) ↔
          s.blocked (s.rob.entry n) = true := by
        constructor
        · rintro ⟨j, hj, hb⟩
          rcases hj.lt_or_eq with hlt | rfl
          · exact absurd (hall j (List.mem_range.2 hlt)) (by simp [hb])
          · exact hb
        · exact fun hb => ⟨n, le_rfl, hb⟩
      rw [if_pos hall, List.append_eq_nil_iff, hone, offers_cons]
      refine and_congr_right fun _ => ?_
      cases s.blocked (s.rob.entry n) <;> cases offered (s.rob.entry n) <;> simp
    · rw [if_neg hall]
      simp only [not_forall, List.mem_range, Bool.not_eq_false] at hall
      obtain ⟨j, hj, hb⟩ := hall
      exact (and_iff_left fun _ => ⟨j, hj.le, hb⟩).symm

/-- What a loop of the scheduler leaves: it has called the offered slots before the first blocked
instruction, up to the limit, and written no instruction outside its slots. -/
structure Called (cfg : CoreConfig) (is : List ℕ) (s : O3Cpu) (r : O3Cpu × List ℕ) : Prop where
  calls : r.2 = (s.offers is).take (cfg.schedulerSize - s.numSearched)
  stage : ∀ j, j ∉ is → memoryStage (r.1.rob.entry j) = memoryStage (s.rob.entry j)
  cycle : r.1.currentCoreCycle = s.currentCoreCycle
  numSearched : r.1.numSearched = s.numSearched + r.2.length

theorem called_of_ok (is : List ℕ) (hn : is.Nodup) (s : O3Cpu)
    (h : s.memoryCallsFrom cfg is = .ok r) : Called cfg is s r := by
  induction is generalizing s r with
  | nil =>
    obtain rfl := Except.ok.inj h
    exact ⟨by simp, fun _ _ => rfl, rfl, rfl⟩
  | cons i is ih =>
    obtain ⟨hi, hn⟩ := List.nodup_cons.1 hn
    have hskip : ∀ {r}, s.memoryCallsFrom cfg is = .ok r →
        s.blocked (s.rob.entry i) = false → offered (s.rob.entry i) = false →
          Called cfg (i :: is) s r := by
      intro r hr hb ho
      obtain ⟨hcalls, hstage, hcycle, hnum⟩ := ih hn s hr
      refine ⟨?_, fun j hj => hstage j (List.not_mem_of_not_mem_cons hj), hcycle, hnum⟩
      rw [offers_cons, hb, ho, hcalls]
      rfl
    rw [memoryCallsFrom] at h
    split at h
    · rename_i hmem
      exact hskip h (by simp [blocked, hmem]) (by simp [offered, hmem])
    rename_i hmem
    rw [Bool.not_eq_false] at hmem
    split at h
    · -- the loop ends here
      rename_i hstop
      obtain rfl := Except.ok.inj h
      refine ⟨?_, fun _ _ => rfl, rfl, rfl⟩
      rcases stopsAt_iff.1 hstop with hready | hsize
      · simp [offers_cons, blocked, hmem, hready]
      · simp [Nat.sub_eq_zero_of_le hsize]
    rename_i hstop
    rw [stopsAt_iff, not_or, Bool.not_eq_false, not_le] at hstop
    obtain ⟨hready, hsize⟩ := hstop
    have hb : s.blocked (s.rob.entry i) = false := by simp [blocked, hready]
    split at h
    · rename_i hoff
      have ho : offered (s.rob.entry i) = true := by simp [offered, hmem, hoff]
      cases hdo : s.doMemoryScheduling cfg i with
      | error e =>
        rw [hdo] at h
        cases h
      | ok s₁ =>
        rw [hdo] at h
        cases hrest : s₁.memoryCallsFrom cfg is with
        | error e =>
          simp only [bind, Except.bind, hrest] at h
          cases h
        | ok r₁ =>
          simp only [bind, Except.bind, hrest] at h
          obtain rfl := Except.ok.inj h
          obtain ⟨hstage₁, hcycle₁, hnum₁⟩ := (doMemoryScheduling_others s).of_ok hdo
          obtain ⟨hcalls, hstage, hcycle, hnum⟩ := ih hn s₁ hrest
          have hne : ∀ j ∈ is, j ≠ i := by
            rintro j hj rfl
            exact hi hj
          have hoffers : s₁.offers is = s.offers is :=
            offers_congr (fun j hj => hstage₁ j (hne j hj)) hcycle₁
          have hnum₁ : s₁.numSearched = s.numSearched + 1 := hnum₁
          refine ⟨?_, fun j hj => ?_, hcycle.trans hcycle₁, ?_⟩
          · obtain ⟨n, hsize⟩ : ∃ n, cfg.schedulerSize - s.numSearched = n + 1 :=
              ⟨cfg.schedulerSize - (s.numSearched + 1), by omega⟩
            have hn' : cfg.schedulerSize - (s.numSearched + 1) = n := by omega
            rw [offers_cons, hb, ho, hsize]
            simp only [Bool.false_eq_true, if_false, if_true, List.take_succ_cons]
            rw [hcalls, hoffers, hnum₁, hn']
          · obtain ⟨hj, hj'⟩ := List.ne_and_not_mem_of_not_mem_cons hj
            exact (hstage j hj').trans (hstage₁ j hj)
          · simp only [hnum, hnum₁, List.length_cons]
            omega
    · rename_i hoff
      refine hskip h hb ?_
      cases hro : (s.rob.entry i).regReady with
      | false => simp [offered, hro]
      | true =>
        have hs : (s.rob.entry i).scheduled ≠ .inflight := fun hs => hoff ⟨hro, hs⟩
        simp [offered, hs]

/-! ## The rotation -/

/-- The slots of the places to schedule. -/
theorem map_memoryToSchedule (h : ScanOk cfg s)
    (hne : ¬(s.rob.head = s.rob.tail ∧ s.rob.occupancy = 0)) :
    (s.memoryToSchedule cfg).map (Ring.index cfg.robSize s.rob.head) =
      (s.offers (Ring.scan cfg.robSize s.rob.head s.rob.nextSchedule)).take
        cfg.schedulerSize := by
  rw [Ring.scan_eq h.head_lt h.nextSchedule_le, offers, List.takeWhile_map, List.filter_map,
    memoryToSchedule, memorySpan, if_neg hne, List.map_take]
  rfl

/-- In a ring that does not wrap the scheduler stops where it has to. -/
theorem memoryCalls_plain (h : ScanOk cfg s) (hr : s.memoryCalls cfg = .ok r)
    (hne : ¬(s.rob.head = s.rob.tail ∧ s.rob.occupancy = 0))
    (hplain : s.rob.head < s.rob.nextSchedule) :
    r.2 = (s.memoryToSchedule cfg).map (Ring.index cfg.robSize s.rob.head) := by
  rw [memoryCalls, if_neg hne] at hr
  simp only [if_pos hplain] at hr
  have hcalls := (called_of_ok _ (List.nodup_range' 1) _ hr).calls
  rw [map_memoryToSchedule h hne, Ring.scan, if_pos hplain, hcalls]
  rfl

/-- In a ring that wraps the two loops stop each for itself. -/
theorem memoryCalls_wrapped (hr : s.memoryCalls cfg = .ok r)
    (hne : ¬(s.rob.head = s.rob.tail ∧ s.rob.occupancy = 0))
    (hwrap : ¬ s.rob.head < s.rob.nextSchedule) :
    r.2 = (s.offers (List.range' s.rob.head (cfg.robSize - s.rob.head))).take cfg.schedulerSize ++
      (s.offers (List.range s.rob.nextSchedule)).take (cfg.schedulerSize -
        (s.offers (List.range' s.rob.head (cfg.robSize - s.rob.head))).length) := by
  rw [memoryCalls, if_neg hne] at hr
  simp only [if_neg hwrap] at hr
  cases hupper : memoryCallsFrom cfg (List.range' s.rob.head (cfg.robSize - s.rob.head))
      { s with numSearched := 0 } with
  | error e =>
    rw [hupper] at hr
    cases hr
  | ok u =>
    cases hlower : u.1.memoryCallsFrom cfg (List.range s.rob.nextSchedule) with
    | error e =>
      simp only [hupper, bind, Except.bind, hlower] at hr
      cases hr
    | ok l =>
      simp only [hupper, bind, Except.bind, hlower] at hr
      obtain rfl := Except.ok.inj hr
      obtain ⟨hcalls, hstage, hcycle, hnum⟩ := called_of_ok _ (List.nodup_range' 1) _ hupper
      obtain ⟨hcalls', -, -, -⟩ := called_of_ok _ List.nodup_range _ hlower
      -- the slots at the start of the array are as before
      have hoffers : u.1.offers (List.range s.rob.nextSchedule) =
          s.offers (List.range s.rob.nextSchedule) := by
        refine offers_congr (fun j hj => hstage j fun hj' => hwrap ?_) hcycle
        exact (List.mem_range'_1.1 hj').1.trans_lt (List.mem_range.1 hj)
      have hcalls : u.2 = (s.offers (List.range' s.rob.head
          (cfg.robSize - s.rob.head))).take cfg.schedulerSize := hcalls
      have hnum : u.1.numSearched = u.2.length := hnum.trans (Nat.zero_add _)
      simp only [hcalls', hoffers, hnum, hcalls, List.length_take]
      congr 2
      omega

theorem memoryCalls_iff (h : ScanOk cfg s) (hr : s.memoryCalls cfg = .ok r) :
    r.2 = (s.memoryToSchedule cfg).map (Ring.index cfg.robSize s.rob.head) ↔
      s.StopsForGood cfg := by
  by_cases hempty : s.rob.head = s.rob.tail ∧ s.rob.occupancy = 0
  · have hspan : s.memorySpan cfg = 0 := by rw [memorySpan, if_pos hempty]
    rw [memoryCalls, if_pos hempty] at hr
    obtain rfl := Except.ok.inj hr
    refine iff_of_true ?_ (.inl hspan)
    simp [memoryToSchedule, hspan]
  have hspan : s.memorySpan cfg ≠ 0 := by
    have := h.head_lt
    rw [memorySpan, if_neg hempty, Ring.span]
    split <;> omega
  rw [StopsForGood, or_iff_right hspan]
  by_cases hplain : s.rob.head < s.rob.nextSchedule
  · exact iff_of_true (memoryCalls_plain h hr hempty hplain) (.inl hplain)
  rw [or_iff_right hplain, map_memoryToSchedule h hempty, Ring.scan, if_neg hplain,
    memoryCalls_wrapped hr hempty hplain, offers_append, ← offers_range_eq_nil]
  have hupper : (∀ i ∈ List.range' s.rob.head (cfg.robSize - s.rob.head),
      s.blocked (s.rob.entry i) = false) ↔
        ∀ i, s.rob.head ≤ i → i < cfg.robSize → s.blocked (s.rob.entry i) = false := by
    have := h.head_lt
    simp only [List.mem_range'_1]
    exact forall_congr' fun i =>
      ⟨fun hi hle hlt => hi ⟨hle, by omega⟩, fun hi hmem => hi hmem.1 (by omega)⟩
  rw [← hupper]
  generalize s.offers (List.range' s.rob.head (cfg.robSize - s.rob.head)) = u
  generalize s.offers (List.range s.rob.nextSchedule) = l
  split
  · rename_i hall
    exact iff_of_true List.take_append.symm (.inl hall)
  · rename_i hall
    rw [or_iff_right hall, List.append_right_eq_self, List.take_eq_nil_iff, Nat.sub_eq_zero_iff_le]

theorem memoryToSchedule_congr (h : SameMemoryInstructions cfg s s') :
    s'.memoryToSchedule cfg = s.memoryToSchedule cfg := by
  have hwhile : ∀ k ∈ List.range (s.memorySpan cfg),
      (!s'.blocked (s'.instruction cfg k)) = !s.blocked (s.instruction cfg k) := fun k hk =>
    congrArg (! ·) (blocked_congr (h.stage k (List.mem_range.1 hk)) h.cycle)
  rw [memoryToSchedule, memoryToSchedule, h.span, takeWhile_congr_mem hwhile]
  refine congrArg _ (List.filter_congr fun k hk => ?_)
  exact offered_congr (h.stage k (List.mem_range.1 ((List.takeWhile_sublist _).subset hk)))

/-- Two reorder buffers with the same instructions have the same places to schedule, and runs of the
memory scheduler that return have scheduled these in both exactly when a blocked instruction stops
the scheduler for good in both. -/
theorem scheduleMemory_rotation (h : ScanOk cfg s) (h' : ScanOk cfg s')
    (hsame : SameMemoryInstructions cfg s s') (hr : s.memoryCalls cfg = .ok r)
    (hr' : s'.memoryCalls cfg = .ok r') :
    s.scheduleMemoryInstruction cfg = .ok r.1 ∧ s'.scheduleMemoryInstruction cfg = .ok r'.1 ∧
      s'.memoryToSchedule cfg = s.memoryToSchedule cfg ∧
      ((r.2 = (s.memoryToSchedule cfg).map (Ring.index cfg.robSize s.rob.head) ∧
          r'.2 = (s'.memoryToSchedule cfg).map (Ring.index cfg.robSize s'.rob.head)) ↔
        (s.StopsForGood cfg ∧ s'.StopsForGood cfg)) := by
  refine ⟨?_, ?_, memoryToSchedule_congr hsame,
    and_congr (memoryCalls_iff h hr) (memoryCalls_iff h' hr')⟩
  · rw [← memoryCalls_fst, hr]
    rfl
  · rw [← memoryCalls_fst, hr']
    rfl

end

/-! ## A ring that wraps -/

/-- A scheduled load of an address that waits for room in the load queue. -/
def waitingLoad (event : Cycle) : RobEntry :=
  { RobEntry.empty with
    isMemory := true
    eventCycle := event
    fetched := .completed
    scheduled := .inflight
    regReady := true
    sourceMemory := fun j => if j.val = 0 then 64 else 0
    numMemOps := 1 }

/-- A core that holds two such loads, the first at the slot `head`. The second one may be added to
the load queue at once. -/
def twoLoads (head : ℕ) (event : Cycle) : O3Cpu :=
  { O3Cpu.init with
    rob :=
      { head := head
        tail := Ring.index 4 head 2
        occupancy := 2
        nextFetch := 0
        nextSchedule := Ring.index 4 head 2
        entry := Function.update (Function.update (fun _ => .empty) head (waitingLoad event))
          (Ring.index 4 head 1) (waitingLoad 0) } }

theorem scanOk_twoLoads {head : ℕ} (event : Cycle) (hh : head < 4) :
    ScanOk fourSlots (twoLoads head event) :=
  ⟨hh, (Ring.index_lt hh (by decide)).le⟩

theorem memorySpan_twoLoads {head : ℕ} (event : Cycle) (hh : head < 4) :
    (twoLoads head event).memorySpan fourSlots = 2 := by
  rw [memorySpan, if_neg fun h => absurd h.2 (by simp [twoLoads])]
  simp only [twoLoads, fourSlots, Ring.span, Ring.index]
  split <;> split <;> omega

theorem instruction_twoLoads {head k : ℕ} (event : Cycle) (hh : head < 4) (hk : k < 2) :
    (twoLoads head event).instruction fourSlots k = waitingLoad (if k = 0 then event else 0) := by
  have hone : head ≠ Ring.index 4 head 1 := fun heq =>
    absurd (Ring.index_inj (by omega) (by omega) ((Ring.index_zero hh).trans heq)) (by omega)
  rw [instruction]
  simp only [twoLoads, fourSlots]
  obtain rfl | rfl : k = 0 ∨ k = 1 := by omega
  · rw [Ring.index_zero hh, Function.update_of_ne hone, Function.update_self, if_pos rfl]
  · rw [Function.update_self, if_neg Nat.one_ne_zero]

theorem sameMemoryInstructions_twoLoads {head : ℕ} (event : Cycle) (hh : head < 4) :
    SameMemoryInstructions fourSlots (twoLoads 0 event) (twoLoads head event) := by
  have hspan := @memorySpan_twoLoads 0 event (by decide)
  refine ⟨(memorySpan_twoLoads event hh).trans hspan.symm, rfl, fun k hk => ?_⟩
  have hk : k < 2 := hk.trans_eq hspan
  rw [instruction_twoLoads event hh hk, instruction_twoLoads event (by decide) hk]

theorem exists_of_map_snd {α β ε : Type*} {x : Except ε (α × β)} {b : β}
    (h : x.map Prod.snd = .ok b) : ∃ r, x = .ok r ∧ r.2 = b := by
  cases x with
  | error e => cases h
  | ok r => exact ⟨r, rfl, Except.ok.inj h⟩

/-- Both loads are scheduled when none is blocked, also in the ring that wraps. -/
theorem scheduleMemory_rotation_twoLoads : ∃ r r' : O3Cpu × List ℕ,
    ((twoLoads 0 0).scheduleMemoryInstruction fourSlots = .ok r.1 ∧
      (twoLoads 3 0).scheduleMemoryInstruction fourSlots = .ok r'.1 ∧
      (twoLoads 3 0).memoryToSchedule fourSlots = (twoLoads 0 0).memoryToSchedule fourSlots ∧
      ((r.2 = ((twoLoads 0 0).memoryToSchedule fourSlots).map (Ring.index 4 0) ∧
          r'.2 = ((twoLoads 3 0).memoryToSchedule fourSlots).map (Ring.index 4 3)) ↔
        ((twoLoads 0 0).StopsForGood fourSlots ∧ (twoLoads 3 0).StopsForGood fourSlots))) ∧
      r.2 = [0, 1] ∧ r'.2 = [3, 0] := by
  have hcalls : ((twoLoads 0 0).memoryCalls fourSlots).map Prod.snd = .ok [0, 1] := by rfl
  have hcalls' : ((twoLoads 3 0).memoryCalls fourSlots).map Prod.snd = .ok [3, 0] := by rfl
  obtain ⟨r, hr, hl⟩ := exists_of_map_snd hcalls
  obtain ⟨r', hr', hl'⟩ := exists_of_map_snd hcalls'
  exact ⟨r, r', scheduleMemory_rotation (scanOk_twoLoads 0 (by decide))
    (scanOk_twoLoads 0 (by decide)) (sameMemoryInstructions_twoLoads 0 (by decide)) hr hr', hl, hl'⟩

/-- The event of the first load lies in the future, and the second one is scheduled when it has
wrapped. -/
theorem scheduleMemory_passes_blocked :
    ¬ ∀ (cfg : CoreConfig) (s s' : O3Cpu) (r r' : O3Cpu × List ℕ), ScanOk cfg s → ScanOk cfg s' →
      SameMemoryInstructions cfg s s' → s.memoryCalls cfg = .ok r → s'.memoryCalls cfg = .ok r' →
        r.2 = (s.memoryToSchedule cfg).map (Ring.index cfg.robSize s.rob.head) ∧
          r'.2 = (s'.memoryToSchedule cfg).map (Ring.index cfg.robSize s'.rob.head) := by
  intro h
  have hcalls : ((twoLoads 0 5).memoryCalls fourSlots).map Prod.snd = .ok [] := by rfl
  have hcalls' : ((twoLoads 3 5).memoryCalls fourSlots).map Prod.snd = .ok [0] := by rfl
  obtain ⟨r, hr, -⟩ := exists_of_map_snd hcalls
  obtain ⟨r', hr', hl'⟩ := exists_of_map_snd hcalls'
  obtain ⟨-, hwrapped⟩ := h fourSlots (twoLoads 0 5) (twoLoads 3 5) r r'
    (scanOk_twoLoads 5 (by decide)) (scanOk_twoLoads 5 (by decide))
    (sameMemoryInstructions_twoLoads 5 (by decide)) hr hr'
  have hnone : (twoLoads 3 5).memoryToSchedule fourSlots = [] := by decide
  rw [hl', hnone] at hwrapped
  cases hwrapped

end O3Cpu

end Arishem
