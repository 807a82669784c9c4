import Arishem.Core.Scheduling

/-!
# The scheduler and the start of the ring

`schedule_instruction` visits the ring from the head up to `next_fetch[1]`, which no code writes: it
is zero, and the second part of a ring that wraps is not visited. The instructions it schedules are
those that the program order asks for exactly as long as none of the others lies there.
-/

namespace Arishem

namespace O3Cpu

section
variable (cfg : CoreConfig)

/-- The slots of the reorder buffer behind the last instruction are empty. -/
structure RobOk (s : O3Cpu) : Prop where
  head : s.rob.head < cfg.robSize
  occupancy : s.rob.occupancy ≤ cfg.robSize
  nextFetch : s.rob.nextFetch ≤ cfg.robSize
  free : ∀ k, s.rob.occupancy ≤ k → k < cfg.robSize →
    s.rob.entry (Ring.index cfg.robSize s.rob.head k) = .empty

/-- The instruction at a place of the program order, counted from the head. -/
def instruction (s : O3Cpu) (k : ℕ) : RobEntry :=
  s.rob.entry (Ring.index cfg.robSize s.rob.head k)

/-- The instruction is fetched and its event has come. -/
def ready (s : O3Cpu) (e : RobEntry) : Bool :=
  e.fetched = .completed && e.eventCycle ≤ s.currentCoreCycle

/-- The instruction is not scheduled. -/
def unscheduled (e : RobEntry) : Bool := e.scheduled = .none

/-- The places that the scheduler has to search: the longest prefix of ready instructions, up to
`SCHEDULER_SIZE` of them. -/
def searched (s : O3Cpu) : List ℕ :=
  ((List.range s.rob.occupancy).takeWhile fun k => s.ready (s.instruction cfg k)).take
    cfg.schedulerSize

/-- The places that have to be scheduled, in program order. -/
def toSchedule (s : O3Cpu) : List ℕ :=
  (s.searched cfg).filter fun k => unscheduled (s.instruction cfg k)

/-- Nothing that has to be scheduled lies behind the slots that the scheduler visits. -/
def Reached (s : O3Cpu) : Prop :=
  ∀ k ∈ s.toSchedule cfg, k < Ring.span cfg.robSize s.rob.head s.rob.nextFetch

/-- The scheduler schedules what has to be scheduled, in program order. -/
def SchedulesPrefix (s : O3Cpu) : Prop :=
  (s.scheduleInstruction cfg).2 =
    (s.toSchedule cfg).map (Ring.index cfg.robSize s.rob.head)

/-- The two reorder buffers hold the same instructions in the same order, as far as the scheduler
looks at them. -/
structure SameInstructions (s s' : O3Cpu) : Prop where
  occupancy : s'.rob.occupancy = s.rob.occupancy
  cycle : s'.currentCoreCycle = s.currentCoreCycle
  instruction : ∀ k, k < s.rob.occupancy →
    (s'.instruction cfg k).fetched = (s.instruction cfg k).fetched ∧
      (s'.instruction cfg k).eventCycle = (s.instruction cfg k).eventCycle ∧
      (s'.instruction cfg k).scheduled = (s.instruction cfg k).scheduled

end

section
variable {cfg : CoreConfig} {s s' s'' : O3Cpu} {i j : ℕ}

/-! ## What `do_scheduling` leaves alone -/

/-- The stages of all instructions but one, the cycle and the number of searched instructions are the
same. -/
structure SameBut (i : Option ℕ) (s s' : O3Cpu) : Prop where
  stages : ∀ j, some j ≠ i → (s'.rob.entry j).fetched = (s.rob.entry j).fetched ∧
    (s'.rob.entry j).eventCycle = (s.rob.entry j).eventCycle ∧
    (s'.rob.entry j).scheduled = (s.rob.entry j).scheduled
  cycle : s'.currentCoreCycle = s.currentCoreCycle
  numSearched : s'.numSearched = s.numSearched

theorem SameBut.refl (i : Option ℕ) (s : O3Cpu) : SameBut i s s :=
  ⟨fun _ _ => ⟨rfl, rfl, rfl⟩, rfl, rfl⟩

theorem SameBut.trans {i : Option ℕ} (h : SameBut i s s') (h' : SameBut i s' s'') :
    SameBut i s s'' := by
  refine ⟨fun j hj => ?_, h'.cycle.trans h.cycle, h'.numSearched.trans h.numSearched⟩
  obtain ⟨h₁, h₂, h₃⟩ := h.stages j hj
  obtain ⟨h₁', h₂', h₃'⟩ := h'.stages j hj
  exact ⟨h₁'.trans h₁, h₂'.trans h₂, h₃'.trans h₃⟩

theorem SameBut.weaken (h : SameBut none s s') (i : Option ℕ) : SameBut i s s' :=
  ⟨fun j _ => h.stages j (by simp), h.cycle, h.numSearched⟩

/-- A write to an instruction that leaves its stages alone. -/
theorem sameBut_modifyRob {f : RobEntry → RobEntry}
    (h : ∀ e, (f e).fetched = e.fetched ∧ (f e).eventCycle = e.eventCycle ∧
      (f e).scheduled = e.scheduled) (i : ℕ) (s : O3Cpu) : SameBut none s (s.modifyRob i f) := by
  refine ⟨fun j _ => ?_, rfl, rfl⟩
  by_cases hj : j = i
  · subst hj
    simp only [modifyRob, Function.update_self]
    exact h _
  · simp only [modifyRob, Function.update_of_ne hj, and_self]

/-- A write to one instruction leaves the others alone. -/
theorem sameBut_modifyRob_self (f : RobEntry → RobEntry) (i : ℕ) (s : O3Cpu) :
    SameBut (some i) s (s.modifyRob i f) := by
  refine ⟨fun j hj => ?_, rfl, rfl⟩
  have hne : j ≠ i := fun h => hj (congrArg some h)
  simp only [modifyRob, Function.update_of_ne hne, and_self]

theorem sameBut_rte1 (i : Option ℕ) (s : O3Cpu) (a : ReadyArray) :
    SameBut i s { s with rte1 := a } :=
  ⟨fun _ _ => ⟨rfl, rfl, rfl⟩, rfl, rfl⟩

/-- A fold of steps that leave the stages alone. -/
theorem sameBut_foldl {α : Type*} {f : O3Cpu → α → O3Cpu}
    (h : ∀ s a, SameBut none s (f s a)) : ∀ (l : List α) (s : O3Cpu), SameBut none s (l.foldl f s)
  | [], s => .refl none s
  | a :: l, s => (h s a).trans (sameBut_foldl h l (f s a))

theorem sameBut_regRawDependency (prior current : ℕ) (j : Fin numInstrSources) (s : O3Cpu) :
    SameBut none s (s.regRawDependency prior current j) := by
  rw [regRawDependency]
  split
  · rw [markRegRaw]
    refine SameBut.trans (sameBut_modifyRob ?_ prior s) (sameBut_modifyRob ?_ current _)
    · exact fun e => ⟨rfl, rfl, rfl⟩
    · exact fun e => ⟨rfl, rfl, rfl⟩
  · exact .refl none s

/-- `reg_dependency` changes no stage. -/
theorem sameBut_regDependency (i : ℕ) (s : O3Cpu) : SameBut none s (s.regDependency cfg i) := by
  refine sameBut_foldl (fun s k => ?_) _ s
  split
  · refine sameBut_foldl (fun s j => ?_) _ s
    split
    · exact sameBut_regRawDependency k i j s
    · exact .refl none s
  · exact .refl none s

/-- `do_scheduling` changes the stages of one instruction. -/
theorem sameBut_doScheduling (i : ℕ) (s : O3Cpu) :
    SameBut (some i) s (s.doScheduling cfg i) := by
  have hready : SameBut (some i) s (s.modifyRob i fun e => { e with regReady := true }) :=
    sameBut_modifyRob_self _ i s
  have hreg : SameBut none (s.modifyRob i fun e => { e with regReady := true })
      (regDependency cfg i (s.modifyRob i fun e => { e with regReady := true })) :=
    sameBut_regDependency i _
  refine hready.trans ((hreg.weaken (some i)).trans ?_)
  simp only [doScheduling]
  generalize regDependency cfg i _ = s₁
  generalize hs₂ : ({ s₁ with rob := { s₁.rob with
    nextSchedule := if i = cfg.robSize - 1 then 0 else i + 1 } } : O3Cpu) = s₂
  have hnext : SameBut (some i) s₁ s₂ := by
    subst hs₂
    exact ⟨fun _ _ => ⟨rfl, rfl, rfl⟩, rfl, rfl⟩
  refine hnext.trans ?_
  split
  · exact sameBut_modifyRob_self _ i s₂
  · split
    · exact (sameBut_modifyRob_self _ i s₂).trans (sameBut_rte1 (some i) _ _)
    · exact sameBut_modifyRob_self _ i s₂

/-! ## What the loops schedule -/

theorem takeWhile_congr_mem {α : Type*} {p q : α → Bool} :
    ∀ {l : List α}, (∀ a ∈ l, p a = q a) → l.takeWhile p = l.takeWhile q
  | [], _ => rfl
  | a :: l, h => by
    rw [List.takeWhile_cons, List.takeWhile_cons, h a (List.mem_cons_self ..),
      takeWhile_congr_mem fun b hb => h b (List.mem_cons_of_mem a hb)]

theorem stopsAt_iff : s.stopsAt cfg i ↔
    s.ready (s.rob.entry i) = false ∨ cfg.schedulerSize ≤ s.numSearched := by
  rw [stopsAt, ready, ← or_assoc]
  refine or_congr ?_ Iff.rfl
  rw [Bool.and_eq_false_iff, decide_eq_false_iff_not, decide_eq_false_iff_not, UInt64.not_le]

/-- The instructions that the loops schedule are the unscheduled ones of the longest ready prefix of
the visited slots. Each step leaves the stages of the slots still to come alone. -/
theorem scheduleFrom_calls (is : List ℕ) (hn : is.Nodup) (s : O3Cpu) :
    (s.scheduleFrom cfg is).2 =
      ((is.takeWhile fun i => s.ready (s.rob.entry i)).take
        (cfg.schedulerSize - s.numSearched)).filter fun i => unscheduled (s.rob.entry i) := by
  induction is generalizing s with
  | nil => simp [scheduleFrom]
  | cons i is ih =>
    obtain ⟨hi, hn⟩ := List.nodup_cons.1 hn
    -- after a step the slots still to come are as before
    have hnext : ∀ s', SameBut (some i) s s' →
        ({ s' with numSearched := s'.numSearched + 1 }.scheduleFrom cfg is).2 =
          ((is.takeWhile fun i => s.ready (s.rob.entry i)).take
            (cfg.schedulerSize - (s.numSearched + 1))).filter
              fun i => unscheduled (s.rob.entry i) := by
      intro s' h
      have hentry : ∀ j ∈ is, s'.ready (s'.rob.entry j) = s.ready (s.rob.entry j) ∧
          unscheduled (s'.rob.entry j) = unscheduled (s.rob.entry j) := by
        intro j hj
        have hne : some j ≠ some i := by
          rintro h
          exact hi (Option.some.inj h ▸ hj)
        obtain ⟨h₁, h₂, h₃⟩ := h.stages j hne
        rw [ready, ready, unscheduled, unscheduled, h₁, h₂, h₃, h.cycle]
        exact ⟨rfl, rfl⟩
      rw [ih hn { s' with numSearched := s'.numSearched + 1 }]
      have hwhile : is.takeWhile (fun i => s'.ready (s'.rob.entry i)) =
          is.takeWhile (fun i => s.ready (s.rob.entry i)) :=
        takeWhile_congr_mem fun j hj => (hentry j hj).1
      have hsub : ∀ j ∈ (is.takeWhile fun i => s.ready (s.rob.entry i)).take
          (cfg.schedulerSize - (s.numSearched + 1)), j ∈ is := fun j hj =>
        (List.takeWhile_sublist _).subset (List.mem_of_mem_take hj)
      have hgoal : (({ s' with numSearched := s'.numSearched + 1 } : O3Cpu).numSearched) =
          s.numSearched + 1 := by
        rw [← h.numSearched]
      rw [hgoal]
      show ((is.takeWhile fun i => s'.ready (s'.rob.entry i)).take _).filter _ = _
      rw [hwhile]
      exact List.filter_congr fun j hj => (hentry j (hsub j hj)).2
    rw [scheduleFrom]
    by_cases hs : s.stopsAt cfg i
    · rw [if_pos hs]
      rcases stopsAt_iff.1 hs with h | h
      · simp [h]
      · simp [Nat.sub_eq_zero_of_le h]
    · rw [if_neg hs]
      rw [stopsAt_iff, not_or, Bool.not_eq_false, not_le] at hs
      obtain ⟨n, hsize⟩ : ∃ n, cfg.schedulerSize - s.numSearched = n + 1 :=
        ⟨cfg.schedulerSize - (s.numSearched + 1), by omega⟩
      have hn' : cfg.schedulerSize - (s.numSearched + 1) = n := by omega
      rw [List.takeWhile_cons, hs.1, if_pos rfl, hsize, List.take_succ_cons, List.filter_cons]
      by_cases hu : (s.rob.entry i).scheduled = .none
      · rw [if_pos hu, if_pos (by simp [unscheduled, hu])]
        exact congrArg (i :: ·) (hn' ▸ hnext _ (sameBut_doScheduling i s))
      · rw [if_neg hu, if_neg (by simp [unscheduled, hu])]
        exact hn' ▸ hnext s (.refl (some i) s)

/-! ## The rotation -/

/-- The longest prefix of a range that satisfies a predicate is a range. -/
theorem exists_takeWhile_range (p : ℕ → Bool) (n : ℕ) :
    ∃ j ≤ n, (List.range n).takeWhile p = List.range j ∧ (∀ k < j, p k = true) ∧
      (j < n → p j = false) := by
  induction n with
  | zero => exact ⟨0, le_rfl, rfl, fun k hk => absurd hk (Nat.not_lt_zero k), by simp⟩
  | succ n ih =>
    obtain ⟨j, hj, hwhile, hall, hstop⟩ := ih
    rw [List.range_succ, List.takeWhile_append]
    rcases hj.eq_or_lt with rfl | hlt
    · rw [hwhile, if_pos rfl]
      cases hp : p j with
      | true =>
        refine ⟨j + 1, le_rfl, ?_, fun k hk => ?_, fun h => absurd h (lt_irrefl _)⟩
        · simp [hp, List.range_succ]
        · rcases (Nat.lt_succ_iff.1 hk).eq_or_lt with rfl | hk
          · exact hp
          · exact hall k hk
      | false => exact ⟨j, Nat.le_succ j, by simp [hp], hall, fun _ => hp⟩
    · have hlen : ((List.range n).takeWhile p).length ≠ (List.range n).length := by
        rw [hwhile, List.length_range, List.length_range]
        exact hlt.ne
      rw [if_neg hlen]
      exact ⟨j, by omega, hwhile, hall, fun _ => hstop hlt⟩

/-- Of two ranges where the predicate is false from the end of the second on, the first has the
prefix of the second, cut at its own end. -/
theorem takeWhile_range {p : ℕ → Bool} {m n j : ℕ} (hj : j ≤ n)
    (hwhile : (List.range n).takeWhile p = List.range j) (hfree : ∀ k, n ≤ k → k < m → p k = false) :
    (List.range m).takeWhile p = List.range (min m j) := by
  obtain ⟨j₁, hj₁, hwhile₁, hall₁, hstop₁⟩ := exists_takeWhile_range p n
  obtain ⟨j', hj', hwhile', hall', hstop'⟩ := exists_takeWhile_range p m
  obtain rfl : j₁ = j := by
    simpa using congrArg List.length (hwhile₁.symm.trans hwhile)
  have hle : j' ≤ j₁ := by
    by_contra hlt
    have htrue := hall' j₁ (by omega)
    rcases hj.eq_or_lt with rfl | hlt'
    · exact absurd (hfree j₁ le_rfl (by omega)) (by simp [htrue])
    · exact absurd (hstop₁ hlt') (by simp [htrue])
  have heq : j' = min m j₁ := by
    rcases hle.eq_or_lt with h | h
    · omega
    · have hm : ¬ j' < m := fun h' => absurd (hstop' h') (by simp [hall₁ j' h])
      omega
  rw [hwhile', heq]

theorem filter_lt_range (m n : ℕ) :
    (List.range n).filter (fun k => decide (k < m)) = List.range (min m n) := by
  induction n with
  | zero => simp
  | succ n ih =>
    rw [List.range_succ, List.filter_append, ih]
    by_cases hn : n < m
    · rw [Nat.min_eq_right hn.le, Nat.min_eq_right hn, List.range_succ]
      simp [hn]
    · rw [Nat.min_eq_left (not_lt.1 hn), Nat.min_eq_left (by omega)]
      simp [hn]

/-- The scheduler schedules the places of `toSchedule` that it visits. -/
theorem scheduleInstruction_calls (h : RobOk cfg s) :
    (s.scheduleInstruction cfg).2 =
      ((s.toSchedule cfg).filter fun k =>
        k < Ring.span cfg.robSize s.rob.head s.rob.nextFetch).map
          (Ring.index cfg.robSize s.rob.head) := by
  rw [scheduleInstruction]
  by_cases hempty : s.rob.head = s.rob.tail ∧ s.rob.occupancy = 0
  · rw [if_pos hempty]
    simp [toSchedule, searched, hempty.2]
  · rw [if_neg hempty, Ring.scan_eq h.head h.nextFetch]
    have hspan := Ring.span_le h.head h.nextFetch
    generalize Ring.span cfg.robSize s.rob.head s.rob.nextFetch = m at hspan ⊢
    have hnodup : ((List.range m).map (Ring.index cfg.robSize s.rob.head)).Nodup := by
      refine List.Nodup.map_on (fun k hk k' hk' heq => ?_) List.nodup_range
      rw [List.mem_range] at hk hk'
      exact Ring.index_inj (by omega) (by omega) heq
    rw [scheduleFrom_calls _ hnodup]
    obtain ⟨j, hj, hwhile, -, -⟩ :=
      exists_takeWhile_range (fun k => s.ready (s.instruction cfg k)) s.rob.occupancy
    have hfree : ∀ k, s.rob.occupancy ≤ k → k < m → s.ready (s.instruction cfg k) = false := by
      intro k hk hkm
      rw [instruction, h.free k hk (by omega)]
      rfl
    have hvisited := takeWhile_range (m := m) hj hwhile hfree
    rw [List.takeWhile_map, ← List.map_take, List.filter_map, toSchedule, searched, hwhile]
    refine congrArg (List.map _) ?_
    calc ((((List.range m).takeWhile fun k => s.ready (s.instruction cfg k)).take
            (cfg.schedulerSize - 0)).filter fun k => unscheduled (s.instruction cfg k))
        = (List.range (min m (min cfg.schedulerSize j))).filter
            fun k => unscheduled (s.instruction cfg k) := by
          rw [hvisited, List.take_range, Nat.sub_zero, Nat.min_left_comm]
      _ = _ := by
          rw [← filter_lt_range, List.filter_filter, List.filter_filter, List.take_range]
          refine List.filter_congr fun k _ => ?_
          rw [Bool.and_comm]

theorem toSchedule_congr (h : SameInstructions cfg s s') :
    s'.toSchedule cfg = s.toSchedule cfg := by
  have hready : ∀ k, k < s.rob.occupancy →
      s'.ready (s'.instruction cfg k) = s.ready (s.instruction cfg k) := by
    intro k hk
    obtain ⟨hf, he, -⟩ := h.instruction k hk
    rw [ready, ready, hf, he, h.cycle]
  have hsearched : s'.searched cfg = s.searched cfg := by
    rw [searched, searched, h.occupancy]
    exact congrArg _ (takeWhile_congr_mem fun k hk => hready k (List.mem_range.1 hk))
  rw [toSchedule, toSchedule, hsearched]
  refine List.filter_congr fun k hk => ?_
  have hk : k < s.rob.occupancy :=
    List.mem_range.1 ((List.takeWhile_sublist _).subset (List.mem_of_mem_take hk))
  rw [unscheduled, unscheduled, (h.instruction k hk).2.2]

theorem schedulesPrefix_iff (h : RobOk cfg s) : s.SchedulesPrefix cfg ↔ s.Reached cfg := by
  rw [SchedulesPrefix, scheduleInstruction_calls h]
  constructor
  · intro heq k hk
    have hlen := congrArg List.length heq
    rw [List.length_map, List.length_map, List.length_filter_eq_length_iff] at hlen
    exact of_decide_eq_true (hlen k hk)
  · intro hr
    rw [List.filter_eq_self.2 fun k hk => decide_eq_true (hr k hk)]

/-- Two reorder buffers with the same instructions have the same places to schedule, and the
scheduler schedules these in both exactly when it reaches them in both. -/
theorem scheduleInstruction_rotation (h : RobOk cfg s) (h' : RobOk cfg s')
    (hsame : SameInstructions cfg s s') :
    s'.toSchedule cfg = s.toSchedule cfg ∧
      ((s.SchedulesPrefix cfg ∧ s'.SchedulesPrefix cfg) ↔ (s.Reached cfg ∧ s'.Reached cfg)) :=
  ⟨toSchedule_congr hsame, and_congr (schedulesPrefix_iff h) (schedulesPrefix_iff h')⟩

end

/-! ## A ring that wraps -/

/-- A core with a reorder buffer of four slots. -/
def fourSlots : CoreConfig where
  robSize := 4
  schedulerSize := 4
  staSize := 4
  lqSize := 4
  sqSize := 4
  lqWidth := 1
  sqWidth := 1
  execWidth := 1
  retireWidth := 1
  schedulingLatency := 0
  execLatency := 0

/-- A core that holds two fetched instructions, the first at the slot `head`. -/
def twoFetched (head : ℕ) : O3Cpu :=
  let fetched : RobEntry := { RobEntry.empty with fetched := .completed }
  { O3Cpu.init with
    rob :=
      { head := head
        tail := Ring.index 4 head 2
        occupancy := 2
        nextFetch := 0
        nextSchedule := 0
        entry := Function.update (Function.update (fun _ => .empty) head fetched)
          (Ring.index 4 head 1) fetched } }

theorem robOk_twoFetched {head : ℕ} (hh : head < 4) : RobOk fourSlots (twoFetched head) := by
  refine ⟨hh, Nat.le_add_left 2 2, Nat.zero_le 4, fun k hk hk' => ?_⟩
  have hk : 2 ≤ k := hk
  have hk' : k < 4 := hk'
  have hone : Ring.index 4 head k ≠ Ring.index 4 head 1 := fun heq =>
    absurd (Ring.index_inj hk' (by omega) heq) (by omega)
  have hzero : Ring.index 4 head k ≠ head := fun heq =>
    absurd (Ring.index_inj hk' (by omega) (heq.trans (Ring.index_zero hh).symm)) (by omega)
  simp only [twoFetched, fourSlots]
  rw [Function.update_of_ne hone, Function.update_of_ne hzero]

theorem instruction_twoFetched {head k : ℕ} (hh : head < 4) (hk : k < 2) :
    (twoFetched head).instruction fourSlots k = { RobEntry.empty with fetched := .completed } := by
  have hone : head ≠ Ring.index 4 head 1 := fun heq =>
    absurd (Ring.index_inj (by omega) (by omega) ((Ring.index_zero hh).trans heq)) (by omega)
  rw [instruction]
  simp only [twoFetched, fourSlots]
  obtain rfl | rfl : k = 0 ∨ k = 1 := by omega
  · rw [Ring.index_zero hh, Function.update_of_ne hone, Function.update_self]
  · rw [Function.update_self]

theorem sameInstructions_twoFetched {head : ℕ} (hh : head < 4) :
    SameInstructions fourSlots (twoFetched 0) (twoFetched head) := by
  refine ⟨rfl, rfl, fun k hk => ?_⟩
  rw [instruction_twoFetched hh hk, instruction_twoFetched (by omega) hk]
  exact ⟨rfl, rfl, rfl⟩

/-- The scheduler schedules the same instructions when the buffer starts at slot one. -/
theorem scheduleInstruction_rotation_twoFetched :
    (twoFetched 1).toSchedule fourSlots = (twoFetched 0).toSchedule fourSlots ∧
      (((twoFetched 0).SchedulesPrefix fourSlots ∧ (twoFetched 1).SchedulesPrefix fourSlots) ↔
        ((twoFetched 0).Reached fourSlots ∧ (twoFetched 1).Reached fourSlots)) :=
  scheduleInstruction_rotation (robOk_twoFetched (by decide)) (robOk_twoFetched (by decide))
    (sameInstructions_twoFetched (by decide))

/-- The same two instructions are both scheduled from slot zero on, and only the first of them when
the second has wrapped. -/
theorem scheduleInstruction_depends_on_head :
    ¬ ∀ (cfg : CoreConfig) (s s' : O3Cpu), RobOk cfg s → RobOk cfg s' →
      SameInstructions cfg s s' → s.SchedulesPrefix cfg ∧ s'.SchedulesPrefix cfg := by
  intro h
  obtain ⟨-, hwrapped⟩ := h fourSlots (twoFetched 0) (twoFetched 3) (robOk_twoFetched (by decide))
    (robOk_twoFetched (by decide)) (sameInstructions_twoFetched (by decide))
  have hcalls : ((twoFetched 3).scheduleInstruction fourSlots).2 = [3] := by decide
  have hall : ((twoFetched 3).toSchedule fourSlots).map (Ring.index 4 3) = [3, 0] := by decide
  have heq : ([3] : List ℕ) = [3, 0] := hcalls.symm.trans (hwrapped.trans hall)
  exact absurd heq (by decide)

end O3Cpu

end Arishem
