import Arishem.Core.Wakeup

/-!
# Scheduling keeps the register dependences

`do_scheduling` looks for the producers of an instruction among the older ones, records each source
at most once, and puts the instruction into RTE1 when it depends on none. The slot at the tail of
RTE1 is free.
-/

namespace Arishem

namespace O3Cpu

section
variable {cfg : CoreConfig} {s s' s'' : O3Cpu} {i p : ℕ} {j : Fin numInstrSources}
  {rest : List (ℕ × Fin numInstrSources)} {l₀ l₁ : List ℕ}

/-! ## Recording a dependence -/

/-- What `reg_RAW_dependency` writes when it finds a producer. -/
theorem entry_markRegRaw (hne : p ≠ i) (k : ℕ) : (s.markRegRaw p i j).rob.entry k =
    if k = i then
      { s.rob.entry i with
        regReady := false
        producerId := (s.rob.entry p).instrId
        numRegDependent := (s.rob.entry i).numRegDependent + 1
        regRawChecked := Function.update (s.rob.entry i).regRawChecked j true }
    else if k = p then
      { s.rob.entry p with
        registersInstrsDependOnMe := insert i (s.rob.entry p).registersInstrsDependOnMe
        registersIndexDependOnMe := Function.update (s.rob.entry p).registersIndexDependOnMe j
          (insert i ((s.rob.entry p).registersIndexDependOnMe j))
        regRawProducer := true }
    else s.rob.entry k := by
  rw [markRegRaw, entry_modifyRob]
  by_cases hk : k = i
  · subst hk
    rw [if_pos rfl, if_pos rfl, entry_modifyRob_of_ne hne.symm, entry_modifyRob_self]
  · rw [if_neg hk, if_neg hk, entry_modifyRob]
    by_cases hk' : k = p
    · subst hk'
      rw [if_pos rfl]
    · rw [if_neg hk', if_neg hk']

theorem mem_index_markRegRaw (hne : p ≠ i) {x k : ℕ} {j' : Fin numInstrSources} :
    x ∈ ((s.markRegRaw p i j).rob.entry k).registersIndexDependOnMe j' ↔
      x ∈ (s.rob.entry k).registersIndexDependOnMe j' ∨ k = p ∧ x = i ∧ j' = j := by
  rw [entry_markRegRaw hne]
  by_cases hk : k = i
  · subst hk
    simp [hne.symm]
  · rw [if_neg hk]
    by_cases hk' : k = p
    · subst hk'
      rw [if_pos rfl]
      by_cases hj : j' = j
      · subst hj
        simp [or_comm]
      · simp [hj]
    · simp [hk']

theorem mem_instrs_markRegRaw (hne : p ≠ i) {x k : ℕ} :
    x ∈ ((s.markRegRaw p i j).rob.entry k).registersInstrsDependOnMe ↔
      x ∈ (s.rob.entry k).registersInstrsDependOnMe ∨ k = p ∧ x = i := by
  rw [entry_markRegRaw hne]
  by_cases hk : k = i
  · subst hk
    simp [hne.symm]
  · rw [if_neg hk]
    by_cases hk' : k = p
    · subst hk'
      simp [or_comm]
    · simp [hk']

theorem stages_markRegRaw (hne : p ≠ i) (k : ℕ) :
    ((s.markRegRaw p i j).rob.entry k).scheduled = (s.rob.entry k).scheduled ∧
      ((s.markRegRaw p i j).rob.entry k).executed = (s.rob.entry k).executed := by
  rw [entry_markRegRaw hne]
  split
  · rename_i hk
    exact ⟨hk ▸ rfl, hk ▸ rfl⟩
  · split
    · rename_i hk
      exact ⟨hk ▸ rfl, hk ▸ rfl⟩
    · exact ⟨rfl, rfl⟩

theorem sameButRegisters_markRegRaw (p i : ℕ) (j : Fin numInstrSources) (s : O3Cpu) :
    SameButRegisters s (s.markRegRaw p i j) := by
  rw [O3Cpu.markRegRaw]
  refine SameButRegisters.trans (sameButRegisters_modifyRob ?_) (sameButRegisters_modifyRob ?_)
  · exact fun _ => rfl
  · exact fun _ => rfl

/-- A new record is counted once. -/
theorem waiting_markRegRaw (hne : p ≠ i) (hexec : (s.rob.entry p).executed ≠ .completed) (k : ℕ) :
    (s.markRegRaw p i j).waiting rest k =
      if k = i then insert j (s.waiting rest k) else s.waiting rest k := by
  have hwaits : ∀ j', (s.markRegRaw p i j).Waits rest k j' ↔
      s.Waits rest k j' ∨ k = i ∧ j' = j := by
    intro j'
    simp only [Waits, mem_index_markRegRaw hne, (stages_markRegRaw hne _).2]
    constructor
    · rintro (⟨q, hq | ⟨-, hk, hj⟩, hex⟩ | hr)
      · exact .inl (.inl ⟨q, hq, hex⟩)
      · exact .inr ⟨hk, hj⟩
      · exact .inl (.inr hr)
    · rintro ((⟨q, hq, hex⟩ | hr) | ⟨hk, hj⟩)
      · exact .inl ⟨q, .inl hq, hex⟩
      · exact .inr hr
      · exact .inl ⟨p, .inr ⟨rfl, hk, hj⟩, hexec⟩
  ext j'
  rw [mem_waiting, hwaits]
  split
  · rename_i hk
    rw [Finset.mem_insert, mem_waiting, or_comm]
    simp [hk]
  · rename_i hk
    rw [mem_waiting]
    simp [hk]

theorem numRegDependent_markRegRaw (hne : p ≠ i) (k : ℕ) :
    ((s.markRegRaw p i j).rob.entry k).numRegDependent =
      if k = i then (s.rob.entry k).numRegDependent + 1 else (s.rob.entry k).numRegDependent := by
  rw [entry_markRegRaw hne]
  by_cases hk : k = i
  · subst hk
    rw [if_pos rfl, if_pos rfl]
  · rw [if_neg hk, if_neg hk]
    split
    · rename_i hkp
      rw [hkp]
    · rfl

theorem regReady_markRegRaw (hne : p ≠ i) (k : ℕ) :
    ((s.markRegRaw p i j).rob.entry k).regReady =
      if k = i then false else (s.rob.entry k).regReady := by
  rw [entry_markRegRaw hne]
  by_cases hk : k = i
  · rw [if_pos hk, if_pos hk]
  · rw [if_neg hk, if_neg hk]
    split
    · rename_i hkp
      rw [hkp]
    · rfl

theorem regRawChecked_markRegRaw (hne : p ≠ i) (k : ℕ) (j' : Fin numInstrSources) :
    ((s.markRegRaw p i j).rob.entry k).regRawChecked j' = true ↔
      (s.rob.entry k).regRawChecked j' = true ∨ k = i ∧ j' = j := by
  rw [entry_markRegRaw hne]
  by_cases hk : k = i
  · subst hk
    by_cases hj : j' = j
    · simp [hj]
    · simp [hj]
  · rw [if_neg hk]
    split
    · rename_i hkp
      simp [hkp, hne]
    · simp [hk]

theorem regRawProducer_markRegRaw (hne : p ≠ i) (k : ℕ) :
    ((s.markRegRaw p i j).rob.entry k).regRawProducer = true ↔
      (s.rob.entry k).regRawProducer = true ∨ k = p := by
  rw [entry_markRegRaw hne]
  by_cases hk : k = i
  · subst hk
    simp [hne.symm]
  · rw [if_neg hk]
    by_cases hkp : k = p
    · simp [hkp]
    · simp [hkp]

section
variable (h : s.Recorded cfg (some i) []) (hcheck : (s.rob.entry i).regRawChecked j = false)

include h hcheck

/-- Nothing is recorded of a source that is not checked. -/
theorem Recorded.not_mem_of_unchecked (q : ℕ) :
    i ∉ (s.rob.entry q).registersIndexDependOnMe j := fun hq =>
  absurd (h.checked q i j hq) (by simp [hcheck])

/-- The source counts once more than before. -/
theorem Recorded.count_markRegRaw (hne : p ≠ i) (hexec : (s.rob.entry p).executed ≠ .completed)
    {k : ℕ} (hk : s.Live cfg k) : ((s.markRegRaw p i j).rob.entry k).numRegDependent =
      ((s.markRegRaw p i j).waiting [] k).card := by
  rw [waiting_markRegRaw hne hexec, numRegDependent_markRegRaw hne, h.count k hk]
  by_cases hki : k = i
  · subst hki
    have hfresh : j ∉ s.waiting [] k := by
      rw [mem_waiting]
      rintro (⟨q, hq, -⟩ | hr)
      · exact h.not_mem_of_unchecked hcheck q hq
      · exact absurd hr (List.not_mem_nil)
    rw [if_pos rfl, if_pos rfl, Finset.card_insert_of_notMem hfresh, Int.natCast_add]
    rfl
  · rw [if_neg hki, if_neg hki]

/-- A source has one producer, as nothing was recorded of it. -/
theorem Recorded.unique_markRegRaw (hne : p ≠ i) {q q' x : ℕ} {j' : Fin numInstrSources}
    (hx : x ∈ ((s.markRegRaw p i j).rob.entry q).registersIndexDependOnMe j')
    (hx' : x ∈ ((s.markRegRaw p i j).rob.entry q').registersIndexDependOnMe j') : q = q' := by
  rw [mem_index_markRegRaw hne] at hx hx'
  rcases hx with hx | ⟨rfl, rfl, rfl⟩ <;> rcases hx' with hx' | ⟨rfl, hxi, hj⟩
  · exact h.unique q q' x j' hx hx'
  · subst hxi hj
    exact absurd hx (h.not_mem_of_unchecked hcheck q)
  · exact absurd hx' (h.not_mem_of_unchecked hcheck q')
  · rfl

end

/-- An instruction with a source that is not there is not ready. -/
theorem Recorded.ready_markRegRaw (h : s.Recorded cfg (some i) []) (hne : p ≠ i) {k : ℕ}
    (hk : s.Live cfg k) (hs : (s.rob.entry k).scheduled ≠ .none ∨ some i = some k) :
    ((s.markRegRaw p i j).rob.entry k).regReady = true ↔
      ((s.markRegRaw p i j).rob.entry k).numRegDependent = 0 := by
  rw [regReady_markRegRaw hne, numRegDependent_markRegRaw hne]
  by_cases hki : k = i
  · rw [if_pos hki, if_pos hki]
    have hnum := h.count k hk
    exact ⟨fun hf => absurd hf (by simp), fun hz => by omega⟩
  · rw [if_neg hki, if_neg hki]
    exact h.ready k hk hs

/-- Recording a source of the instruction that is being scheduled. -/
theorem Recorded.markRegRaw (h : s.Recorded cfg (some i) []) (hold : s.Older cfg p i)
    (hexec : (s.rob.entry p).executed ≠ .completed)
    (hcheck : (s.rob.entry i).regRawChecked j = false) :
    (s.markRegRaw p i j).Recorded cfg (some i) [] := by
  have hne := hold.ne
  have hsame := (sameButRegisters_markRegRaw p i j s).ring
  refine ⟨fun q x j' hx => ?_, fun q x j' hx => ?_, fun q x j' hx => ?_,
    fun q q' x j' => h.unique_markRegRaw hcheck hne, fun q x => ?_, fun q x hx => ?_,
    fun x j' hx => absurd hx (List.not_mem_nil),
    fun k hk => h.count_markRegRaw hcheck hne hexec (hsame.live.1 hk), fun k hk hs => ?_⟩
  · rw [mem_index_markRegRaw hne] at hx
    rw [hsame.older]
    rcases hx with hx | ⟨rfl, rfl, -⟩
    · exact h.older q x j' hx
    · exact hold
  · rw [mem_index_markRegRaw hne] at hx
    rw [(stages_markRegRaw hne x).1]
    rcases hx with hx | ⟨-, rfl, -⟩
    · exact h.scheduled q x j' hx
    · exact .inr rfl
  · rw [mem_index_markRegRaw hne] at hx
    rw [regRawChecked_markRegRaw hne]
    rcases hx with hx | ⟨-, hxi⟩
    · exact .inl (h.checked q x j' hx)
    · exact .inr hxi
  · simp only [mem_instrs_markRegRaw hne, mem_index_markRegRaw hne, h.instrs]
    constructor
    · rintro (⟨j', hj'⟩ | hx)
      · exact ⟨j', .inl hj'⟩
      · exact ⟨j, .inr ⟨hx.1, hx.2, rfl⟩⟩
    · rintro ⟨j', hj' | ⟨hq, hx, -⟩⟩
      · exact .inl ⟨j', hj'⟩
      · exact .inr ⟨hq, hx⟩
  · rw [mem_instrs_markRegRaw hne] at hx
    rw [regRawProducer_markRegRaw hne]
    rcases hx with hx | ⟨hqp, -⟩
    · exact .inl (h.producer q x hx)
    · exact .inr hqp
  · rw [(stages_markRegRaw hne k).1] at hs
    exact h.ready_markRegRaw hne (hsame.live.1 hk) hs

/-! ## Scheduling -/

/-- The instruction is being scheduled: its dependences are recorded, and nothing else is done. -/
structure Scheduling (cfg : CoreConfig) (i : ℕ) (l₀ l₁ : List ℕ) (s s' : O3Cpu) : Prop where
  wakeup : s'.Wakeup cfg (some i) [] l₀ l₁
  unscheduled : (s'.rob.entry i).scheduled = .none
  same : SameButRegisters s s'
  adds : Adds cfg [] s s'

theorem Scheduling.markRegRaw (h : Scheduling cfg i l₀ l₁ s s') (hold : s'.Older cfg p i)
    (hexec : (s'.rob.entry p).executed ≠ .completed)
    (hcheck : (s'.rob.entry i).regRawChecked j = false) :
    Scheduling cfg i l₀ l₁ s (s'.markRegRaw p i j) := by
  have hne := hold.ne
  have hsame := sameButRegisters_markRegRaw p i j s'
  have hstages := stages_markRegRaw (s := s') (j := j) hne
  have hmemory := hsame.field RobEntry.isMemory fun _ => rfl
  have hnum : ∀ k, k ≠ i → ((s'.markRegRaw p i j).rob.entry k).numRegDependent =
      (s'.rob.entry k).numRegDependent := fun k hk => by
    rw [numRegDependent_markRegRaw hne, if_neg hk]
  have hreadied : ∀ k, (s'.markRegRaw p i j).Readied cfg k ↔ s'.Readied cfg k := by
    intro k
    rw [Readied, Readied, hsame.ring.live, (hstages k).1, hmemory]
    by_cases hk : k = i
    · subst hk
      simp [h.unscheduled]
    · rw [hnum k hk]
  refine ⟨⟨h.wakeup.inOrder.of_same hsame (fun k hk => .inl ?_) fun k hk => ?_,
    h.wakeup.recorded.markRegRaw hold hexec hcheck,
    h.wakeup.queued.congr rfl rfl (fun k => ?_) fun k hk hm hx => ?_⟩, ?_, h.same.trans hsame, ?_⟩
  · rwa [(hstages k).1] at hk
  · rw [(hstages k).2] at hk
    rw [(hstages k).1]
    exact h.wakeup.inOrder.scheduled k hk
  · rw [hreadied, (hstages k).2]
  · rw [(hstages k).2] at hx
    have hki : k ≠ i := by
      rintro rfl
      exact h.wakeup.inOrder.scheduled k hx h.unscheduled
    rw [hnum k hki]
    rw [hmemory] at hm
    exact h.wakeup.queued.issued k (hsame.ring.live.1 hk) hm hx
  · rw [(hstages i).1, h.unscheduled]
  · have hadds : Adds cfg [] s' (s'.markRegRaw p i j) :=
      ⟨fun k => by simp [hreadied], by simp, List.nodup_nil⟩
    exact h.adds.trans hadds

/-- `reg_dependency` records the dependences of the instruction. -/
theorem Scheduling.regDependency (h : Scheduling cfg i l₀ l₁ s s') (hi : s'.Live cfg i) :
    Scheduling cfg i l₀ l₁ s (s'.regDependency cfg i) := by
  have hring := h.wakeup.inOrder.ring
  suffices hmain : Scheduling cfg i l₀ l₁ s (s'.regDependency cfg i) ∧
      SameRing s' (s'.regDependency cfg i) from hmain.1
  -- the invariant of the loop over the older instructions
  refine List.foldlRecOn (motive := fun t => Scheduling cfg i l₀ l₁ s t ∧ SameRing s' t) _ _
    ⟨h, .refl _⟩ fun t ht p hp => ?_
  have hold : ∀ {t : O3Cpu}, SameRing s' t → t.Older cfg p i := fun hr =>
    hr.older.2 (older_of_mem_priors hring hi hp)
  split
  · rename_i hexec
    -- and that of the loop over the sources, where the producer is not completed
    have hinner : ∀ l : List (Fin numInstrSources), ∀ t : O3Cpu,
        (Scheduling cfg i l₀ l₁ s t ∧ SameRing s' t) ∧ (t.rob.entry p).executed ≠ .completed →
        Scheduling cfg i l₀ l₁ s (l.foldl (fun s j =>
            if s.needsProducer i j then s.regRawDependency p i j else s) t) ∧
          SameRing s' (l.foldl (fun s j =>
            if s.needsProducer i j then s.regRawDependency p i j else s) t) := by
      intro l
      induction l with
      | nil => exact fun t ht => ht.1
      | cons j l ih =>
        rintro t ⟨⟨ht, hr⟩, hx⟩
        rw [List.foldl_cons]
        refine ih _ ?_
        split
        · rename_i hneeds
          rw [regRawDependency]
          split
          · refine ⟨⟨ht.markRegRaw (hold hr) hx hneeds.2,
              hr.trans (sameButRegisters_markRegRaw p i j t).ring⟩, ?_⟩
            rw [(stages_markRegRaw (hold hr).ne p).2]
            exact hx
          · exact ⟨⟨ht, hr⟩, hx⟩
        · exact ⟨⟨ht, hr⟩, hx⟩
    exact hinner _ t ⟨ht, hexec⟩
  · exact ht

/-- The first step of `do_scheduling`. -/
theorem Wakeup.scheduling (h : s.Wakeup cfg none [] l₀ l₁) (hi : s.Live cfg i)
    (hs : (s.rob.entry i).scheduled = .none) :
    Scheduling cfg i l₀ l₁ s (s.modifyRob i fun e => { e with regReady := true }) := by
  have hsame : SameButRegisters s (s.modifyRob i fun e => { e with regReady := true }) :=
    sameButRegisters_modifyRob fun _ => rfl
  have hstages : ∀ k, ((s.modifyRob i fun e => { e with regReady := true }).rob.entry k).scheduled =
        (s.rob.entry k).scheduled ∧
      ((s.modifyRob i fun e => { e with regReady := true }).rob.entry k).executed =
        (s.rob.entry k).executed ∧
      ((s.modifyRob i fun e => { e with regReady := true }).rob.entry k).numRegDependent =
        (s.rob.entry k).numRegDependent := by
    intro k
    rw [entry_modifyRob]
    split <;> exact ⟨rfl, rfl, rfl⟩
  have hreadied : ∀ k, (s.modifyRob i fun e => { e with regReady := true }).Readied cfg k ↔
      s.Readied cfg k := by
    intro k
    rw [Readied, Readied, hsame.ring.live, (hstages k).1, (hstages k).2.2,
      hsame.field RobEntry.isMemory fun _ => rfl]
  have hrecords : SameRecords s (s.modifyRob i fun e => { e with regReady := true }) :=
    sameRecords_modifyRob (fun _ => ⟨rfl, rfl, rfl, rfl, rfl⟩) Iff.rfl
  refine ⟨⟨h.inOrder.of_same hsame (fun k hk => .inl ?_) fun k hk => ?_,
    hrecords.recorded h.recorded (fun k hk => ?_) fun k hk hsk => ?_,
    h.queued.congr rfl rfl (fun k => ?_) fun k hk hm hx => ?_⟩, ?_, hsame, ?_⟩
  · rwa [(hstages k).1] at hk
  · rw [(hstages k).2.1] at hk
    rw [(hstages k).1]
    exact h.inOrder.scheduled k hk
  · rw [(hstages k).1]
    exact hk.imp id fun hk => absurd hk (by simp)
  · by_cases hki : k = i
    · subst hki
      rw [entry_modifyRob_self]
      simp [h.recorded.count_eq_zero hi hs]
    · rw [entry_modifyRob_of_ne hki] at hsk ⊢
      have hsk : (s.rob.entry k).scheduled ≠ .none :=
        hsk.resolve_right fun heq => hki (Option.some.inj heq).symm
      exact h.recorded.ready k hk (.inl hsk)
  · rw [hreadied, (hstages k).2.1]
  · rw [(hstages k).2.1] at hx
    rw [(hstages k).2.2]
    rw [hsame.field RobEntry.isMemory fun _ => rfl] at hm
    exact h.queued.issued k (hsame.ring.live.1 hk) hm hx
  · rw [(hstages i).1, hs]
  · exact ⟨fun k => by simp [hreadied], by simp, List.nodup_nil⟩

/-- The instruction is scheduled, and nothing else changes. -/
structure Finishes (f : RobEntry → RobEntry) : Prop where
  same : ∀ e, withoutRegisters (f e) = withoutRegisters e
  records : ∀ e, (f e).registersIndexDependOnMe = e.registersIndexDependOnMe ∧
    (f e).registersInstrsDependOnMe = e.registersInstrsDependOnMe ∧
    (f e).regRawProducer = e.regRawProducer ∧ (f e).regRawChecked = e.regRawChecked ∧
    (f e).numRegDependent = e.numRegDependent
  executed : ∀ e, (f e).executed = e.executed
  ready : ∀ e, (f e).regReady = e.regReady
  scheduled : ∀ e, (f e).scheduled ≠ .none

/-- The last step of `do_scheduling`, before the instruction is put into RTE1. -/
theorem Scheduling.finish {f : RobEntry → RobEntry} (h : Scheduling cfg i l₀ l₁ s s')
    (hf : Finishes f) (hi : s'.Live cfg i) (hfetched : (s'.rob.entry i).fetched = .completed) :
    Belongs cfg i ((s'.rob.entry i).isMemory = false ∧ (s'.rob.entry i).numRegDependent = 0)
      [] l₀ l₁ s (s'.modifyRob i f) := by
  have hsame := sameButRegisters_modifyRob (s := s') (i := i) hf.same
  have hmemory := hsame.field RobEntry.isMemory fun _ => rfl
  have hexec : ∀ k, ((s'.modifyRob i f).rob.entry k).executed = (s'.rob.entry k).executed := by
    intro k
    rw [entry_modifyRob]
    split
    · exact hf.executed _
    · rfl
  have hnum : ∀ k, ((s'.modifyRob i f).rob.entry k).numRegDependent =
      (s'.rob.entry k).numRegDependent := by
    intro k
    rw [entry_modifyRob]
    split
    · exact (hf.records _).2.2.2.2
    · rfl
  have hkeeps : ∀ k, (s'.rob.entry k).scheduled ≠ .none →
      ((s'.modifyRob i f).rob.entry k).scheduled ≠ .none := by
    intro k hk
    rw [entry_modifyRob]
    split
    · exact hf.scheduled _
    · exact hk
  have hnone : (s'.rob.entry i).executed = .none := by
    by_contra hne
    exact h.wakeup.inOrder.scheduled i hne h.unscheduled
  have hreadied : ∀ k, (s'.modifyRob i f).Readied cfg k ↔ s'.Readied cfg k ∨
      k = i ∧ (s'.rob.entry i).isMemory = false ∧ (s'.rob.entry i).numRegDependent = 0 := by
    intro k
    rw [Readied, Readied, hsame.ring.live, hmemory, hnum]
    by_cases hki : k = i
    · subst hki
      rw [entry_modifyRob_self]
      simp [hf.scheduled, h.unscheduled, hi]
    · rw [entry_modifyRob_of_ne hki]
      simp [hki]
  refine
    { inOrder := h.wakeup.inOrder.of_same hsame (fun k hk => ?_) fun k hk => ?_
      recorded := (sameRecords_modifyRob hf.records (by rw [hf.executed])).recorded
        h.wakeup.recorded (fun k hk => .inl ?_) fun k hk hsk => ?_
      same := h.same.trans hsame
      readied := fun k => ?_
      rte0 := h.wakeup.queued.rte0
      rte1 := h.wakeup.queued.rte1
      nodup := h.wakeup.queued.nodup
      fresh := fun hmem => ((h.wakeup.queued.mem i).1 hmem).1.2.2.1 h.unscheduled
      mem := fun k => ?_
      issued := fun k hk hm hx => ?_ }
  · by_cases hki : k = i
    · exact .inr (hki ▸ ⟨hi, hfetched⟩)
    · rw [entry_modifyRob_of_ne hki] at hk
      exact .inl hk
  · rw [hexec] at hk
    exact hkeeps k (h.wakeup.inOrder.scheduled k hk)
  · rcases hk with hk | hk
    · exact hkeeps k hk
    · obtain rfl : i = k := Option.some.inj hk
      rw [entry_modifyRob_self]
      exact hf.scheduled _
  · by_cases hki : k = i
    · subst hki
      rw [entry_modifyRob_self, hf.ready]
      exact h.wakeup.recorded.ready k hk (.inr rfl)
    · rw [entry_modifyRob_of_ne hki] at hsk ⊢
      exact h.wakeup.recorded.ready k hk (.inl (hsk.resolve_right (by simp)))
  · rw [hreadied, h.adds.readied, or_iff_left (List.not_mem_nil)]
  · rw [h.wakeup.queued.mem, hreadied, hexec, or_and_right]
    refine or_congr Iff.rfl ⟨fun hk => hk.1, fun hk => ⟨hk, ?_⟩⟩
    rw [hk.1, hnone]
  · rw [hmemory] at hm
    rw [hexec] at hx
    rw [hnum]
    exact h.wakeup.queued.issued k (hsame.ring.live.1 hk) hm hx

/-- A step that writes no instruction keeps what holds while one is scheduled. -/
theorem Scheduling.congr (h : Scheduling cfg i l₀ l₁ s s') (hsame : SameButRegisters s' s'')
    (hentry : s''.rob.entry = s'.rob.entry) (h₀ : s''.rte0 = s'.rte0) (h₁ : s''.rte1 = s'.rte1) :
    Scheduling cfg i l₀ l₁ s s'' := by
  obtain ⟨hw, ha⟩ := h.wakeup.congr hsame hentry h₀ h₁
  exact ⟨hw, by rw [hentry, h.unscheduled], h.same.trans hsame, h.adds.trans ha⟩

/-- `do_scheduling` before it schedules the instruction. -/
theorem Wakeup.scheduled (h : s.Wakeup cfg none [] l₀ l₁) (hi : s.Live cfg i)
    (hs : (s.rob.entry i).scheduled = .none) :
    ∃ t, Scheduling cfg i l₀ l₁ s t ∧ s.doScheduling cfg i =
      if (t.rob.entry i).isMemory then
        t.modifyRob i fun e => { e with scheduled := .inflight }
      else
        let t' := t.modifyRob i fun e =>
          { e with
            scheduled := .completed
            eventCycle :=
              if e.eventCycle < t.currentCoreCycle then t.currentCoreCycle + cfg.schedulingLatency
              else e.eventCycle + cfg.schedulingLatency }
        if (t'.rob.entry i).regReady then { t' with rte1 := t'.rte1.push cfg.robSize i }
        else t' := by
  have h₁ := h.scheduling hi hs
  have h₂ := h₁.regDependency (h₁.same.ring.live.2 hi)
  have h₃ : Scheduling cfg i l₀ l₁ s
      { regDependency cfg i (s.modifyRob i fun e => { e with regReady := true }) with
        rob :=
          { (regDependency cfg i (s.modifyRob i fun e => { e with regReady := true })).rob with
            nextSchedule := if i = cfg.robSize - 1 then 0 else i + 1 } } :=
    h₂.congr ⟨⟨rfl, rfl, rfl⟩, fun _ => rfl, rfl, rfl, rfl, rfl, rfl, rfl, rfl, rfl, rfl⟩
      rfl rfl rfl
  exact ⟨_, h₃, rfl⟩

/-- `do_scheduling` finds its slot of RTE1 free. -/
theorem Wakeup.checkedScheduling (h : s.Wakeup cfg none [] l₀ l₁) (hi : s.Live cfg i)
    (hs : (s.rob.entry i).scheduled = .none) (hf : (s.rob.entry i).fetched = .completed) :
    Ends (s.checkedScheduling cfg i) (fun s' => (∃ l₁', s'.Wakeup cfg none [] l₀ l₁') ∧
      SameButRegisters s s' ∧ Adds cfg (if s.goesToRte1 cfg i then [i] else []) s s')
      fun _ => False := by
  obtain ⟨t, ht, heq⟩ := h.scheduled hi hs
  have hit : t.Live cfg i := ht.same.ring.live.2 hi
  have hft : (t.rob.entry i).fetched = .completed := by
    rw [ht.same.field RobEntry.fetched fun _ => rfl, hf]
  have hnot : ¬ s.Readied cfg i := fun hr => hr.2.2.1 hs
  have hready := ht.wakeup.recorded.ready i hit (.inr rfl)
  by_cases hm : (t.rob.entry i).isMemory = true
  · -- a memory instruction goes to no array
    have hfin : Finishes fun e => { e with scheduled := .inflight } :=
      ⟨fun _ => rfl, fun _ => ⟨rfl, rfl, rfl, rfl, rfl⟩, fun _ => rfl, fun _ => rfl,
        fun _ => by simp⟩
    have hsched := ht.finish hfin hit hft
    rw [if_pos hm] at heq
    have hgoes : ¬ s.goesToRte1 cfg i := by
      rw [goesToRte1, heq, entry_modifyRob_self]
      simp [hm]
    rw [O3Cpu.checkedScheduling, if_neg fun hc => hgoes hc.1, if_neg hgoes, heq]
    obtain ⟨hw, ha⟩ := hsched.wakeup (by simp [hm])
    exact .ok ⟨⟨l₁, hw⟩, hsched.same, ha⟩
  · rw [if_neg hm] at heq
    generalize hg : (fun e : RobEntry =>
      { e with
        scheduled := .completed
        eventCycle :=
          if e.eventCycle < t.currentCoreCycle then t.currentCoreCycle + cfg.schedulingLatency
          else e.eventCycle + cfg.schedulingLatency }) = g at heq
    have hfin : Finishes g := by
      subst hg
      exact ⟨fun _ => rfl, fun _ => ⟨rfl, rfl, rfl, rfl, rfl⟩, fun _ => rfl, fun _ => rfl,
        fun _ => by simp⟩
    have hsched := ht.finish hfin hit hft
    have hm' : ((t.modifyRob i g).rob.entry i).isMemory = false := by
      rw [(sameButRegisters_modifyRob (s := t) (i := i) hfin.same).field RobEntry.isMemory
        fun _ => rfl]
      simpa using hm
    simp only [entry_modifyRob_self, hfin.ready] at heq
    by_cases hr : (t.rob.entry i).regReady = true
    · rw [if_pos hr] at heq
      have hlen := (h.queued.length_lt hi hnot).2
      have hgoes : s.goesToRte1 cfg i := by
        rw [goesToRte1, heq]
        exact ⟨hm', by rw [entry_modifyRob_self, hfin.ready, hr]⟩
      have hfree : ¬ (s.rte1.slots s.rte1.tail).isSome = true := by
        rw [h.queued.rte1.slot_tail hlen]
        simp
      rw [O3Cpu.checkedScheduling, if_neg fun hc => hfree hc.2, if_pos hgoes, heq]
      obtain ⟨hw, hsame, ha⟩ := hsched.push ⟨by simpa using hm, hready.1 hr⟩ hnot
        (t := { t.modifyRob i g with rte1 := (t.modifyRob i g).rte1.push cfg.robSize i })
        ⟨⟨rfl, rfl, rfl⟩, fun _ => rfl, rfl, rfl, rfl, rfl, rfl, rfl, rfl, rfl, rfl⟩ rfl
        hsched.rte0 (hsched.rte1.push hlen)
        (by rw [← List.append_assoc]; exact List.perm_append_singleton i (l₀ ++ l₁))
      exact .ok ⟨⟨_, hw⟩, hsame, ha⟩
    · rw [if_neg hr] at heq
      have hgoes : ¬ s.goesToRte1 cfg i := by
        rw [goesToRte1, heq, entry_modifyRob_self, hfin.ready]
        exact fun hc => hr hc.2
      rw [O3Cpu.checkedScheduling, if_neg fun hc => hgoes hc.1, if_neg hgoes, heq]
      obtain ⟨hw, ha⟩ := hsched.wakeup fun hb => hr (hready.2 hb.2)
      exact .ok ⟨⟨l₁, hw⟩, hsched.same, ha⟩

/-- The loops of `schedule_instruction` keep the invariant, and none of their checks fails. -/
theorem Wakeup.checkedFrom (is : List ℕ) (h : s.Wakeup cfg none [] l₀ l₁) :
    Ends (s.checkedFrom cfg is) (fun r => (∃ l₁', r.1.Wakeup cfg none [] l₀ l₁') ∧
      SameButRegisters s r.1 ∧ Adds cfg r.2 s r.1) fun _ => False := by
  have hsearched : ∀ (t : O3Cpu) (k : ℕ), SameButRegisters t { t with numSearched := k } :=
    fun t k => ⟨⟨rfl, rfl, rfl⟩, fun _ => rfl, rfl, rfl, rfl, rfl, rfl, rfl, rfl, rfl, rfl⟩
  induction is generalizing s l₁ with
  | nil => exact .ok ⟨⟨l₁, h⟩, .refl s, .refl s⟩
  | cons i is ih =>
    rw [O3Cpu.checkedFrom]
    by_cases hstop : s.stopsAt cfg i
    · rw [if_pos hstop]
      exact .ok ⟨⟨l₁, h⟩, .refl s, .refl s⟩
    rw [if_neg hstop]
    rw [stopsAt, not_or, not_not] at hstop
    have hi : s.Live cfg i := by
      by_contra hfree
      exact absurd hstop.1 (by simp [(h.inOrder.blank i hfree).fetched])
    by_cases hs : (s.rob.entry i).scheduled = .none
    · rw [if_pos hs]
      refine (h.checkedScheduling hi hs hstop.1).bind fun s' hs' => ?_
      obtain ⟨⟨l₁', hw⟩, hsame, ha⟩ := hs'
      obtain ⟨hw', ha'⟩ := hw.congr (hsearched s' (s'.numSearched + 1)) rfl rfl rfl
      refine (ih hw').bind fun r hr => .ok ⟨hr.1, ?_, ?_⟩
      · exact (hsame.trans (hsearched s' _)).trans hr.2.1
      · have hall := (ha.trans ha').trans hr.2.2
        rw [List.append_nil] at hall
        by_cases hg : s.goesToRte1 cfg i
        · rw [if_pos hg] at hall ⊢
          exact hall
        · rw [if_neg hg] at hall ⊢
          exact hall
    · rw [if_neg hs]
      obtain ⟨hw', ha'⟩ := h.congr (hsearched s (s.numSearched + 1)) rfl rfl rfl
      refine (ih hw').mono (fun r hr => ⟨hr.1, (hsearched s _).trans hr.2.1, ?_⟩) fun _ he => he
      exact ha'.trans hr.2.2

/-- `schedule_instruction` keeps the invariant, and no check fails. -/
theorem Wakeup.checkedScheduleInstruction (h : s.Wakeup cfg none [] l₀ l₁) :
    Ends (s.checkedScheduleInstruction cfg) (fun r => (∃ l₁', r.1.Wakeup cfg none [] l₀ l₁') ∧
      SameButRegisters s r.1 ∧ Adds cfg r.2 s r.1) fun _ => False := by
  rw [O3Cpu.checkedScheduleInstruction]
  split
  · exact .ok ⟨⟨l₁, h⟩, .refl s, .refl s⟩
  · have hsame : SameButRegisters s { s with numSearched := 0 } :=
      ⟨⟨rfl, rfl, rfl⟩, fun _ => rfl, rfl, rfl, rfl, rfl, rfl, rfl, rfl, rfl, rfl⟩
    obtain ⟨hw, ha⟩ := h.congr hsame rfl rfl rfl
    exact (hw.checkedFrom _).mono (fun r hr => ⟨hr.1, hsame.trans hr.2.1, ha.trans hr.2.2⟩)
      fun _ he => he

/-! ## The unchecked scheduler -/

/-- The checked loops do what the loops do: the asserts watch the scheduler and steer nothing, so what is
proved of one that passes them is proved of the loops of the core. -/
theorem checkedFrom_eq (is : List ℕ) {r : O3Cpu × List ℕ} (h : s.checkedFrom cfg is = .ok r) :
    r.1 = (s.scheduleFrom cfg is).1 := by
  induction is generalizing s r with
  | nil =>
    cases h
    rfl
  | cons i is ih =>
    rw [O3Cpu.checkedFrom] at h
    rw [scheduleFrom]
    split at h
    · rename_i hstop
      cases h
      rw [if_pos hstop]
    · rename_i hstop
      rw [if_neg hstop]
      split at h
      · rename_i hs
        rw [if_pos hs]
        rw [O3Cpu.checkedScheduling] at h
        split at h
        · cases h
        · cases hr : O3Cpu.checkedFrom cfg is
              { s.doScheduling cfg i with
                numSearched := (s.doScheduling cfg i).numSearched + 1 } with
          | error e =>
            simp [bind, Except.bind, hr] at h
          | ok r' =>
            simp only [bind, Except.bind, hr, Except.ok.injEq] at h
            subst h
            exact ih (r := r') hr
      · rename_i hs
        rw [if_neg hs]
        exact ih h

end

end O3Cpu

end Arishem
