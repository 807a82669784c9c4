import Arishem.Core.Dependences

/-!
# Executing and completing keep the register dependences

An instruction leaves its array when it is executed. When it completes, `reg_RAW_release` visits each
source it is recorded for once; an instruction whose last source is released goes to RTE0, where the
slot at the tail is free.
-/

namespace Arishem

namespace O3Cpu

section
variable {cfg : CoreConfig} {s s' t : O3Cpu} {i p : ℕ} {j : Fin numInstrSources}
  {rest : List (ℕ × Fin numInstrSources)} {l₀ l₁ : List ℕ}

/-! ## Executing -/

/-- An instruction that leaves its array is executed. -/
theorem Wakeup.execute {l₀' l₁' : List ℕ} (h : s.Wakeup cfg none [] l₀ l₁)
    (hperm : (l₀ ++ l₁).Perm (i :: (l₀' ++ l₁'))) (hsame : SameButRegisters s t)
    (hentry : t.rob.entry = (s.doExecution cfg i).rob.entry)
    (h₀ : Ring.Holds cfg.robSize t.rte0.slots t.rte0.head t.rte0.tail l₀')
    (h₁ : Ring.Holds cfg.robSize t.rte1.slots t.rte1.head t.rte1.tail l₁') :
    t.Wakeup cfg none [] l₀' l₁' ∧ Adds cfg [] s t := by
  obtain ⟨hready, hnone⟩ := (h.queued.mem i).1 (hperm.mem_iff.2 (List.mem_cons_self ..))
  obtain ⟨hfresh, hn⟩ := List.nodup_cons.1 (hperm.nodup_iff.1 h.queued.nodup)
  have hother : ∀ k, k ≠ i → t.rob.entry k = s.rob.entry k := fun k hk => by
    rw [hentry, doExecution, entry_modifyRob_of_ne hk]
  have hself : t.rob.entry i = (s.doExecution cfg i).rob.entry i := by rw [hentry]
  have hexec : (t.rob.entry i).executed = .inflight := by
    rw [hself, doExecution, entry_modifyRob_self]
  have hfield : ∀ {β : Type} (g : RobEntry → β),
      g ((s.doExecution cfg i).rob.entry i) = g (s.rob.entry i) →
      ∀ k, g (t.rob.entry k) = g (s.rob.entry k) := by
    intro β g hg k
    by_cases hk : k = i
    · rw [hk, hself, hg]
    · rw [hother k hk]
  have hsched : ∀ k, (t.rob.entry k).scheduled = (s.rob.entry k).scheduled :=
    hfield _ (by rw [doExecution, entry_modifyRob_self])
  have hnum : ∀ k, (t.rob.entry k).numRegDependent = (s.rob.entry k).numRegDependent :=
    hfield _ (by rw [doExecution, entry_modifyRob_self])
  have hregs : ∀ k, (t.rob.entry k).regReady = (s.rob.entry k).regReady :=
    hfield _ (by rw [doExecution, entry_modifyRob_self])
  have hmemory := hsame.field RobEntry.isMemory fun _ => rfl
  have hrecords : SameRecords s t :=
    ⟨hsame.ring, hfield _ (by rw [doExecution, entry_modifyRob_self]),
      hfield _ (by rw [doExecution, entry_modifyRob_self]),
      hfield _ (by rw [doExecution, entry_modifyRob_self]),
      hfield _ (by rw [doExecution, entry_modifyRob_self]), hnum, fun k => by
        by_cases hk : k = i
        · rw [hk, hexec, hnone]
          simp
        · rw [hother k hk]⟩
  have hreadied : ∀ k, t.Readied cfg k ↔ s.Readied cfg k := fun k => by
    rw [Readied, Readied, hsame.ring.live, hsched, hnum, hmemory]
  refine ⟨⟨h.inOrder.of_same hsame (fun k hk => .inl ?_) fun k hk => ?_,
    hrecords.recorded h.recorded (fun k hk => ?_) fun k hk hsk => ?_,
    h₀, h₁, hn, fun k => ?_, fun k hk hm hx => ?_⟩,
    fun k => by simp [hreadied], by simp, List.nodup_nil⟩
  · rwa [hsched] at hk
  · rw [hsched]
    by_cases hki : k = i
    · exact hki ▸ hready.2.2.1
    · rw [hother k hki] at hk
      exact h.inOrder.scheduled k hk
  · rwa [hsched]
  · rw [hsched] at hsk
    rw [hregs]
    exact h.recorded.ready k hk hsk
  · by_cases hki : k = i
    · subst hki
      simp [hfresh, hexec]
    · rw [hreadied, hother k hki, ← h.queued.mem, hperm.mem_iff, List.mem_cons]
      simp [hki]
  · rw [hnum]
    by_cases hki : k = i
    · exact hki ▸ hready.2.2.2
    · rw [hother k hki] at hx
      rw [hmemory] at hm
      exact h.queued.issued k (hsame.ring.live.1 hk) hm hx

theorem sameButRegisters_doExecution (i : ℕ) (s : O3Cpu) :
    SameButRegisters s (s.doExecution cfg i) := by
  obtain ⟨h₁, h₂, h₃, h₄, h₅, h₆, h₇, h₈, h₉, h₁₀, h₁₁⟩ :
      SameButRegisters s (s.modifyRob i fun e =>
        { e with
          executed := .inflight
          eventCycle :=
            if e.eventCycle < s.currentCoreCycle then s.currentCoreCycle + cfg.execLatency
            else e.eventCycle + cfg.execLatency }) := sameButRegisters_modifyRob fun _ => rfl
  exact ⟨⟨h₁.1, h₁.2, h₁.3⟩, h₂, h₃, h₄, h₅, h₆, h₇, h₈, h₉, h₁₀, h₁₁⟩

/-- A loop of `execute_instruction` keeps the invariant. -/
theorem Wakeup.executeReady (r : ReadyToExecute) (k issued : ℕ)
    (h : s.Wakeup cfg none [] l₀ l₁) :
    (∃ l₀' l₁', (s.executeReady cfg r k issued).1.Wakeup cfg none [] l₀' l₁') ∧
      SameButRegisters s (s.executeReady cfg r k issued).1 ∧
      Adds cfg [] s (s.executeReady cfg r k issued).1 := by
  induction k generalizing s l₀ l₁ issued with
  | zero => exact ⟨⟨l₀, l₁, h⟩, .refl s, .refl s⟩
  | succ k ih =>
    rw [O3Cpu.executeReady]
    split
    · exact ⟨⟨l₀, l₁, h⟩, .refl s, .refl s⟩
    split
    · exact ⟨⟨l₀, l₁, h⟩, .refl s, .refl s⟩
    rename_i i hi
    split
    · have hdo := @sameButRegisters_doExecution cfg i s
      -- the head of the list leaves the array
      have hstep : ∃ l₀' l₁', ((s.doExecution cfg i).setReadyArray
          ((s.readyArray r).pop cfg.robSize) r).Wakeup cfg none [] l₀' l₁' ∧
          SameButRegisters s ((s.doExecution cfg i).setReadyArray
            ((s.readyArray r).pop cfg.robSize) r) ∧
          Adds cfg [] s ((s.doExecution cfg i).setReadyArray
            ((s.readyArray r).pop cfg.robSize) r) := by
        cases r with
        | rte0 =>
          have hhead := h.queued.rte0.slot_head
          cases l₀ with
          | nil =>
            rw [readyArray] at hi
            simp [hi] at hhead
          | cons x l₀ =>
            rw [readyArray] at hi
            obtain rfl : i = x := by simpa [hi] using hhead
            have hsame : SameButRegisters s ((s.doExecution cfg i).setReadyArray
                (s.rte0.pop cfg.robSize) .rte0) := hdo.trans
              ⟨⟨rfl, rfl, rfl⟩, fun _ => rfl, rfl, rfl, rfl, rfl, rfl, rfl, rfl, rfl, rfl⟩
            obtain ⟨hw, ha⟩ := h.execute (List.Perm.refl _) hsame rfl h.queued.rte0.pop
              h.queued.rte1
            exact ⟨_, _, hw, hsame, ha⟩
        | rte1 =>
          have hhead := h.queued.rte1.slot_head
          cases l₁ with
          | nil =>
            rw [readyArray] at hi
            simp [hi] at hhead
          | cons x l₁ =>
            rw [readyArray] at hi
            obtain rfl : i = x := by simpa [hi] using hhead
            have hsame : SameButRegisters s ((s.doExecution cfg i).setReadyArray
                (s.rte1.pop cfg.robSize) .rte1) := hdo.trans
              ⟨⟨rfl, rfl, rfl⟩, fun _ => rfl, rfl, rfl, rfl, rfl, rfl, rfl, rfl, rfl, rfl⟩
            obtain ⟨hw, ha⟩ := h.execute List.perm_middle hsame rfl h.queued.rte0
              h.queued.rte1.pop
            exact ⟨_, _, hw, hsame, ha⟩
      obtain ⟨l₀', l₁', hw, hsame, ha⟩ := hstep
      obtain ⟨hw', hsame', ha'⟩ := ih (issued + 1) hw
      exact ⟨hw', hsame.trans hsame', ha.trans ha'⟩
    · exact ih issued h

/-- `execute_instruction` keeps the invariant. -/
theorem Wakeup.executeInstruction (h : s.Wakeup cfg none [] l₀ l₁) :
    (∃ l₀' l₁', (s.executeInstruction cfg).Wakeup cfg none [] l₀' l₁') ∧
      SameButRegisters s (s.executeInstruction cfg) ∧
      Adds cfg [] s (s.executeInstruction cfg) := by
  rw [O3Cpu.executeInstruction]
  split
  · exact ⟨⟨l₀, l₁, h⟩, .refl s, .refl s⟩
  · obtain ⟨⟨l₀', l₁', hw⟩, hsame, ha⟩ := h.executeReady .rte0 (cfg.robSize - 1) 0
    obtain ⟨hw', hsame', ha'⟩ := hw.executeReady .rte1 (cfg.robSize - 1)
      (s.executeReady cfg .rte0 (cfg.robSize - 1) 0).2
    exact ⟨hw', hsame.trans hsame', ha.trans ha'⟩

/-! ## Completing -/

theorem mem_dependents (hr : s.Recorded cfg none rest) (p : ℕ) :
    (i, j) ∈ s.dependents cfg p ↔ i ∈ (s.rob.entry p).registersIndexDependOnMe j := by
  simp only [dependents, expand, List.mem_flatMap, List.mem_filter, List.mem_range,
    decide_eq_true_eq, List.mem_map, List.mem_finRange, true_and, Prod.mk.injEq]
  constructor
  · rintro ⟨i', -, j', hj', rfl, rfl⟩
    exact hj'
  · intro hi
    exact ⟨i, ⟨(hr.live hi).1, (hr.instrs p i).2 ⟨j, hi⟩⟩, j, hi, rfl, rfl⟩

theorem nodup_dependents (p : ℕ) (s : O3Cpu) : (s.dependents cfg p).Nodup := by
  rw [dependents, List.nodup_flatMap]
  refine ⟨fun i _ => ?_, ?_⟩
  · exact (List.Nodup.filter _ (List.nodup_finRange _)).map fun a b hab => by simpa using hab
  · refine List.Pairwise.imp ?_ (List.Nodup.filter _ List.nodup_range)
    intro a b hab x hx hx'
    obtain ⟨_, -, rfl⟩ := List.mem_map.1 hx
    obtain ⟨_, -, hx'⟩ := List.mem_map.1 hx'
    exact hab (congrArg Prod.fst hx').symm

/-- An instruction completes; the sources it is recorded for have still to be released. -/
theorem Wakeup.complete (h : s.Wakeup cfg none [] l₀ l₁)
    (hexec : (s.rob.entry p).executed = .inflight) (hsame : SameButRegisters s t)
    (hentry : t.rob.entry =
      (s.modifyRob p fun e => { e with executed := .completed }).rob.entry)
    (h₀ : t.rte0 = s.rte0) (h₁ : t.rte1 = s.rte1) :
    t.Wakeup cfg none (t.dependents cfg p) l₀ l₁ ∧ Adds cfg [] s t := by
  have hfield : ∀ {β : Type} (g : RobEntry → β), (∀ e, g { e with executed := .completed } = g e) →
      ∀ k, g (t.rob.entry k) = g (s.rob.entry k) := by
    intro β g hg k
    rw [hentry, entry_modifyRob]
    split
    · exact hg _
    · rfl
  have hself : (t.rob.entry p).executed = .completed := by rw [hentry, entry_modifyRob_self]
  have hother : ∀ k, k ≠ p → (t.rob.entry k).executed = (s.rob.entry k).executed := fun k hk => by
    rw [hentry, entry_modifyRob_of_ne hk]
  have hnone : ∀ k, (t.rob.entry k).executed = .none ↔ (s.rob.entry k).executed = .none := by
    intro k
    by_cases hk : k = p
    · rw [hk, hself, hexec]
      simp
    · rw [hother k hk]
  have hindex := hfield RobEntry.registersIndexDependOnMe fun _ => rfl
  have hsched := hfield RobEntry.scheduled fun _ => rfl
  have hnum := hfield RobEntry.numRegDependent fun _ => rfl
  have hmemory := hsame.field RobEntry.isMemory fun _ => rfl
  have hdep : ∀ {i : ℕ} {j : Fin numInstrSources}, (i, j) ∈ t.dependents cfg p ↔
      i ∈ (s.rob.entry p).registersIndexDependOnMe j := by
    intro i j
    have heq : t.dependents cfg p = s.dependents cfg p := by
      rw [dependents, dependents, hindex, hfield RobEntry.registersInstrsDependOnMe fun _ => rfl]
    rw [heq, mem_dependents h.recorded]
  -- a source recorded by the completed instruction was waited for, and has now to be released
  have hwaiting : ∀ i, t.waiting (t.dependents cfg p) i = s.waiting [] i := by
    intro i
    ext j
    rw [mem_waiting, mem_waiting, Waits, Waits, hdep]
    simp only [hindex, List.not_mem_nil, or_false]
    constructor
    · rintro (⟨q, hq, hx⟩ | hq)
      · have hqp : q ≠ p := fun heq => hx (heq ▸ hself)
        exact ⟨q, hq, by rwa [hother q hqp] at hx⟩
      · exact ⟨p, hq, by rw [hexec]; simp⟩
    · rintro ⟨q, hq, hx⟩
      by_cases hqp : q = p
      · exact .inr (hqp ▸ hq)
      · exact .inl ⟨q, hq, by rwa [hother q hqp]⟩
  have hreadied : ∀ k, t.Readied cfg k ↔ s.Readied cfg k := fun k => by
    rw [Readied, Readied, hsame.ring.live, hsched, hnum, hmemory]
  have hr := h.recorded
  refine ⟨⟨h.inOrder.of_same hsame (fun k hk => .inl ?_) fun k hk => ?_,
    ⟨fun q i j hi => ?_, fun q i j hi => ?_, fun q i j hi => ?_, fun q q' i j hi hi' => ?_,
      fun q i => ?_, fun q i hi => ?_, fun i j hi => ?_, fun i hi => ?_, fun i hi hs => ?_⟩,
    h.queued.congr h₀ h₁ (fun k => ?_) fun k hk hm hx => ?_⟩,
    fun k => by simp [hreadied], by simp, List.nodup_nil⟩
  · rwa [hsched] at hk
  · rw [hsched]
    exact h.inOrder.scheduled k (fun hx => hk ((hnone k).2 hx))
  · rw [hindex] at hi
    exact hsame.ring.older.2 (hr.older q i j hi)
  · rw [hindex] at hi
    rw [hsched]
    exact hr.scheduled q i j hi
  · rw [hindex] at hi
    rw [hfield RobEntry.regRawChecked fun _ => rfl]
    exact hr.checked q i j hi
  · rw [hindex] at hi hi'
    exact hr.unique q q' i j hi hi'
  · rw [hindex, hfield RobEntry.registersInstrsDependOnMe fun _ => rfl]
    exact hr.instrs q i
  · rw [hfield RobEntry.registersInstrsDependOnMe fun _ => rfl] at hi
    rw [hfield RobEntry.regRawProducer fun _ => rfl]
    exact hr.producer q i hi
  · exact ⟨p, by rw [hindex]; exact hdep.1 hi, hself⟩
  · rw [hnum, hwaiting]
    exact hr.count i (hsame.ring.live.1 hi)
  · rw [hsched] at hs
    rw [hnum, hfield RobEntry.regReady fun _ => rfl]
    exact hr.ready i (hsame.ring.live.1 hi) hs
  · rw [hreadied, hnone]
  · rw [hnum]
    rw [hmemory] at hm
    exact h.queued.issued k (hsame.ring.live.1 hk) hm fun hn => hx ((hnone k).2 hn)

/-- A source of an instruction is released, which leaves its other fields alone. -/
structure Releases (i : ℕ) (s t : O3Cpu) : Prop where
  same : SameButRegisters s t
  others : ∀ k, k ≠ i → t.rob.entry k = s.rob.entry k
  index : (t.rob.entry i).registersIndexDependOnMe = (s.rob.entry i).registersIndexDependOnMe
  instrs : (t.rob.entry i).registersInstrsDependOnMe = (s.rob.entry i).registersInstrsDependOnMe
  producer : (t.rob.entry i).regRawProducer = (s.rob.entry i).regRawProducer
  checked : (t.rob.entry i).regRawChecked = (s.rob.entry i).regRawChecked
  executed : (t.rob.entry i).executed = (s.rob.entry i).executed
  count : (t.rob.entry i).numRegDependent = (s.rob.entry i).numRegDependent - 1
  scheduled : (t.rob.entry i).scheduled ≠ .none
  ready : (t.rob.entry i).regReady = true ↔ (t.rob.entry i).numRegDependent = 0
  rte0 : t.rte0 = s.rte0
  rte1 : t.rte1 = s.rte1

/-- What is known of an instruction with a source that has to be released. -/
theorem Wakeup.unreleased (h : s.Wakeup cfg none ((i, j) :: rest) l₀ l₁) (hn : (i, j) ∉ rest) :
    s.Live cfg i ∧ (s.rob.entry i).scheduled ≠ .none ∧ j ∉ s.waiting rest i ∧
      (∀ k, s.waiting ((i, j) :: rest) k =
        if k = i then insert j (s.waiting rest k) else s.waiting rest k) := by
  obtain ⟨p, hp, hx⟩ := h.recorded.released i j (List.mem_cons_self ..)
  refine ⟨h.recorded.live hp, (h.recorded.scheduled p i j hp).resolve_right (by simp), ?_,
    fun k => ?_⟩
  · rw [mem_waiting]
    rintro (⟨q, hq, hxq⟩ | hr)
    · exact hxq (h.recorded.unique p q i j hp hq ▸ hx)
    · exact hn hr
  · ext j'
    rw [mem_waiting, Waits, List.mem_cons, Prod.mk.injEq]
    split
    · rename_i hk
      subst hk
      rw [Finset.mem_insert, mem_waiting, Waits, or_left_comm]
      simp only [true_and]
    · rename_i hk
      rw [mem_waiting, Waits]
      simp only [hk, false_and, false_or]

/-- After a source was released the instruction waits for one source less, and it belongs into RTE0
when that was the last. -/
theorem Wakeup.release (h : s.Wakeup cfg none ((i, j) :: rest) l₀ l₁) (hn : (i, j) ∉ rest)
    (ht : Releases i s t) : ¬ s.Readied cfg i ∧
    Belongs cfg i ((t.rob.entry i).isMemory = false ∧ (t.rob.entry i).numRegDependent = 0)
      rest l₀ l₁ s t := by
  obtain ⟨hi, hsi, hj, hwaiting⟩ := h.unreleased hn
  have hr := h.recorded
  have hcount := hr.count i hi
  rw [hwaiting, if_pos rfl, Finset.card_insert_of_notMem hj] at hcount
  have hpos : (s.rob.entry i).numRegDependent ≠ 0 := by omega
  have hnot : ¬ s.Readied cfg i := fun hc => hpos hc.2.2.2
  have hfield : ∀ {β : Type} (g : RobEntry → β), g (t.rob.entry i) = g (s.rob.entry i) →
      ∀ k, g (t.rob.entry k) = g (s.rob.entry k) := by
    intro β g hg k
    by_cases hk : k = i
    · rw [hk, hg]
    · rw [ht.others k hk]
  have hindex := hfield RobEntry.registersIndexDependOnMe ht.index
  have hinstrs := hfield RobEntry.registersInstrsDependOnMe ht.instrs
  have hexec := hfield RobEntry.executed ht.executed
  have hmemory := ht.same.field RobEntry.isMemory fun _ => rfl
  have hsched : ∀ k, (t.rob.entry k).scheduled ≠ .none ↔ (s.rob.entry k).scheduled ≠ .none := by
    intro k
    by_cases hk : k = i
    · rw [hk]
      exact ⟨fun _ => hsi, fun _ => ht.scheduled⟩
    · rw [ht.others k hk]
  have hwait : ∀ k, t.waiting rest k = s.waiting rest k := by
    intro k
    ext j'
    simp only [mem_waiting, Waits, hindex, hexec]
  have hlive : ∀ k, t.Live cfg k ↔ s.Live cfg k := fun k => ht.same.ring.live
  have hreadied : ∀ k, t.Readied cfg k ↔ s.Readied cfg k ∨
      k = i ∧ (t.rob.entry i).isMemory = false ∧ (t.rob.entry i).numRegDependent = 0 := by
    intro k
    by_cases hk : k = i
    · subst hk
      rw [or_iff_right hnot, Readied, hlive]
      simp [hi, ht.scheduled]
    · rw [Readied, Readied, hlive, ht.others k hk]
      simp [hk]
  refine ⟨hnot,
    { inOrder := h.inOrder.of_same ht.same (fun k hk => .inl ((hsched k).1 hk)) fun k hk => ?_
      recorded := ⟨fun q k j' hk => ?_, fun q k j' hk => ?_, fun q k j' hk => ?_,
        fun q q' k j' hk hk' => ?_, fun q k => ?_, fun q k hk => ?_, fun k j' hk => ?_,
        fun k hk => ?_, fun k hk hs => ?_⟩
      same := ht.same
      readied := hreadied
      rte0 := ht.rte0 ▸ h.queued.rte0
      rte1 := ht.rte1 ▸ h.queued.rte1
      nodup := h.queued.nodup
      fresh := fun hm => hnot ((h.queued.mem i).1 hm).1
      mem := fun k => ?_
      issued := fun k hk hm hx => ?_ }⟩
  · rw [hexec] at hk
    exact (hsched k).2 (h.inOrder.scheduled k hk)
  · rw [hindex] at hk
    exact ht.same.ring.older.2 (hr.older q k j' hk)
  · rw [hindex] at hk
    exact (hr.scheduled q k j' hk).imp (hsched k).2 id
  · rw [hindex] at hk
    rw [hfield RobEntry.regRawChecked ht.checked]
    exact hr.checked q k j' hk
  · rw [hindex] at hk hk'
    exact hr.unique q q' k j' hk hk'
  · rw [hindex, hinstrs]
    exact hr.instrs q k
  · rw [hinstrs] at hk
    rw [hfield RobEntry.regRawProducer ht.producer]
    exact hr.producer q k hk
  · obtain ⟨q, hq, hx⟩ := hr.released k j' (List.mem_cons_of_mem _ hk)
    exact ⟨q, by rwa [hindex], by rwa [hexec]⟩
  · rw [hwait]
    by_cases hki : k = i
    · rw [hki, ht.count, hcount]
      omega
    · rw [ht.others k hki, hr.count k ((hlive k).1 hk), hwaiting, if_neg hki]
  · by_cases hki : k = i
    · rw [hki]
      exact ht.ready
    · rw [ht.others k hki] at hs ⊢
      exact hr.ready k ((hlive k).1 hk) hs
  · rw [hreadied, hexec, h.queued.mem, or_and_right]
    refine or_congr Iff.rfl ⟨fun hk => hk.1, fun hk => ⟨hk, ?_⟩⟩
    -- an instruction that waits is not executed
    by_contra hx
    refine hpos (h.queued.issued i hi ?_ (hk.1 ▸ hx))
    rw [← hmemory]
    exact hk.2.1
  · by_cases hki : k = i
    · subst hki
      rw [hexec] at hx
      rw [hmemory] at hm
      exact absurd (h.queued.issued k hi hm hx) hpos
    · rw [ht.others k hki] at hm hx ⊢
      exact h.queued.issued k ((hlive k).1 hk) hm hx

/-- The writes of `reg_RAW_release` to an instruction. -/
theorem releases_modifyRob {f : RobEntry → RobEntry}
    (hf : ∀ e, withoutRegisters (f e) = withoutRegisters e)
    (hregs : ∀ e, (f e).registersIndexDependOnMe = e.registersIndexDependOnMe ∧
      (f e).registersInstrsDependOnMe = e.registersInstrsDependOnMe ∧
      (f e).regRawProducer = e.regRawProducer ∧ (f e).regRawChecked = e.regRawChecked ∧
      (f e).executed = e.executed ∧ (f e).numRegDependent = e.numRegDependent - 1)
    (hsched : (f (s.rob.entry i)).scheduled ≠ .none)
    (hready : (f (s.rob.entry i)).regReady = true ↔ (f (s.rob.entry i)).numRegDependent = 0) :
    Releases i s (s.modifyRob i f) := by
  obtain ⟨h₁, h₂, h₃, h₄, h₅, h₆⟩ := hregs (s.rob.entry i)
  exact ⟨sameButRegisters_modifyRob hf, fun k hk => entry_modifyRob_of_ne hk,
    by rw [entry_modifyRob_self, h₁], by rw [entry_modifyRob_self, h₂],
    by rw [entry_modifyRob_self, h₃], by rw [entry_modifyRob_self, h₄],
    by rw [entry_modifyRob_self, h₅], by rw [entry_modifyRob_self, h₆],
    by rwa [entry_modifyRob_self], by rwa [entry_modifyRob_self], rfl, rfl⟩

theorem modifyRob_modifyRob (i : ℕ) (f g : RobEntry → RobEntry) (s : O3Cpu) :
    (s.modifyRob i f).modifyRob i g = s.modifyRob i fun e => g (f e) := by
  simp [modifyRob]

/-- `reg_RAW_release` finds its slot of RTE0 free. -/
theorem Wakeup.releaseSource (h : s.Wakeup cfg none ((i, j) :: rest) l₀ l₁)
    (hn : (i, j) ∉ rest) :
    Ends (s.releaseSource cfg i) (fun r => (∃ l₀', r.1.Wakeup cfg none rest l₀' l₁) ∧
      SameButRegisters s r.1 ∧ Adds cfg r.2 s r.1) fun _ => False := by
  obtain ⟨hi, hsi, hj, hwaiting⟩ := h.unreleased hn
  have hcount := h.recorded.count i hi
  rw [hwaiting, if_pos rfl, Finset.card_insert_of_notMem hj] at hcount
  rw [O3Cpu.releaseSource]
  simp only [entry_modifyRob_self, modifyRob_modifyRob]
  by_cases hz : (s.rob.entry i).numRegDependent - 1 = 0
  · rw [if_pos hz]
    by_cases hm : (s.rob.entry i).isMemory = true
    · rw [if_pos hm]
      have hrel : Releases i s (s.modifyRob i fun e =>
          { e with
            numRegDependent := e.numRegDependent - 1, regReady := true
            scheduled := .inflight }) :=
        releases_modifyRob (fun _ => rfl) (fun _ => ⟨rfl, rfl, rfl, rfl, rfl, rfl⟩) (by simp)
          (by simp [hz])
      obtain ⟨hw, ha⟩ := (h.release hn hrel).2.wakeup (by simp [hm])
      exact .ok ⟨⟨l₀, hw⟩, hrel.same, ha⟩
    · rw [if_neg hm]
      have hrel : Releases i s (s.modifyRob i fun e =>
          { e with
            numRegDependent := e.numRegDependent - 1, regReady := true
            scheduled := .completed }) :=
        releases_modifyRob (fun _ => rfl) (fun _ => ⟨rfl, rfl, rfl, rfl, rfl, rfl⟩) (by simp)
          (by simp [hz])
      obtain ⟨hnot, hb⟩ := h.release hn hrel
      have hlen := (h.queued.length_lt hi hnot).1
      have hfree : ¬ (s.rte0.slots s.rte0.tail).isSome = true := by
        rw [h.queued.rte0.slot_tail hlen]
        simp
      split
      · rename_i hc
        exact absurd hc hfree
      obtain ⟨hw, hsame, ha⟩ := hb.push ⟨by simpa using hm, by simpa using hz⟩ hnot
        (t := { s.modifyRob i (fun e =>
            { e with
              numRegDependent := e.numRegDependent - 1, regReady := true
              scheduled := .completed }) with
          rte0 := s.rte0.push cfg.robSize i })
        ⟨⟨rfl, rfl, rfl⟩, fun _ => rfl, rfl, rfl, rfl, rfl, rfl, rfl, rfl, rfl, rfl⟩ rfl
        (h.queued.rte0.push hlen) h.queued.rte1
        (by rw [List.append_assoc]; exact List.perm_middle)
      exact .ok ⟨⟨_, hw⟩, hsame, ha⟩
  · rw [if_neg hz]
    have hready := (h.recorded.ready i hi (.inl hsi)).not
    have hrel : Releases i s (s.modifyRob i fun e =>
        { e with numRegDependent := e.numRegDependent - 1 }) := by
      refine releases_modifyRob (fun _ => rfl) (fun _ => ⟨rfl, rfl, rfl, rfl, rfl, rfl⟩) hsi
        ⟨fun hr => absurd hr (hready.2 ?_), fun hc => absurd hc hz⟩
      omega
    obtain ⟨hw, ha⟩ := (h.release hn hrel).2.wakeup (by simp [hz])
    exact .ok ⟨⟨l₀, hw⟩, hrel.same, ha⟩

/-- The loop of `reg_RAW_release` releases each source once. -/
theorem Wakeup.releaseAll {s₀ : O3Cpu} {is : List ℕ} (l : List (ℕ × Fin numInstrSources))
    (hl : l.Nodup) (h : s.Wakeup cfg none l l₀ l₁) (hsame : SameButRegisters s₀ s)
    (ha : Adds cfg is s₀ s) :
    Ends (l.foldlM (fun (r : O3Cpu × List ℕ) x => do
        let r' ← r.1.releaseSource cfg x.1
        .ok (r'.1, r.2 ++ r'.2)) (s, is))
      (fun r => (∃ l₀', r.1.Wakeup cfg none [] l₀' l₁) ∧ SameButRegisters s₀ r.1 ∧
        Adds cfg r.2 s₀ r.1) fun _ => False := by
  induction l generalizing s l₀ is with
  | nil => exact .ok ⟨⟨l₀, h⟩, hsame, ha⟩
  | cons x l ih =>
    obtain ⟨i, j⟩ := x
    obtain ⟨hx, hl⟩ := List.nodup_cons.1 hl
    rw [List.foldlM_cons]
    have hstep : Ends (do
        let r' ← s.releaseSource cfg i
        .ok (r'.1, is ++ r'.2) : Except CoreFault (O3Cpu × List ℕ))
        (fun r => (∃ l₀', r.1.Wakeup cfg none l l₀' l₁) ∧ SameButRegisters s₀ r.1 ∧
          Adds cfg r.2 s₀ r.1) fun _ => False :=
      (h.releaseSource hx).bind fun r hr => .ok ⟨hr.1, hsame.trans hr.2.1, ha.trans hr.2.2⟩
    refine hstep.bind fun r hr => ?_
    obtain ⟨⟨l₀', hw⟩, hs, hadds⟩ := hr
    exact ih hl hw hs hadds

/-- Completing an instruction writes nothing else that the invariant is about. -/
theorem markCompleted_same : SameButRegisters s (s.markCompleted i) ∧
    (s.markCompleted i).rob = (s.modifyRob i fun e => { e with executed := .completed }).rob ∧
    (s.markCompleted i).rte0 = s.rte0 ∧ (s.markCompleted i).rte1 = s.rte1 := by
  have hdone : SameButRegisters s (s.modifyRob i fun e => { e with executed := .completed }) :=
    sameButRegisters_modifyRob fun _ => rfl
  rw [markCompleted]
  split
  · exact ⟨hdone.trans ⟨⟨rfl, rfl, rfl⟩, fun _ => rfl, rfl, rfl, rfl, rfl, rfl, rfl, rfl, rfl,
      rfl⟩, rfl, rfl, rfl⟩
  · exact ⟨hdone.trans ⟨⟨rfl, rfl, rfl⟩, fun _ => rfl, rfl, rfl, rfl, rfl, rfl, rfl, rfl, rfl,
      rfl⟩, rfl, rfl, rfl⟩

/-- `complete_execution` keeps the invariant, and no check of `reg_RAW_release` fails. -/
theorem Wakeup.completeExecution (h : s.Wakeup cfg none [] l₀ l₁) (i : ℕ) :
    Ends (s.completeExecution cfg i) (fun r => (∃ l₀', r.1.Wakeup cfg none [] l₀' l₁) ∧
      SameButRegisters s r.1 ∧ Adds cfg r.2 s r.1) fun _ => False := by
  rw [O3Cpu.completeExecution]
  split
  · rename_i hc
    obtain ⟨hsame, hrob, h₀, h₁⟩ := markCompleted_same (s := s) (i := i)
    obtain ⟨hw, ha⟩ := h.complete hc.2.1 hsame (congrArg CoreBuffer.entry hrob) h₀ h₁
    simp only
    split
    · rw [regRawRelease]
      exact hw.releaseAll _ (nodup_dependents i _) hsame ha
    · rename_i hp
      -- an instruction that is no producer has nothing to release
      have hnone : (s.markCompleted i).dependents cfg i = [] := by
        rw [List.eq_nil_iff_forall_not_mem]
        rintro ⟨k, j⟩ hk
        rw [dependents, List.mem_flatMap] at hk
        obtain ⟨k', hk', -⟩ := hk
        have hinstr := (List.mem_filter.1 hk').2
        exact hp (hw.recorded.producer i k' (of_decide_eq_true hinstr))
      rw [hnone] at hw
      exact .ok ⟨⟨l₀, hw⟩, hsame, ha⟩
  · exact .ok ⟨⟨l₀, h⟩, .refl s, .refl s⟩

end

end O3Cpu

end Arishem
