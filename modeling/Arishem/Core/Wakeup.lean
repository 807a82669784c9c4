import Arishem.Core.Places
import Mathlib.Data.Fintype.Basic
import Mathlib.Data.Finset.Card
import Mathlib.Tactic.Push

/-!
# Register dependences

The invariant of the stages that handle registers. Each source of an instruction is recorded in the
sets of at most one older instruction, and the instruction counts those of its recorded sources whose
producer is not completed. An instruction that counts none is ready, and a ready instruction that is
no memory instruction is in one of the two arrays until it is executed. The invariant has two
parameters for the states inside a stage: the instruction that is being scheduled, and the sources
that a completed producer has still to release.
-/

namespace Arishem

namespace O3Cpu

section
variable (cfg : CoreConfig)

/-- The source is recorded by a producer that is not completed, or has still to be released. -/
def Waits (s : O3Cpu) (rest : List (ℕ × Fin numInstrSources)) (i : ℕ)
    (j : Fin numInstrSources) : Prop :=
  (∃ p, i ∈ (s.rob.entry p).registersIndexDependOnMe j ∧
    (s.rob.entry p).executed ≠ .completed) ∨ (i, j) ∈ rest

open Classical in
/-- The sources that an instruction waits for. -/
noncomputable def waiting (s : O3Cpu) (rest : List (ℕ × Fin numInstrSources)) (i : ℕ) :
    Finset (Fin numInstrSources) :=
  Finset.univ.filter (s.Waits rest i)

/-- What is known of a free slot. -/
structure Blank (e : RobEntry) : Prop where
  instrId : e.instrId = 0
  ip : e.ip = 0
  translated : e.translated = .none
  fetched : e.fetched = .none
  scheduled : e.scheduled = .none
  executed : e.executed = .none
  destinationMemory : ∀ d, e.destinationMemory d = 0

/-- The instructions of the reorder buffer are in program order, the other slots are free, and an
instruction is executed after it is scheduled and scheduled after it is fetched. -/
structure InOrder (s : O3Cpu) : Prop where
  ring : s.RingOk cfg
  blank : ∀ i, ¬ s.Live cfg i → Blank (s.rob.entry i)
  ids : ∀ p i, s.Older cfg p i → (s.rob.entry p).instrId < (s.rob.entry i).instrId
  idLt : ∀ i, s.Live cfg i → (s.rob.entry i).instrId < s.instrUniqueId
  scheduled : ∀ i, (s.rob.entry i).executed ≠ .none → (s.rob.entry i).scheduled ≠ .none
  fetched : ∀ i, (s.rob.entry i).scheduled ≠ .none → (s.rob.entry i).fetched = .completed

/-- The records of the producers agree with the counts of the instructions. -/
structure Recorded (cur : Option ℕ) (rest : List (ℕ × Fin numInstrSources)) (s : O3Cpu) :
    Prop where
  older : ∀ p i j, i ∈ (s.rob.entry p).registersIndexDependOnMe j → s.Older cfg p i
  scheduled : ∀ p i j, i ∈ (s.rob.entry p).registersIndexDependOnMe j →
    (s.rob.entry i).scheduled ≠ .none ∨ cur = some i
  checked : ∀ p i j, i ∈ (s.rob.entry p).registersIndexDependOnMe j →
    (s.rob.entry i).regRawChecked j = true
  unique : ∀ p p' i j, i ∈ (s.rob.entry p).registersIndexDependOnMe j →
    i ∈ (s.rob.entry p').registersIndexDependOnMe j → p = p'
  instrs : ∀ p i, i ∈ (s.rob.entry p).registersInstrsDependOnMe ↔
    ∃ j, i ∈ (s.rob.entry p).registersIndexDependOnMe j
  producer : ∀ p i, i ∈ (s.rob.entry p).registersInstrsDependOnMe →
    (s.rob.entry p).regRawProducer = true
  released : ∀ i j, (i, j) ∈ rest → ∃ p, i ∈ (s.rob.entry p).registersIndexDependOnMe j ∧
    (s.rob.entry p).executed = .completed
  count : ∀ i, s.Live cfg i → (s.rob.entry i).numRegDependent = (s.waiting rest i).card
  ready : ∀ i, s.Live cfg i → (s.rob.entry i).scheduled ≠ .none ∨ cur = some i →
    ((s.rob.entry i).regReady = true ↔ (s.rob.entry i).numRegDependent = 0)

/-- The instruction has been put into one of the arrays. -/
def Readied (s : O3Cpu) (i : ℕ) : Prop :=
  s.Live cfg i ∧ (s.rob.entry i).isMemory = false ∧ (s.rob.entry i).scheduled ≠ .none ∧
    (s.rob.entry i).numRegDependent = 0

/-- The two arrays hold the instructions that are ready and not executed, each once. -/
structure Queued (l₀ l₁ : List ℕ) (s : O3Cpu) : Prop where
  rte0 : Ring.Holds cfg.robSize s.rte0.slots s.rte0.head s.rte0.tail l₀
  rte1 : Ring.Holds cfg.robSize s.rte1.slots s.rte1.head s.rte1.tail l₁
  nodup : (l₀ ++ l₁).Nodup
  mem : ∀ i, i ∈ l₀ ++ l₁ ↔ s.Readied cfg i ∧ (s.rob.entry i).executed = .none
  issued : ∀ i, s.Live cfg i → (s.rob.entry i).isMemory = false →
    (s.rob.entry i).executed ≠ .none → (s.rob.entry i).numRegDependent = 0

/-- The invariant of the register stages. -/
structure Wakeup (cur : Option ℕ) (rest : List (ℕ × Fin numInstrSources)) (l₀ l₁ : List ℕ)
    (s : O3Cpu) : Prop where
  inOrder : s.InOrder cfg
  recorded : s.Recorded cfg cur rest
  queued : s.Queued cfg l₀ l₁

/-- The step puts these instructions into the arrays, each once. -/
structure Adds (is : List ℕ) (s s' : O3Cpu) : Prop where
  readied : ∀ i, s'.Readied cfg i ↔ s.Readied cfg i ∨ i ∈ is
  fresh : ∀ i ∈ is, ¬ s.Readied cfg i
  nodup : is.Nodup

/-- The fields of an instruction that the register stages leave alone. -/
def withoutRegisters (e : RobEntry) : RobEntry :=
  { e with
    eventCycle := 0
    scheduled := .none
    executed := .none
    regRawChecked := fun _ => false
    regReady := false
    regRawProducer := false
    producerId := 0
    numRegDependent := 0
    registersInstrsDependOnMe := ∅
    registersIndexDependOnMe := fun _ => ∅ }

/-- The register stages leave the other fields, the queues of loads and stores, the cycle and the
ids alone. -/
structure SameButRegisters (s s' : O3Cpu) : Prop where
  ring : SameRing s s'
  entry : ∀ i, withoutRegisters (s'.rob.entry i) = withoutRegisters (s.rob.entry i)
  lq : s'.lq = s.lq
  sq : s'.sq = s.sq
  sta : s'.sta = s.sta
  rtl0 : s'.rtl0 = s.rtl0
  rtl1 : s'.rtl1 = s.rtl1
  rts0 : s'.rts0 = s.rts0
  rts1 : s'.rts1 = s.rts1
  cycle : s'.currentCoreCycle = s.currentCoreCycle
  uniqueId : s'.instrUniqueId = s.instrUniqueId

end

section
variable {cfg : CoreConfig} {s s' s'' : O3Cpu} {i p : ℕ} {j : Fin numInstrSources}
  {cur : Option ℕ} {rest : List (ℕ × Fin numInstrSources)} {l₀ l₁ is is' : List ℕ}

theorem mem_waiting : j ∈ s.waiting rest i ↔ s.Waits rest i j := by
  classical
  simp [waiting]

@[simp] theorem entry_modifyRob_self {f : RobEntry → RobEntry} :
    (s.modifyRob i f).rob.entry i = f (s.rob.entry i) := Function.update_self ..

theorem entry_modifyRob_of_ne {f : RobEntry → RobEntry} (h : p ≠ i) :
    (s.modifyRob i f).rob.entry p = s.rob.entry p := Function.update_of_ne h ..

theorem entry_modifyRob {f : RobEntry → RobEntry} : (s.modifyRob i f).rob.entry p =
    if p = i then f (s.rob.entry p) else s.rob.entry p := by
  by_cases h : p = i
  · subst h
    rw [entry_modifyRob_self, if_pos rfl]
  · rw [entry_modifyRob_of_ne h, if_neg h]

/-! ## Steps that leave the records alone -/

theorem Adds.refl (s : O3Cpu) : Adds cfg [] s s := ⟨by simp, by simp, List.nodup_nil⟩

theorem Adds.trans (h : Adds cfg is s s') (h' : Adds cfg is' s' s'') :
    Adds cfg (is ++ is') s s'' := by
  refine ⟨fun i => ?_, fun i hi hr => ?_, ?_⟩
  · rw [h'.readied, h.readied, List.mem_append, or_assoc]
  · rcases List.mem_append.1 hi with hi | hi
    · exact h.fresh i hi hr
    · exact h'.fresh i hi ((h.readied i).2 (.inl hr))
  · refine List.nodup_append.2 ⟨h.nodup, h'.nodup, fun a ha b hb hab => ?_⟩
    subst hab
    exact h'.fresh a hb ((h.readied a).2 (.inr ha))

theorem SameButRegisters.refl (s : O3Cpu) : SameButRegisters s s :=
  ⟨.refl s, fun _ => rfl, rfl, rfl, rfl, rfl, rfl, rfl, rfl, rfl, rfl⟩

theorem SameButRegisters.trans (h : SameButRegisters s s') (h' : SameButRegisters s' s'') :
    SameButRegisters s s'' :=
  ⟨h.ring.trans h'.ring, fun i => (h'.entry i).trans (h.entry i), h'.lq.trans h.lq,
    h'.sq.trans h.sq, h'.sta.trans h.sta, h'.rtl0.trans h.rtl0, h'.rtl1.trans h.rtl1,
    h'.rts0.trans h.rts0, h'.rts1.trans h.rts1, h'.cycle.trans h.cycle,
    h'.uniqueId.trans h.uniqueId⟩

/-- A field that the register stages leave alone. -/
theorem SameButRegisters.field {β : Type*} (h : SameButRegisters s s') (g : RobEntry → β)
    (hg : ∀ e, g (withoutRegisters e) = g e) (i : ℕ) :
    g (s'.rob.entry i) = g (s.rob.entry i) := by
  rw [← hg, h.entry, hg]

/-- A write to an instruction that leaves the other fields alone. -/
theorem sameButRegisters_modifyRob {f : RobEntry → RobEntry}
    (h : ∀ e, withoutRegisters (f e) = withoutRegisters e) :
    SameButRegisters s (s.modifyRob i f) := by
  refine ⟨⟨rfl, rfl, rfl⟩, fun k => ?_, rfl, rfl, rfl, rfl, rfl, rfl, rfl, rfl, rfl⟩
  by_cases hk : k = i
  · subst hk
    rw [entry_modifyRob_self]
    exact h _
  · rw [entry_modifyRob_of_ne hk]

/-- The instructions stay in order when the stages only go forward. -/
theorem InOrder.of_same (ho : s.InOrder cfg) (h : SameButRegisters s s')
    (hsched : ∀ i, (s'.rob.entry i).scheduled ≠ .none → (s.rob.entry i).scheduled ≠ .none ∨
      s.Live cfg i ∧ (s.rob.entry i).fetched = .completed)
    (hexec : ∀ i, (s'.rob.entry i).executed ≠ .none → (s'.rob.entry i).scheduled ≠ .none) :
    s'.InOrder cfg := by
  have hfetched := h.field RobEntry.fetched fun _ => rfl
  have hid := h.field RobEntry.instrId fun _ => rfl
  refine ⟨h.ring.ringOk ho.ring, fun i hi => ?_, fun p i hpi => ?_, fun i hi => ?_, hexec,
    fun i hi => ?_⟩
  · rw [h.ring.live] at hi
    have hb := ho.blank i hi
    have hs : (s'.rob.entry i).scheduled = .none := by
      by_contra hne
      rcases hsched i hne with hne | ⟨hlive, -⟩
      · exact hne hb.scheduled
      · exact hi hlive
    refine ⟨(hid i).trans hb.instrId, (h.field RobEntry.ip (fun _ => rfl) i).trans hb.ip,
      (h.field RobEntry.translated (fun _ => rfl) i).trans hb.translated,
      (hfetched i).trans hb.fetched, hs, ?_, fun d => ?_⟩
    · by_contra hne
      exact hexec i hne hs
    · rw [h.field RobEntry.destinationMemory (fun _ => rfl) i, hb.destinationMemory d]
  · rw [hid, hid]
    exact ho.ids p i (h.ring.older.1 hpi)
  · rw [hid, h.uniqueId]
    exact ho.idLt i (h.ring.live.1 hi)
  · rw [hfetched]
    rcases hsched i hi with hne | ⟨-, hf⟩
    · exact ho.fetched i hne
    · exact hf

/-- A free slot records nothing, and nothing is recorded of it. -/
theorem Recorded.live (h : s.Recorded cfg cur rest)
    (hi : i ∈ (s.rob.entry p).registersIndexDependOnMe j) : s.Live cfg i :=
  (h.older p i j hi).live

/-- The records of both states are the same. -/
structure SameRecords (s s' : O3Cpu) : Prop where
  ring : SameRing s s'
  index : ∀ i, (s'.rob.entry i).registersIndexDependOnMe =
    (s.rob.entry i).registersIndexDependOnMe
  instrs : ∀ i, (s'.rob.entry i).registersInstrsDependOnMe =
    (s.rob.entry i).registersInstrsDependOnMe
  producer : ∀ i, (s'.rob.entry i).regRawProducer = (s.rob.entry i).regRawProducer
  checked : ∀ i, (s'.rob.entry i).regRawChecked = (s.rob.entry i).regRawChecked
  count : ∀ i, (s'.rob.entry i).numRegDependent = (s.rob.entry i).numRegDependent
  completed : ∀ i, (s'.rob.entry i).executed = .completed ↔ (s.rob.entry i).executed = .completed

theorem SameRecords.waiting (h : SameRecords s s') (rest : List (ℕ × Fin numInstrSources))
    (i : ℕ) : s'.waiting rest i = s.waiting rest i := by
  ext j
  rw [mem_waiting, mem_waiting, Waits, Waits]
  simp only [h.index, ne_eq, h.completed]

/-- The invariant of the records depends on the records and on which instructions are scheduled and
ready. -/
theorem SameRecords.recorded {cur' : Option ℕ} (h : SameRecords s s')
    (hr : s.Recorded cfg cur rest)
    (hs : ∀ i, (s.rob.entry i).scheduled ≠ .none ∨ cur = some i →
      (s'.rob.entry i).scheduled ≠ .none ∨ cur' = some i)
    (hready : ∀ i, s.Live cfg i → (s'.rob.entry i).scheduled ≠ .none ∨ cur' = some i →
      ((s'.rob.entry i).regReady = true ↔ (s.rob.entry i).numRegDependent = 0)) :
    s'.Recorded cfg cur' rest := by
  refine ⟨fun p i j hi => ?_, fun p i j hi => ?_, fun p i j hi => ?_, fun p p' i j hi hi' => ?_,
    fun p i => ?_, fun p i hi => ?_, fun i j hi => ?_, fun i hi => ?_, fun i hi hsi => ?_⟩
  · rw [h.index] at hi
    exact h.ring.older.2 (hr.older p i j hi)
  · rw [h.index] at hi
    exact hs i (hr.scheduled p i j hi)
  · rw [h.index] at hi
    rw [h.checked]
    exact hr.checked p i j hi
  · rw [h.index] at hi hi'
    exact hr.unique p p' i j hi hi'
  · simp only [h.index, h.instrs]
    exact hr.instrs p i
  · rw [h.instrs] at hi
    rw [h.producer]
    exact hr.producer p i hi
  · simp only [h.index, h.completed]
    exact hr.released i j hi
  · rw [h.count, h.waiting]
    exact hr.count i (h.ring.live.1 hi)
  · rw [h.count]
    exact hready i (h.ring.live.1 hi) hsi

/-- An instruction of which nothing is recorded counts nothing. -/
theorem Recorded.count_eq_zero (h : s.Recorded cfg none []) (hi : s.Live cfg i)
    (hs : (s.rob.entry i).scheduled = .none) : (s.rob.entry i).numRegDependent = 0 := by
  have hempty : s.waiting [] i = ∅ := by
    ext j
    simp only [mem_waiting, Waits, List.not_mem_nil, or_false, Finset.notMem_empty, iff_false]
    rintro ⟨p, hp, -⟩
    rcases h.scheduled p i j hp with hne | hcur
    · exact hne hs
    · exact absurd hcur (by simp)
  rw [h.count i hi, hempty]
  rfl

/-- A write that leaves the records alone. -/
theorem sameRecords_modifyRob {f : RobEntry → RobEntry}
    (h : ∀ e, (f e).registersIndexDependOnMe = e.registersIndexDependOnMe ∧
      (f e).registersInstrsDependOnMe = e.registersInstrsDependOnMe ∧
      (f e).regRawProducer = e.regRawProducer ∧ (f e).regRawChecked = e.regRawChecked ∧
      (f e).numRegDependent = e.numRegDependent)
    (hexec : (f (s.rob.entry i)).executed = .completed ↔ (s.rob.entry i).executed = .completed) :
    SameRecords s (s.modifyRob i f) := by
  have hfield : ∀ {β : Type} (g : RobEntry → β), (∀ e, g (f e) = g e) →
      ∀ k, g ((s.modifyRob i f).rob.entry k) = g (s.rob.entry k) := by
    intro β g hg k
    rw [entry_modifyRob]
    split
    · exact hg _
    · rfl
  refine ⟨⟨rfl, rfl, rfl⟩, hfield _ fun e => (h e).1, hfield _ fun e => (h e).2.1,
    hfield _ fun e => (h e).2.2.1, hfield _ fun e => (h e).2.2.2.1,
    hfield _ fun e => (h e).2.2.2.2, fun k => ?_⟩
  rw [entry_modifyRob]
  split
  · rename_i hk
    rw [hk]
    exact hexec
  · exact Iff.rfl

/-- The arrays hold the same when they and the instructions that belong in them are the same. -/
theorem Queued.congr (h : s.Queued cfg l₀ l₁) (h₀ : s'.rte0 = s.rte0) (h₁ : s'.rte1 = s.rte1)
    (hmem : ∀ k, s'.Readied cfg k ∧ (s'.rob.entry k).executed = .none ↔
      s.Readied cfg k ∧ (s.rob.entry k).executed = .none)
    (hissued : ∀ k, s'.Live cfg k → (s'.rob.entry k).isMemory = false →
      (s'.rob.entry k).executed ≠ .none → (s'.rob.entry k).numRegDependent = 0) :
    s'.Queued cfg l₀ l₁ :=
  ⟨h₀ ▸ h.rte0, h₁ ▸ h.rte1, h.nodup, fun k => (h.mem k).trans (hmem k).symm, hissued⟩

/-- A step that writes no instruction and neither array keeps the invariant. -/
theorem Wakeup.congr (h : s.Wakeup cfg cur rest l₀ l₁) (hsame : SameButRegisters s s')
    (hentry : s'.rob.entry = s.rob.entry) (h₀ : s'.rte0 = s.rte0) (h₁ : s'.rte1 = s.rte1) :
    s'.Wakeup cfg cur rest l₀ l₁ ∧ Adds cfg [] s s' := by
  have hrecords : SameRecords s s' := by
    refine ⟨hsame.ring, ?_, ?_, ?_, ?_, ?_, ?_⟩ <;> simp [hentry]
  have hreadied : ∀ k, s'.Readied cfg k ↔ s.Readied cfg k := by
    intro k
    rw [Readied, Readied, hsame.ring.live, hentry]
  refine ⟨⟨h.inOrder.of_same hsame (fun k hk => .inl ?_) fun k hk => ?_,
    hrecords.recorded h.recorded (fun k hk => ?_) fun k hk hsk => ?_,
    h.queued.congr h₀ h₁ (fun k => ?_) fun k hk hm hx => ?_⟩,
    fun k => by simp [hreadied], by simp, List.nodup_nil⟩
  · rwa [hentry] at hk
  · rw [hentry] at hk ⊢
    exact h.inOrder.scheduled k hk
  · rwa [hentry]
  · rw [hentry] at hsk ⊢
    exact h.recorded.ready k hk hsk
  · rw [hreadied, hentry]
  · rw [hentry] at hm hx ⊢
    exact h.queued.issued k (hsame.ring.live.1 hk) hm hx

/-- What holds when the state of an instruction is written but not yet the array it goes to; `belongs`
says whether it goes to one. -/
structure Belongs (cfg : CoreConfig) (i : ℕ) (belongs : Prop)
    (rest : List (ℕ × Fin numInstrSources)) (l₀ l₁ : List ℕ) (s s' : O3Cpu) : Prop where
  inOrder : s'.InOrder cfg
  recorded : s'.Recorded cfg none rest
  same : SameButRegisters s s'
  readied : ∀ k, s'.Readied cfg k ↔ s.Readied cfg k ∨ k = i ∧ belongs
  rte0 : Ring.Holds cfg.robSize s'.rte0.slots s'.rte0.head s'.rte0.tail l₀
  rte1 : Ring.Holds cfg.robSize s'.rte1.slots s'.rte1.head s'.rte1.tail l₁
  nodup : (l₀ ++ l₁).Nodup
  fresh : i ∉ l₀ ++ l₁
  mem : ∀ k, s'.Readied cfg k ∧ (s'.rob.entry k).executed = .none ↔
    k ∈ l₀ ++ l₁ ∨ k = i ∧ belongs
  issued : ∀ k, s'.Live cfg k → (s'.rob.entry k).isMemory = false →
    (s'.rob.entry k).executed ≠ .none → (s'.rob.entry k).numRegDependent = 0

/-- An instruction that goes to no array is done. -/
theorem Belongs.wakeup {belongs : Prop} (h : Belongs cfg i belongs rest l₀ l₁ s s')
    (hb : ¬ belongs) : s'.Wakeup cfg none rest l₀ l₁ ∧ Adds cfg [] s s' := by
  refine ⟨⟨h.inOrder, h.recorded, h.rte0, h.rte1, h.nodup, fun k => ?_, h.issued⟩,
    fun k => ?_, by simp, List.nodup_nil⟩
  · rw [h.mem]
    simp [hb]
  · rw [h.readied]
    simp [hb]

/-- An instruction that goes to an array is put there. -/
theorem Belongs.push {belongs : Prop} {t : O3Cpu} {l₀' l₁' : List ℕ}
    (h : Belongs cfg i belongs rest l₀ l₁ s s') (hb : belongs) (hnot : ¬ s.Readied cfg i)
    (hsame : SameButRegisters s' t) (hentry : t.rob.entry = s'.rob.entry)
    (h₀ : Ring.Holds cfg.robSize t.rte0.slots t.rte0.head t.rte0.tail l₀')
    (h₁ : Ring.Holds cfg.robSize t.rte1.slots t.rte1.head t.rte1.tail l₁')
    (hperm : (l₀' ++ l₁').Perm (i :: (l₀ ++ l₁))) :
    t.Wakeup cfg none rest l₀' l₁' ∧ SameButRegisters s t ∧ Adds cfg [i] s t := by
  have hrecords : SameRecords s' t := by
    refine ⟨hsame.ring, ?_, ?_, ?_, ?_, ?_, ?_⟩ <;> simp [hentry]
  have hreadied : ∀ k, t.Readied cfg k ↔ s'.Readied cfg k := by
    intro k
    rw [Readied, Readied, hsame.ring.live, hentry]
  refine ⟨⟨h.inOrder.of_same hsame (fun k hk => .inl ?_) fun k hk => ?_,
    hrecords.recorded h.recorded (fun k hk => ?_) fun k hk hsk => ?_,
    h₀, h₁, ?_, fun k => ?_, fun k hk hm hx => ?_⟩, h.same.trans hsame,
    fun k => ?_, fun k hk => ?_, List.nodup_singleton i⟩
  · rwa [hentry] at hk
  · rw [hentry] at hk ⊢
    exact h.inOrder.scheduled k hk
  · rwa [hentry]
  · rw [hentry] at hsk ⊢
    exact h.recorded.ready k hk hsk
  · exact hperm.nodup_iff.2 (List.nodup_cons.2 ⟨h.fresh, h.nodup⟩)
  · rw [hperm.mem_iff, hreadied, hentry, h.mem, List.mem_cons, or_comm]
    simp [hb]
  · rw [hentry] at hm hx ⊢
    exact h.issued k (hsame.ring.live.1 hk) hm hx
  · rw [hreadied, h.readied, List.mem_singleton]
    simp [hb]
  · rw [List.mem_singleton] at hk
    rw [hk]
    exact hnot

/-- The arrays have room for an instruction that is in none of them. -/
theorem Queued.length_lt (h : s.Queued cfg l₀ l₁) (hi : s.Live cfg i) (hnot : ¬ s.Readied cfg i) :
    l₀.length < cfg.robSize ∧ l₁.length < cfg.robSize := by
  have hlive : ∀ k ∈ l₀ ++ l₁, k < cfg.robSize := fun k hk => ((h.mem k).1 hk).1.1.1
  have hfresh : i ∉ l₀ ++ l₁ := fun hm => hnot ((h.mem i).1 hm).1
  obtain ⟨hn₀, hn₁, -⟩ := List.nodup_append.1 h.nodup
  exact ⟨Ring.length_lt_of_nodup hn₀ hi.1 (fun hm => hfresh (List.mem_append_left _ hm))
      fun k hk => hlive k (List.mem_append_left _ hk),
    Ring.length_lt_of_nodup hn₁ hi.1 (fun hm => hfresh (List.mem_append_right _ hm))
      fun k hk => hlive k (List.mem_append_right _ hk)⟩

end

end O3Cpu

end Arishem
