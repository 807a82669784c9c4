import Arishem.Core.MemoryFrames
import Arishem.Core.Releases

/-!
# The stages keep the register dependences

Each stage of a core and each answer of its caches keeps the invariant of the register stages. The
stages of the memory operands and of the fetch unit do not touch it, an instruction that is read has
no dependences yet, and one that retires has completed and is waited for by none.
-/

namespace Arishem

namespace O3Cpu

section
variable {cfg : CoreConfig} {s s' s'' : O3Cpu} {i p : ℕ} {l₀ l₁ : List ℕ}

/-- The invariant of the register stages holds between the stages. -/
def Wakes (cfg : CoreConfig) (s : O3Cpu) : Prop := ∃ l₀ l₁, s.Wakeup cfg none [] l₀ l₁

theorem Wakes.inOrder (h : s.Wakes cfg) : s.InOrder cfg := by
  obtain ⟨l₀, l₁, h⟩ := h
  exact h.inOrder

/-- What the other stages leave of the registers. -/
structure SameRegisters (s s' : O3Cpu) : Prop where
  records : SameRecords s s'
  rte0 : s'.rte0 = s.rte0
  rte1 : s'.rte1 = s.rte1
  ready : ∀ i, (s'.rob.entry i).regReady = (s.rob.entry i).regReady
  scheduled : ∀ i, (s'.rob.entry i).scheduled = .none ↔ (s.rob.entry i).scheduled = .none
  isMemory : ∀ i, (s'.rob.entry i).isMemory = (s.rob.entry i).isMemory
  executed : ∀ i, (s.rob.entry i).isMemory = false →
    ((s'.rob.entry i).executed = .none ↔ (s.rob.entry i).executed = .none)

/-- A stage that leaves the registers alone and the instructions in order keeps the invariant. -/
theorem Wakes.of_same (h : s.Wakes cfg) (hsame : SameRegisters s s') (ho : s'.InOrder cfg) :
    s'.Wakes cfg ∧ Adds cfg [] s s' := by
  obtain ⟨l₀, l₁, hw⟩ := h
  have hring := hsame.records.ring
  have hnum := hsame.records.count
  have hreadied : ∀ k, s'.Readied cfg k ↔ s.Readied cfg k := by
    intro k
    rw [Readied, Readied, hring.live, hsame.isMemory, hnum, ne_eq, hsame.scheduled]
  refine ⟨⟨l₀, l₁, ho, hsame.records.recorded hw.recorded (fun k hk => ?_) fun k hk hs => ?_,
    hw.queued.congr hsame.rte0 hsame.rte1 (fun k => ?_) fun k hk hm hx => ?_⟩,
    fun k => by simp [hreadied], by simp, List.nodup_nil⟩
  · rwa [ne_eq, hsame.scheduled]
  · rw [ne_eq, hsame.scheduled] at hs
    rw [hsame.ready]
    exact hw.recorded.ready k hk hs
  · rw [hreadied]
    exact and_congr_right fun hk => hsame.executed k hk.2.1
  · rw [hsame.isMemory] at hm
    rw [hnum]
    rw [ne_eq, hsame.executed k hm] at hx
    exact hw.queued.issued k (hring.live.1 hk) hm hx

/-- The instructions stay in order when the ends of the buffer, the ids and the free slots do. -/
theorem InOrder.congr (h : s.InOrder cfg) (hring : SameRing s s')
    (hid : ∀ i, (s'.rob.entry i).instrId = (s.rob.entry i).instrId)
    (huid : s'.instrUniqueId = s.instrUniqueId)
    (hblank : ∀ i, ¬ s.Live cfg i → Blank (s'.rob.entry i))
    (hsched : ∀ i, (s'.rob.entry i).executed ≠ .none → (s'.rob.entry i).scheduled ≠ .none)
    (hfetched : ∀ i, (s'.rob.entry i).scheduled ≠ .none →
      (s'.rob.entry i).fetched = .completed) : s'.InOrder cfg := by
  refine ⟨hring.ringOk h.ring, fun i hi => hblank i fun hl => hi (hring.live.2 hl),
    fun p i hpi => ?_, fun i hi => ?_, hsched, hfetched⟩
  · rw [hid, hid]
    exact h.ids p i (hring.older.1 hpi)
  · rw [hid, huid]
    exact h.idLt i (hring.live.1 hi)

/-! ## Memory operands -/

theorem SameButMemory.registers (h : SameButMemory s s') : SameRegisters s s' where
  records := ⟨h.ring, h.field _ fun _ => rfl, h.field _ fun _ => rfl, h.field _ fun _ => rfl,
    h.field _ fun _ => rfl, h.field _ fun _ => rfl, fun i => by
      rw [h.field RobEntry.executed fun _ => rfl]⟩
  rte0 := h.rte0
  rte1 := h.rte1
  ready := h.field _ fun _ => rfl
  scheduled := fun i => by rw [h.field RobEntry.scheduled fun _ => rfl]
  isMemory := h.field _ fun _ => rfl
  executed := fun i _ => by rw [h.field RobEntry.executed fun _ => rfl]

theorem SameButMemory.inOrder (h : SameButMemory s s') (ho : s.InOrder cfg) : s'.InOrder cfg := by
  have hexec := h.field RobEntry.executed fun _ => rfl
  have hsched := h.field RobEntry.scheduled fun _ => rfl
  have hfetched := h.field RobEntry.fetched fun _ => rfl
  refine ho.congr h.ring (h.field _ fun _ => rfl) h.uniqueId (fun i hi => ?_)
    (fun i hi => ?_) fun i hi => ?_
  · obtain ⟨h₁, h₂, h₃, h₄, h₅, h₆, h₇⟩ := ho.blank i hi
    refine ⟨?_, ?_, ?_, by rw [hfetched, h₄], by rw [hsched, h₅], by rw [hexec, h₆], fun d => ?_⟩
    · rw [h.field RobEntry.instrId fun _ => rfl, h₁]
    · rw [h.field RobEntry.ip fun _ => rfl, h₂]
    · rw [h.field RobEntry.translated fun _ => rfl, h₃]
    · rw [h.field RobEntry.destinationMemory fun _ => rfl, h₇]
  · rw [hexec] at hi
    rw [hsched]
    exact ho.scheduled i hi
  · rw [hsched] at hi
    rw [hfetched]
    exact ho.fetched i hi

theorem Wakes.memory (h : s.Wakes cfg) (hsame : SameButMemory s s') :
    s'.Wakes cfg ∧ Adds cfg [] s s' :=
  h.of_same hsame.registers (hsame.inOrder h.inOrder)

/-- The fields that the fetch unit reads and the stages behind it leave alone. -/
structure SameFetch (s s' : O3Cpu) : Prop where
  ring : SameRing s s'
  instrId : ∀ i, (s'.rob.entry i).instrId = (s.rob.entry i).instrId
  ip : ∀ i, (s'.rob.entry i).ip = (s.rob.entry i).ip
  translated : ∀ i, (s'.rob.entry i).translated = (s.rob.entry i).translated
  fetched : ∀ i, (s'.rob.entry i).fetched = (s.rob.entry i).fetched
  uniqueId : s'.instrUniqueId = s.instrUniqueId

theorem SameFetch.refl (s : O3Cpu) : SameFetch s s :=
  ⟨.refl s, fun _ => rfl, fun _ => rfl, fun _ => rfl, fun _ => rfl, rfl⟩

theorem SameFetch.trans (h : SameFetch s s') (h' : SameFetch s' s'') : SameFetch s s'' :=
  ⟨h.ring.trans h'.ring, fun i => (h'.instrId i).trans (h.instrId i),
    fun i => (h'.ip i).trans (h.ip i), fun i => (h'.translated i).trans (h.translated i),
    fun i => (h'.fetched i).trans (h.fetched i), h'.uniqueId.trans h.uniqueId⟩

theorem SameButMemory.fetch (h : SameButMemory s s') : SameFetch s s' :=
  ⟨h.ring, h.field _ fun _ => rfl, h.field _ fun _ => rfl, h.field _ fun _ => rfl,
    h.field _ fun _ => rfl, h.uniqueId⟩

theorem SameButRegisters.fetch (h : SameButRegisters s s') : SameFetch s s' :=
  ⟨h.ring, h.field _ fun _ => rfl, h.field _ fun _ => rfl, h.field _ fun _ => rfl,
    h.field _ fun _ => rfl, h.uniqueId⟩

/-- Marking a memory instruction as scheduled keeps the invariant. -/
theorem Wakes.markScheduled (h : s.Wakes cfg) (hm : (s.rob.entry i).isMemory = true)
    (hs : (s.rob.entry i).scheduled ≠ .none) :
    (s.markScheduled i).Wakes cfg ∧ Adds cfg [] s (s.markScheduled i) ∧
      SameFetch s (s.markScheduled i) := by
  have hexec : ∀ e : RobEntry, ((if e.executed = Progress.none then Progress.inflight
      else e.executed) = .completed ↔ e.executed = .completed) := by
    intro e
    cases e.executed <;> simp
  have hfield : ∀ {β : Type} (g : RobEntry → β),
      (∀ e : RobEntry, g { e with
        scheduled := .completed
        executed := if e.executed = .none then .inflight else e.executed } = g e) →
      ∀ k, g ((s.markScheduled i).rob.entry k) = g (s.rob.entry k) := by
    intro β g hg k
    rw [O3Cpu.markScheduled, entry_modifyRob]
    split
    · exact hg _
    · rfl
  have hother : ∀ k, k ≠ i → (s.markScheduled i).rob.entry k = s.rob.entry k := fun k hk => by
    rw [O3Cpu.markScheduled, entry_modifyRob_of_ne hk]
  have hsched : ∀ k, ((s.markScheduled i).rob.entry k).scheduled = .none ↔
      (s.rob.entry k).scheduled = .none := by
    intro k
    by_cases hk : k = i
    · subst hk
      rw [O3Cpu.markScheduled, entry_modifyRob_self]
      simp [hs]
    · rw [hother k hk]
  have hfetch : SameFetch s (s.markScheduled i) :=
    ⟨⟨rfl, rfl, rfl⟩, hfield _ fun _ => rfl, hfield _ fun _ => rfl, hfield _ fun _ => rfl,
      hfield _ fun _ => rfl, rfl⟩
  have hregs : SameRegisters s (s.markScheduled i) :=
    { records := sameRecords_modifyRob (fun _ => ⟨rfl, rfl, rfl, rfl, rfl⟩) (hexec _)
      rte0 := rfl
      rte1 := rfl
      ready := hfield _ fun _ => rfl
      scheduled := hsched
      isMemory := hfield _ fun _ => rfl
      executed := fun k hk => by
        rw [hother k fun heq => by simp [heq, hm] at hk] }
  have ho : (s.markScheduled i).InOrder cfg := by
    refine h.inOrder.congr ⟨rfl, rfl, rfl⟩ hfetch.instrId rfl (fun k hk => ?_)
      (fun k hk => ?_) fun k hk => ?_
    · rw [hother k fun heq => hs (h.inOrder.blank i (heq ▸ hk)).scheduled]
      exact h.inOrder.blank k hk
    · by_cases hki : k = i
      · rw [hki, ne_eq, hsched]
        exact hs
      · rw [hother k hki] at hk ⊢
        exact h.inOrder.scheduled k hk
    · rw [ne_eq, hsched] at hk
      rw [hfetch.fetched]
      exact h.inOrder.fetched k hk
  obtain ⟨hw, ha⟩ := h.of_same hregs ho
  exact ⟨hw, ha, hfetch⟩

/-- `do_memory_scheduling` keeps the invariant. -/
theorem Wakes.doMemoryScheduling (h : s.Wakes cfg) (hm : (s.rob.entry i).isMemory = true)
    (hs : (s.rob.entry i).scheduled ≠ .none) :
    Ends (s.doMemoryScheduling cfg i)
      (fun s' => s'.Wakes cfg ∧ Adds cfg [] s s' ∧ SameFetch s s') MemoryFault := by
  refine (checkAndAddLsq_same i s).bind fun s' hs' => ?_
  obtain ⟨hw, ha⟩ := h.memory hs'
  have hcount : ∀ t : O3Cpu, SameButMemory t { t with numSearched := t.numSearched + 1 } :=
    fun _ => ⟨⟨rfl, rfl, rfl⟩, fun _ => rfl, rfl, rfl, rfl⟩
  have hmark : (if s'.allAdded i then s'.markScheduled i else s').Wakes cfg ∧
      Adds cfg [] s' (if s'.allAdded i then s'.markScheduled i else s') ∧
      SameFetch s' (if s'.allAdded i then s'.markScheduled i else s') := by
    split
    · refine hw.markScheduled ?_ ?_
      · rw [hs'.field RobEntry.isMemory fun _ => rfl, hm]
      · rwa [hs'.field RobEntry.scheduled fun _ => rfl]
    · exact ⟨hw, .refl s', .refl s'⟩
  obtain ⟨hw', ha', hf'⟩ := hmark
  obtain ⟨hw'', ha''⟩ := hw'.memory (hcount _)
  exact .ok ⟨hw'', (ha.trans ha').trans ha'', (hs'.fetch.trans hf').trans (hcount _).fetch⟩

/-- A loop of `schedule_memory_instruction` keeps the invariant. -/
theorem Wakes.scheduleMemoryFrom (is : List ℕ) (h : s.Wakes cfg) :
    Ends (s.scheduleMemoryFrom cfg is)
      (fun s' => s'.Wakes cfg ∧ Adds cfg [] s s' ∧ SameFetch s s') MemoryFault := by
  induction is generalizing s with
  | nil => exact .ok ⟨h, .refl s, .refl s⟩
  | cons i is ih =>
    rw [O3Cpu.scheduleMemoryFrom]
    split
    · exact ih h
    rename_i hm
    split
    · exact .ok ⟨h, .refl s, .refl s⟩
    split
    · rename_i hg
      refine (h.doMemoryScheduling (by simpa using hm) (by simp [hg.2])).bind fun s' hs => ?_
      exact (ih hs.1).mono (fun _ h' => ⟨h'.1, hs.2.1.trans h'.2.1, hs.2.2.trans h'.2.2⟩)
        fun _ he => he
    · exact ih h

/-- `schedule_memory_instruction` keeps the invariant. -/
theorem Wakes.scheduleMemoryInstruction (h : s.Wakes cfg) :
    Ends (s.scheduleMemoryInstruction cfg)
      (fun s' => s'.Wakes cfg ∧ Adds cfg [] s s' ∧ SameFetch s s') MemoryFault := by
  rw [O3Cpu.scheduleMemoryInstruction]
  split
  · exact .ok ⟨h, .refl s, .refl s⟩
  have hsearch : SameButMemory s { s with numSearched := 0 } :=
    ⟨⟨rfl, rfl, rfl⟩, fun _ => rfl, rfl, rfl, rfl⟩
  obtain ⟨hw, ha⟩ := h.memory hsearch
  have hloop : ∀ is, Ends ({ s with numSearched := 0 }.scheduleMemoryFrom cfg is)
      (fun s' => s'.Wakes cfg ∧ Adds cfg [] s s' ∧ SameFetch s s') MemoryFault := fun is =>
    (hw.scheduleMemoryFrom is).mono
      (fun _ h' => ⟨h'.1, ha.trans h'.2.1, hsearch.fetch.trans h'.2.2⟩) fun _ he => he
  simp only
  split
  · exact hloop _
  · refine (hloop _).bind fun s' hs => ?_
    exact (hs.1.scheduleMemoryFrom _).mono
      (fun _ h' => ⟨h'.1, hs.2.1.trans h'.2.1, hs.2.2.trans h'.2.2⟩) fun _ he => he

end

end O3Cpu

end Arishem
