import Arishem.Core.Ready

/-!
# Reading, fetching and retiring

What the other stages do to the reorder buffer: an instruction that is read has gone through no stage
and takes the slot at the tail, one that retires has completed and leaves the slot at the head empty,
and the requests of the fetch unit and their answers write only how far an instruction is translated
and fetched. With the stages of the registers and of the memory operands this is every step of a
core, and the invariant of the register stages is kept by each.
-/

namespace Arishem

/-- An instruction that has gone through no stage. -/
structure RobEntry.Fresh (id : ℕ) (e : RobEntry) : Prop where
  instrId : e.instrId = id
  ip : e.ip ≠ 0
  translated : e.translated = .none
  fetched : e.fetched = .none
  scheduled : e.scheduled = .none
  executed : e.executed = .none
  regRawChecked : ∀ j, e.regRawChecked j = false
  numRegDependent : e.numRegDependent = 0
  instrs : e.registersInstrsDependOnMe = ∅
  index : ∀ j, e.registersIndexDependOnMe j = ∅

namespace O3Cpu

/-- The fields of an instruction that the fetch unit leaves alone. -/
def withoutFetch (e : RobEntry) : RobEntry :=
  { e with translated := .none, fetched := .none, eventCycle := 0 }

/-- An instruction is read into the slot at the tail. -/
structure Added (cfg : CoreConfig) (s s' : O3Cpu) : Prop where
  ends : Pushed cfg s s'
  fresh : RobEntry.Fresh s.instrUniqueId (s'.rob.entry s.rob.tail)
  others : ∀ i, i ≠ s.rob.tail → s'.rob.entry i = s.rob.entry i
  rte0 : s'.rte0 = s.rte0
  rte1 : s'.rte1 = s.rte1
  uniqueId : s'.instrUniqueId = s.instrUniqueId + 1

/-- The instruction at the head retires. -/
structure Retired (cfg : CoreConfig) (s s' : O3Cpu) : Prop where
  ends : Popped cfg s s'
  ip : (s.rob.entry s.rob.head).ip ≠ 0
  completed : (s.rob.entry s.rob.head).executed = .completed
  empty : s'.rob.entry s.rob.head = .empty
  others : ∀ i, i ≠ s.rob.head → s'.rob.entry i = s.rob.entry i
  rte0 : s'.rte0 = s.rte0
  rte1 : s'.rte1 = s.rte1
  uniqueId : s'.instrUniqueId = s.instrUniqueId

section
variable {cfg : CoreConfig} {s s' s'' : O3Cpu} {i p : ℕ} {l₀ l₁ : List ℕ}

/-! ## Reading -/

/-- What the loop over the destinations leaves alone. -/
structure SameButSta (s s' : O3Cpu) : Prop where
  rob : s'.rob = s.rob
  rte0 : s'.rte0 = s.rte0
  rte1 : s'.rte1 = s.rte1
  uniqueId : s'.instrUniqueId = s.instrUniqueId

/-- The checks of `handle_branch`. -/
inductive ReadFault : CoreFault → Prop
  | sta : ReadFault .sta
  | robNotEmpty : ReadFault .robNotEmpty
  | ipZero : ReadFault .ipZero

theorem pushSta_same (r : InputInstr) (s : O3Cpu) :
    Ends ((List.finRange numInstrDestinationsSparc).foldlM (fun s d =>
      if r.destinationMemory d ≠ 0 then s.pushSta cfg s.instrUniqueId else .ok s) s)
      (SameButSta s) ReadFault := by
  refine Ends.foldlM (fun s' d _ h => ?_) ⟨rfl, rfl, rfl, rfl⟩
  split
  · rw [pushSta]
    split
    · exact .error .sta
    · exact .ok ⟨h.rob, h.rte0, h.rte1, h.uniqueId⟩
  · exact .ok h

theorem fresh_archInstr (r : InputInstr) (id : ℕ) (cycle : Cycle) (hip : r.ip ≠ 0) :
    RobEntry.Fresh id { r.archInstr id with eventCycle := cycle } :=
  ⟨rfl, hip, rfl, rfl, rfl, rfl, fun _ => rfl, rfl, rfl, fun _ => rfl⟩

/-- `handle_branch` adds the instruction of the record. -/
theorem handleBranch_added (r : InputInstr) (s : O3Cpu) :
    Ends (s.handleBranch cfg r) (Added cfg s) ReadFault := by
  refine (pushSta_same r s).bind fun t ht => ?_
  rw [addToRob]
  split
  · exact .error .robNotEmpty
  split
  · exact .error .ipZero
  · rename_i hip
    have hid := ht.uniqueId
    have hrob := ht.rob
    refine .ok ⟨⟨?_, ?_, ?_⟩, ?_, fun k hk => ?_, ht.rte0, ht.rte1, congrArg (· + 1) hid⟩
    · show t.rob.head = s.rob.head
      rw [hrob]
    · show Ring.next cfg.robSize t.rob.tail = Ring.next cfg.robSize s.rob.tail
      rw [hrob]
    · show t.rob.occupancy + 1 = s.rob.occupancy + 1
      rw [hrob]
    · simp only [hrob, hid, Function.update_self]
      exact fresh_archInstr r s.instrUniqueId _ hip
    · simp only [hrob, Function.update_of_ne hk]

theorem Added.modifyRob (h : Added cfg s s') {f : RobEntry → RobEntry}
    (hf : ∀ e, RobEntry.Fresh s.instrUniqueId e → RobEntry.Fresh s.instrUniqueId (f e)) :
    Added cfg s (s'.modifyRob s.rob.tail f) := by
  refine ⟨⟨h.ends.head, h.ends.tail, h.ends.occupancy⟩, ?_, fun k hk => ?_, h.rte0, h.rte1,
    h.uniqueId⟩
  · rw [entry_modifyRob_self]
    exact hf _ h.fresh
  · rw [entry_modifyRob_of_ne hk, h.others k hk]

/-- An instruction that is read keeps the instructions in order. -/
theorem Added.inOrder (h : Added cfg s s') (ho : s.InOrder cfg)
    (hroom : s.rob.occupancy < cfg.robSize) : s'.InOrder cfg := by
  have hlive := fun k => h.ends.live (i := k) ho.ring hroom
  have htail := ho.ring.not_live_tail hroom
  have hold : ∀ k, s.Live cfg k → s'.rob.entry k = s.rob.entry k := fun k hk =>
    h.others k fun heq => htail (heq ▸ hk)
  refine ⟨h.ends.ringOk ho.ring hroom, fun k hk => ?_, fun q k hqk => ?_, fun k hk => ?_,
    fun k hk => ?_, fun k hk => ?_⟩
  · rw [hlive, not_or] at hk
    rw [h.others k hk.2]
    exact ho.blank k hk.1
  · rcases (h.ends.older ho.ring hroom).1 hqk with hold' | ⟨hq, rfl⟩
    · rw [hold q hold'.live_left, hold k hold'.live]
      exact ho.ids q k hold'
    · rw [hold q hq, h.fresh.instrId]
      exact ho.idLt q hq
  · rw [h.uniqueId]
    rcases (hlive k).1 hk with hk | rfl
    · rw [hold k hk]
      exact (ho.idLt k hk).trans (Nat.lt_succ_self _)
    · rw [h.fresh.instrId]
      exact Nat.lt_succ_self _
  · by_cases hkt : k = s.rob.tail
    · exact absurd (hkt ▸ h.fresh.executed) hk
    · rw [h.others k hkt] at hk ⊢
      exact ho.scheduled k hk
  · by_cases hkt : k = s.rob.tail
    · exact absurd (hkt ▸ h.fresh.scheduled) hk
    · rw [h.others k hkt] at hk ⊢
      exact ho.fetched k hk

/-- Instructions of the buffer have different ids. -/
theorem InOrder.instrId_inj (h : s.InOrder cfg) (hp : s.Live cfg p) (hi : s.Live cfg i)
    (heq : (s.rob.entry p).instrId = (s.rob.entry i).instrId) : p = i := by
  rcases h.ring.older_or hp hi with hpi | hold | hold
  · exact hpi
  · exact absurd heq (Nat.ne_of_lt (h.ids p i hold))
  · exact absurd heq (Nat.ne_of_gt (h.ids i p hold))

/-! ## Instructions that come and go -/

/-- Both states hold the same instructions, but for new ones that have gone through no stage and for
completed ones that are gone. -/
structure Turnover (cfg : CoreConfig) (s s' : O3Cpu) : Prop where
  kept : ∀ i, s.Live cfg i → s'.Live cfg i → s'.rob.entry i = s.rob.entry i
  fresh : ∀ i, s'.Live cfg i → ¬ s.Live cfg i → RobEntry.Fresh s.instrUniqueId (s'.rob.entry i)
  gone : ∀ i, s.Live cfg i → ¬ s'.Live cfg i → (s.rob.entry i).executed = .completed
  older : ∀ p i, s.Older cfg p i → s'.Live cfg p → s'.Older cfg p i
  free : ∀ p, ¬ s'.Live cfg p → (∀ j i, i ∉ (s'.rob.entry p).registersIndexDependOnMe j) ∧
    ∀ i, i ∉ (s'.rob.entry p).registersInstrsDependOnMe
  rte0 : s'.rte0 = s.rte0
  rte1 : s'.rte1 = s.rte1
  uniqueId : s.instrUniqueId ≤ s'.instrUniqueId

theorem Recorded.index_free (hr : s.Recorded cfg none []) (hp : ¬ s.Live cfg p)
    (j : Fin numInstrSources) (k : ℕ) : k ∉ (s.rob.entry p).registersIndexDependOnMe j := fun hk =>
  hp (hr.older p k j hk).live_left

theorem Recorded.instrs_free (hr : s.Recorded cfg none []) (hp : ¬ s.Live cfg p) (k : ℕ) :
    k ∉ (s.rob.entry p).registersInstrsDependOnMe := fun hk => by
  obtain ⟨j, hj⟩ := (hr.instrs p k).1 hk
  exact hr.index_free hp j k hj

theorem Turnover.mem_index (h : Turnover cfg s s') (hr : s.Recorded cfg none [])
    {j : Fin numInstrSources} : i ∈ (s'.rob.entry p).registersIndexDependOnMe j ↔
      i ∈ (s.rob.entry p).registersIndexDependOnMe j ∧ s'.Live cfg p := by
  by_cases hp' : s'.Live cfg p
  · by_cases hp : s.Live cfg p
    · rw [h.kept p hp hp', and_iff_left hp']
    · have hf := h.fresh p hp' hp
      rw [hf.index]
      exact iff_of_false (Finset.notMem_empty i) fun hi => hp (hr.older p i j hi.1).live_left
  · exact iff_of_false ((h.free p hp').1 j i) fun hi => hp' hi.2

/-- An instruction waits for the same sources. -/
theorem Turnover.waiting (h : Turnover cfg s s') (hr : s.Recorded cfg none []) (i : ℕ) :
    s'.waiting [] i = s.waiting [] i := by
  ext j
  simp only [mem_waiting, Waits, h.mem_index hr, List.not_mem_nil, or_false]
  constructor
  · rintro ⟨p, ⟨hi, hp'⟩, hx⟩
    rw [h.kept p (hr.older p i j hi).live_left hp'] at hx
    exact ⟨p, hi, hx⟩
  · rintro ⟨p, hi, hx⟩
    have hp := (hr.older p i j hi).live_left
    have hp' : s'.Live cfg p := by
      by_contra hgone
      exact hx (h.gone p hp hgone)
    exact ⟨p, ⟨hi, hp'⟩, by rwa [h.kept p hp hp']⟩

theorem Turnover.recorded (h : Turnover cfg s s') (hr : s.Recorded cfg none []) :
    s'.Recorded cfg none [] := by
  have hlive : ∀ q k j, k ∈ (s'.rob.entry q).registersIndexDependOnMe j →
      s.Older cfg q k ∧ s'.Older cfg q k ∧ s'.rob.entry q = s.rob.entry q ∧
        s'.rob.entry k = s.rob.entry k := by
    intro q k j hk
    obtain ⟨hk, hq'⟩ := (h.mem_index hr).1 hk
    have hold := hr.older q k j hk
    have hold' := h.older q k hold hq'
    exact ⟨hold, hold', h.kept q hold.live_left hq', h.kept k hold.live hold'.live⟩
  refine ⟨fun q k j hk => (hlive q k j hk).2.1, fun q k j hk => ?_, fun q k j hk => ?_,
    fun q q' k j hk hk' => ?_, fun q k => ?_, fun q k hk => ?_, fun k j hk => ?_,
    fun k hk => ?_, fun k hk hs => ?_⟩
  · rw [(hlive q k j hk).2.2.2]
    exact hr.scheduled q k j ((h.mem_index hr).1 hk).1
  · rw [(hlive q k j hk).2.2.2]
    exact hr.checked q k j ((h.mem_index hr).1 hk).1
  · exact hr.unique q q' k j ((h.mem_index hr).1 hk).1 ((h.mem_index hr).1 hk').1
  · by_cases hq' : s'.Live cfg q
    · by_cases hq : s.Live cfg q
      · rw [h.kept q hq hq']
        exact hr.instrs q k
      · have hf := h.fresh q hq' hq
        simp [hf.instrs, hf.index]
    · exact iff_of_false ((h.free q hq').2 k) fun ⟨j, hk⟩ => (h.free q hq').1 j k hk
  · by_cases hq' : s'.Live cfg q
    · by_cases hq : s.Live cfg q
      · rw [h.kept q hq hq'] at hk ⊢
        exact hr.producer q k hk
      · have hf := h.fresh q hq' hq
        simp [hf.instrs] at hk
    · exact absurd hk ((h.free q hq').2 k)
  · simp at hk
  · rw [h.waiting hr]
    by_cases hk' : s.Live cfg k
    · rw [h.kept k hk' hk]
      exact hr.count k hk'
    · have hf := h.fresh k hk hk'
      have hnone : s.waiting [] k = ∅ := by
        ext j
        simp only [mem_waiting, Waits, List.not_mem_nil, or_false, Finset.notMem_empty, iff_false]
        rintro ⟨q, hq, -⟩
        exact hk' (hr.live hq)
      rw [hf.numRegDependent, hnone]
      rfl
  · have hs := hs.resolve_right (by simp)
    by_cases hk' : s.Live cfg k
    · rw [h.kept k hk' hk] at hs ⊢
      exact hr.ready k hk' (.inl hs)
    · have hf := h.fresh k hk hk'
      exact absurd hf.scheduled hs

/-- The instructions that both states hold have been put into the arrays in both or in none. -/
theorem Turnover.readied (h : Turnover cfg s s') (hi : s'.Live cfg i) :
    s'.Readied cfg i ↔ s.Readied cfg i := by
  by_cases hi' : s.Live cfg i
  · rw [Readied, Readied, h.kept i hi' hi, and_iff_right hi, and_iff_right hi']
  · have hf := h.fresh i hi hi'
    exact iff_of_false (fun hr => hr.2.2.1 hf.scheduled) fun hr => hi' hr.1

theorem Wakes.turnover (hw : s.Wakes cfg) (h : Turnover cfg s s') (ho : s'.InOrder cfg) :
    s'.Wakes cfg := by
  obtain ⟨l₀, l₁, hw⟩ := hw
  have hq := hw.queued
  refine ⟨l₀, l₁, ho, h.recorded hw.recorded, h.rte0 ▸ hq.rte0, h.rte1 ▸ hq.rte1, hq.nodup,
    fun k => ?_, fun k hk hm hx => ?_⟩
  · rw [hq.mem]
    constructor
    · rintro ⟨hr, hx⟩
      have hk' : s'.Live cfg k := by
        by_contra hgone
        exact absurd (h.gone k hr.1 hgone) (by simp [hx])
      exact ⟨(h.readied hk').2 hr, by rw [h.kept k hr.1 hk', hx]⟩
    · rintro ⟨hr, hx⟩
      have hr' := (h.readied hr.1).1 hr
      exact ⟨hr', by rwa [h.kept k hr'.1 hr.1] at hx⟩
  · by_cases hk' : s.Live cfg k
    · rw [h.kept k hk' hk] at hm hx ⊢
      exact hq.issued k hk' hm hx
    · have hf := h.fresh k hk hk'
      exact absurd hf.executed hx

/-- An instruction that is read comes in. -/
theorem Added.turnover (h : Added cfg s s') (ho : s.InOrder cfg)
    (hroom : s.rob.occupancy < cfg.robSize) (hr : s.Recorded cfg none []) :
    Turnover cfg s s' := by
  have hlive := fun k => h.ends.live (i := k) ho.ring hroom
  have htail := ho.ring.not_live_tail hroom
  refine ⟨fun k hk _ => h.others k fun heq => htail (heq ▸ hk), fun k hk hk' => ?_,
    fun k hk hk' => ?_, fun q k hqk _ => ?_, fun q hq => ?_, h.rte0, h.rte1, ?_⟩
  · obtain rfl := ((hlive k).1 hk).resolve_left hk'
    exact h.fresh
  · exact absurd ((hlive k).2 (.inl hk)) hk'
  · exact (h.ends.older ho.ring hroom).2 (.inl hqk)
  · rw [hlive, not_or] at hq
    rw [h.others q hq.2]
    exact ⟨hr.index_free hq.1, hr.instrs_free hq.1⟩
  · rw [h.uniqueId]
    exact Nat.le_succ _

/-! ## Retiring -/

/-- An instruction that retires keeps the others in order. -/
theorem Retired.inOrder (h : Retired cfg s s') (ho : s.InOrder cfg) : s'.InOrder cfg := by
  have hlive := fun k => h.ends.live (i := k) ho.ring
  have hold : ∀ k, s'.Live cfg k → s'.rob.entry k = s.rob.entry k := fun k hk =>
    h.others k ((hlive k).1 hk).2
  refine ⟨h.ends.ringOk ho.ring, fun k hk => ?_, fun q k hqk => ?_, fun k hk => ?_,
    fun k hk => ?_, fun k hk => ?_⟩
  · by_cases hkh : k = s.rob.head
    · rw [hkh, h.empty]
      exact ⟨rfl, rfl, rfl, rfl, rfl, rfl, fun _ => rfl⟩
    · rw [h.others k hkh]
      exact ho.blank k fun hk' => hk ((hlive k).2 ⟨hk', hkh⟩)
  · rw [hold q hqk.live_left, hold k hqk.live]
    exact ho.ids q k ((h.ends.older ho.ring).1 hqk).1
  · rw [hold k hk, h.uniqueId]
    exact ho.idLt k ((hlive k).1 hk).1
  · by_cases hkh : k = s.rob.head
    · rw [hkh, h.empty] at hk
      exact absurd rfl hk
    · rw [h.others k hkh] at hk ⊢
      exact ho.scheduled k hk
  · by_cases hkh : k = s.rob.head
    · rw [hkh, h.empty] at hk
      exact absurd rfl hk
    · rw [h.others k hkh] at hk ⊢
      exact ho.fetched k hk

/-- An instruction that retires goes. -/
theorem Retired.turnover (h : Retired cfg s s') (ho : s.InOrder cfg)
    (hr : s.Recorded cfg none []) : Turnover cfg s s' := by
  have hlive := fun k => h.ends.live (i := k) ho.ring
  refine ⟨fun k _ hk => h.others k ((hlive k).1 hk).2, fun k hk hk' => ?_, fun k hk hk' => ?_,
    fun q k hqk hq => ?_, fun q hq => ?_, h.rte0, h.rte1, h.uniqueId.ge⟩
  · exact absurd ((hlive k).1 hk).1 hk'
  · have hkh : k = s.rob.head := by
      by_contra hne
      exact hk' ((hlive k).2 ⟨hk, hne⟩)
    rw [hkh]
    exact h.completed
  · exact (h.ends.older ho.ring).2 ⟨hqk, ((hlive q).1 hq).2⟩
  · by_cases hqh : q = s.rob.head
    · rw [hqh, h.empty]
      exact ⟨fun _ _ => Finset.notMem_empty _, fun _ => Finset.notMem_empty _⟩
    · rw [h.others q hqh]
      have hfree : ¬ s.Live cfg q := fun hq' => hq ((hlive q).2 ⟨hq', hqh⟩)
      exact ⟨hr.index_free hfree, hr.instrs_free hfree⟩

/-- `freeStore` writes the store queue alone. -/
theorem freeStores_same (is : List ℕ) (s : O3Cpu) :
    SameButSta s (is.foldl (fun s i => s.freeStore cfg i) s) := by
  induction is generalizing s with
  | nil => exact ⟨rfl, rfl, rfl, rfl⟩
  | cons i is ih =>
    obtain ⟨h₁, h₂, h₃, h₄⟩ := ih (s.freeStore cfg i)
    exact ⟨h₁, h₂, h₃, h₄⟩

theorem retireHead_retired {room : Bool} (ho : s.InOrder cfg) (h : s.retires room) :
    Retired cfg s (s.retireHead cfg) := by
  have hlive : s.Live cfg s.rob.head := by
    by_contra hfree
    exact h.1 (ho.blank _ hfree).ip
  have hpos : 0 < s.rob.occupancy := Nat.zero_lt_of_lt hlive.2
  obtain ⟨hrob, h₀, h₁, hid⟩ := @freeStores_same cfg s.freedStores s
  refine ⟨⟨?_, ?_, ?_⟩, h.1, h.2.1, ?_, fun k hk => ?_, h₀, h₁, hid⟩
  · simp only [retireHead, modifyRob, hrob]
  · simp only [retireHead, modifyRob, hrob]
  · simp only [retireHead, modifyRob, hrob]
    omega
  · simp only [retireHead, modifyRob, hrob, Function.update_self]
  · simp only [retireHead, modifyRob, hrob, Function.update_of_ne hk]

/-- What the retirement of each instruction keeps, `retire_rob` keeps. -/
theorem retireFrom_keeps {P : O3Cpu → Prop} {room : ℕ → Bool}
    (hP : ∀ t t', t.InOrder cfg → P t → Retired cfg t t' → P t') (n : ℕ) (ho : s.InOrder cfg)
    (h : P s) : (s.retireFrom cfg room n).1.InOrder cfg ∧ P (s.retireFrom cfg room n).1 := by
  induction n generalizing s with
  | zero => exact ⟨ho, h⟩
  | succ n ih =>
    rw [retireFrom]
    split
    · rename_i hr
      have hret := retireHead_retired ho hr
      exact ih (hret.inOrder ho) (hP _ _ ho h hret)
    · exact ⟨ho, h⟩

/-! ## Fetching -/

/-- The fetch unit writes how far instructions are translated and fetched: in no free slot, and
what is fetched stays so. -/
structure SameButFetch (cfg : CoreConfig) (s s' : O3Cpu) : Prop where
  ring : SameRing s s'
  entry : ∀ i, withoutFetch (s'.rob.entry i) = withoutFetch (s.rob.entry i)
  free : ∀ i, ¬ s.Live cfg i → s'.rob.entry i = s.rob.entry i
  done : ∀ i, (s.rob.entry i).fetched = .completed → (s'.rob.entry i).fetched = .completed
  rte0 : s'.rte0 = s.rte0
  rte1 : s'.rte1 = s.rte1
  uniqueId : s'.instrUniqueId = s.instrUniqueId

theorem SameButFetch.refl (s : O3Cpu) : SameButFetch cfg s s :=
  ⟨.refl s, fun _ => rfl, fun _ _ => rfl, fun _ h => h, rfl, rfl, rfl⟩

theorem SameButFetch.trans (h : SameButFetch cfg s s') (h' : SameButFetch cfg s' s'') :
    SameButFetch cfg s s'' :=
  ⟨h.ring.trans h'.ring, fun i => (h'.entry i).trans (h.entry i),
    fun i hi => (h'.free i fun hl => hi (h.ring.live.1 hl)).trans (h.free i hi),
    fun i hi => h'.done i (h.done i hi), h'.rte0.trans h.rte0, h'.rte1.trans h.rte1,
    h'.uniqueId.trans h.uniqueId⟩

/-- A field that the fetch unit leaves alone. -/
theorem SameButFetch.field {β : Type*} (h : SameButFetch cfg s s') (g : RobEntry → β)
    (hg : ∀ e, g (withoutFetch e) = g e) (i : ℕ) : g (s'.rob.entry i) = g (s.rob.entry i) := by
  rw [← hg, h.entry, hg]

theorem sameButFetch_modifyRob (hi : s.Live cfg i) {f : RobEntry → RobEntry}
    (hf : ∀ e, withoutFetch (f e) = withoutFetch e)
    (hdone : (s.rob.entry i).fetched = .completed → (f (s.rob.entry i)).fetched = .completed) :
    SameButFetch cfg s (s.modifyRob i f) := by
  refine ⟨⟨rfl, rfl, rfl⟩, fun k => ?_, fun k hk => ?_, fun k hk => ?_, rfl, rfl, rfl⟩
  · rw [entry_modifyRob]
    split
    · exact hf _
    · rfl
  · have hne : k ≠ i := fun heq => hk (heq ▸ hi)
    rw [entry_modifyRob_of_ne hne]
  · rw [entry_modifyRob]
    split
    · rename_i hki
      subst hki
      exact hdone hk
    · exact hk

theorem SameButFetch.registers (h : SameButFetch cfg s s') : SameRegisters s s' where
  records := ⟨h.ring, h.field _ fun _ => rfl, h.field _ fun _ => rfl, h.field _ fun _ => rfl,
    h.field _ fun _ => rfl, h.field _ fun _ => rfl, fun i => by
      rw [h.field RobEntry.executed fun _ => rfl]⟩
  rte0 := h.rte0
  rte1 := h.rte1
  ready := h.field _ fun _ => rfl
  scheduled := fun i => by rw [h.field RobEntry.scheduled fun _ => rfl]
  isMemory := h.field _ fun _ => rfl
  executed := fun i _ => by rw [h.field RobEntry.executed fun _ => rfl]

theorem SameButFetch.inOrder (h : SameButFetch cfg s s') (ho : s.InOrder cfg) :
    s'.InOrder cfg := by
  refine ho.congr h.ring (h.field _ fun _ => rfl) h.uniqueId (fun i hi => ?_) (fun i hi => ?_)
    fun i hi => ?_
  · rw [h.free i hi]
    exact ho.blank i hi
  · rw [h.field RobEntry.executed fun _ => rfl] at hi
    rw [h.field RobEntry.scheduled fun _ => rfl]
    exact ho.scheduled i hi
  · rw [h.field RobEntry.scheduled fun _ => rfl] at hi
    exact h.done i (ho.fetched i hi)

theorem Wakes.fetch (h : s.Wakes cfg) (hsame : SameButFetch cfg s s') :
    s'.Wakes cfg ∧ Adds cfg [] s s' :=
  h.of_same hsame.registers (hsame.inOrder h.inOrder)

theorem completeFetch_same (isItTlb : Bool) (cycle : Cycle) (hi : s.Live cfg i) :
    SameButFetch cfg s (s.completeFetch isItTlb cycle i) := by
  refine sameButFetch_modifyRob hi (fun e => ?_) fun hdone => ?_
  · split <;> rfl
  · split
    · exact hdone
    · rfl

/-- The slots that the loops over the whole buffer visit are live. -/
theorem live_of_mem_robSlots (hr : s.RingOk cfg) (hpos : 0 < s.rob.occupancy)
    (hi : i ∈ s.robSlots cfg) : s.Live cfg i := by
  rw [robSlots, Ring.scan_eq hr.head_lt hr.tail_lt.le, hr.tail_eq,
    Ring.span_index hr.head_lt hpos hr.occupancy_le, List.mem_map] at hi
  obtain ⟨k, hk, rfl⟩ := hi
  have hk := List.mem_range.1 hk
  have hkn := hk.trans_le hr.occupancy_le
  exact ⟨Ring.index_lt hr.head_lt hkn, by rwa [place, Ring.place_index hr.head_lt hkn]⟩

/-- The slot that `check_rob` finds holds the instruction. -/
theorem live_of_checkRob (hr : s.RingOk cfg) {id : ℕ} (h : s.checkRob cfg id = some i) :
    s.Live cfg i ∧ (s.rob.entry i).instrId = id := by
  rw [checkRob] at h
  split at h
  · cases h
  · rename_i hne
    have hpos : 0 < s.rob.occupancy := by
      by_contra hzero
      refine hne ⟨?_, by omega⟩
      rw [hr.tail_eq, Nat.eq_zero_of_not_pos hzero, Ring.index_zero hr.head_lt]
    exact ⟨live_of_mem_robSlots hr hpos (List.mem_of_find?_eq_some h), by
      simpa using List.find?_some h⟩

/-- The slots that are marked hold instructions. -/
theorem completeMerged_same (isItTlb : Bool) (cycle : O3Cpu → ℕ → Cycle) (is : List (ℕ × ℕ))
    (h : ∀ x ∈ is, s.Live cfg x.1) :
    SameButFetch cfg s (is.foldl (fun s x => s.completeFetch isItTlb (cycle s x.2) x.1) s) := by
  induction is generalizing s with
  | nil => exact .refl s
  | cons x is ih =>
    have hx := completeFetch_same isItTlb (cycle s x.2) (h x (List.mem_cons_self ..))
    exact hx.trans (ih fun y hy => hx.ring.live.2 (h y (List.mem_cons_of_mem _ hy)))

/-- `complete_instr_fetch` when the merged requests are for slots that hold instructions. -/
theorem completeInstrFetch_same (ho : s.InOrder cfg) (fetchWidth : ℕ) (isItTlb : Bool)
    (request : FetchRequest) (merged : Finset ℕ) :
    Ends (s.completeInstrFetch cfg fetchWidth isItTlb request merged)
      (fun s' => (∀ i ∈ merged, s.Live cfg i) → SameButFetch cfg s s') (· = .checkRob) := by
  rw [completeInstrFetch]
  split
  · exact .error rfl
  rename_i hrob
  have hlive := (live_of_checkRob ho.ring (not_not.1 hrob)).1
  have hfirst := completeFetch_same isItTlb s.currentCoreCycle hlive
  refine .ok fun hm => hfirst.trans (completeMerged_same isItTlb
    (fun s n => s.currentCoreCycle + UInt64.ofNat ((n + 1) / fetchWidth)) _ fun x hx => ?_)
  have hmem := List.fst_mem_of_mem_zipIdx hx
  rw [expand, List.mem_filter, decide_eq_true_iff] at hmem
  exact hfirst.ring.live.2 (hm _ hmem.2)

end

end O3Cpu

namespace Core

variable {cfg : PipelineConfig} {c : Core}

theorem handleBranch_added (r : InputInstr) (mispredicted : Bool) (c : Core) :
    Ends (c.handleBranch cfg r mispredicted) (fun c' =>
      O3Cpu.Added cfg.toCoreConfig c.cpu c'.cpu ∧ c'.fetch.lastRead = c.fetch.lastRead ∧
        c'.fetch.lastFetch = c.fetch.lastFetch) O3Cpu.ReadFault := by
  refine (O3Cpu.handleBranch_added r c.cpu).bind fun cpu h => ?_
  split
  · refine .ok ⟨h.modifyRob (f := fun e => { e with branchMispredicted := true }) fun e he => ?_,
      rfl, rfl⟩
    exact ⟨he.instrId, he.ip, he.translated, he.fetched, he.scheduled, he.executed,
      he.regRawChecked, he.numRegDependent, he.instrs, he.index⟩
  · exact .ok ⟨h, rfl, rfl⟩

theorem resumeFetch_cpu (c : Core) : c.resumeFetch.cpu = c.cpu := by
  rw [resumeFetch]
  split <;> rfl

/-- The requests to the ITLB write the pointer of the fetch unit alone. -/
theorem sendItlb_cpu (k accepts : ℕ) (c : Core) :
    Ends (c.sendItlb cfg k accepts) (fun r => r.1.cpu = c.cpu) (· = .itlbOrder) := by
  induction k generalizing accepts c with
  | zero => exact .ok rfl
  | succ k ih =>
    unfold sendItlb
    simp only
    split
    · exact .ok rfl
    split
    · split
      · exact .ok rfl
      · exact .error rfl
    cases accepts with
    | zero => exact .ok rfl
    | succ a => exact (ih a _).bind fun r hr => .ok hr

/-- The requests to the L1I are for instructions that are translated. -/
theorem sendL1i_same (k accepts : ℕ) (ho : c.cpu.InOrder cfg.toCoreConfig) :
    Ends (c.sendL1i cfg k accepts) (fun r => O3Cpu.SameButFetch cfg.toCoreConfig c.cpu r.1.cpu)
      (· = .l1iOrder) := by
  induction k generalizing accepts c with
  | zero => exact .ok (.refl _)
  | succ k ih =>
    unfold sendL1i
    simp only
    split
    · exact .ok (.refl _)
    rename_i htr
    split
    · split
      · exact .ok (.refl _)
      · exact .error rfl
    rename_i hf
    cases accepts with
    | zero => exact .ok (.refl _)
    | succ a =>
      have hlive : c.cpu.Live cfg.toCoreConfig (Ring.next cfg.robSize c.fetch.lastFetch) := by
        by_contra hfree
        exact htr (.inl (by simp [(ho.blank _ hfree).translated]))
      have hsame : O3Cpu.SameButFetch cfg.toCoreConfig c.cpu
          (c.cpu.modifyRob (Ring.next cfg.robSize c.fetch.lastFetch) fun e =>
            { e with fetched := .inflight }) :=
        O3Cpu.sameButFetch_modifyRob hlive (fun _ => rfl) fun h =>
          absurd (not_not.1 hf) (by simp [h])
      exact (ih a (hsame.inOrder ho)).bind fun r hr => .ok (hsame.trans hr)

theorem fetchInstruction_same (itlb l1i : ℕ) (ho : c.cpu.InOrder cfg.toCoreConfig) :
    Ends (c.fetchInstruction cfg itlb l1i)
      (fun r => O3Cpu.SameButFetch cfg.toCoreConfig c.cpu r.1.cpu)
      (fun e => e = .itlbOrder ∨ e = .l1iOrder) := by
  have hread := @sendItlb_cpu cfg cfg.fetchWidth itlb c.resumeFetch
  refine (hread.mono (fun _ h => h) fun e he => .inl he).bind fun r hr => ?_
  have hcpu : r.1.cpu = c.cpu := hr.trans c.resumeFetch_cpu
  have hfetch := @sendL1i_same cfg r.1 cfg.fetchWidth l1i (hcpu ▸ ho)
  exact (hfetch.mono (fun _ h => h) fun e he => .inr he).bind fun r' hr' => .ok (hcpu ▸ hr')

end Core

end Arishem
