import Arishem.Core.Transitions

/-!
# Translating and fetching

Over a run of a core, `fetch_instruction` sends the instructions of the reorder buffer to the ITLB and to
the L1I in program order, each once, and its pointers stand on the last one that was sent. An instruction
that was sent to the L1I is marked as in flight, one that was sent to the ITLB is not: when the buffer
is full and all its instructions were sent, the first loop meets the one at the head again, and sends it
again if its translation has not come.
-/

namespace Arishem

namespace O3Cpu

/-- The instructions of the buffer whose ids were sent are the first `n`, and `last` is the slot before
the next one. -/
structure Sent (cfg : CoreConfig) (ids : List ℕ) (last n : ℕ) (s : O3Cpu) : Prop where
  le : n ≤ s.rob.occupancy
  next : Ring.next cfg.robSize last = Ring.index cfg.robSize s.rob.head n
  mem : ∀ i, s.Live cfg i → ((s.rob.entry i).instrId ∈ ids ↔ s.place cfg i < n)
  once : ids.Nodup
  idLt : ∀ id ∈ ids, id < s.instrUniqueId

section
variable {cfg : CoreConfig} {s s' : O3Cpu} {ids : List ℕ} {last n i : ℕ}

/-- What is sent depends on the ends of the buffer and the ids. -/
theorem Sent.congr (h : Sent cfg ids last n s) (hring : SameRing s s')
    (hid : ∀ i, (s'.rob.entry i).instrId = (s.rob.entry i).instrId)
    (huid : s'.instrUniqueId = s.instrUniqueId) : Sent cfg ids last n s' where
  le := by
    rw [hring.occupancy]
    exact h.le
  next := by
    rw [hring.head]
    exact h.next
  mem i hi := by
    rw [hid, hring.place]
    exact h.mem i (hring.live.1 hi)
  once := h.once
  idLt id hid' := by
    rw [huid]
    exact h.idLt id hid'

/-- An instruction that is read was not sent. -/
theorem Sent.added (h : Sent cfg ids last n s) (ho : s.InOrder cfg)
    (hroom : s.rob.occupancy < cfg.robSize) (ha : Added cfg s s') : Sent cfg ids last n s' where
  le := by
    rw [ha.ends.occupancy]
    exact Nat.le_succ_of_le h.le
  next := by
    rw [ha.ends.head]
    exact h.next
  mem i hi := by
    rw [place, ha.ends.head]
    rcases (ha.ends.live ho.ring hroom).1 hi with hi | rfl
    · have hne : i ≠ s.rob.tail := fun heq => ho.ring.not_live_tail hroom (heq ▸ hi)
      rw [ha.others i hne]
      exact h.mem i hi
    · rw [ha.fresh.instrId]
      have hplace := ho.ring.place_tail hroom
      have hle := h.le
      rw [place] at hplace
      exact iff_of_false (fun hid => lt_irrefl _ (h.idLt _ hid)) (by omega)
  once := h.once
  idLt id hid := by
    rw [ha.uniqueId]
    exact Nat.lt_succ_of_lt (h.idLt id hid)

/-- An instruction that retires was sent first. -/
theorem Sent.retired (h : Sent cfg ids last n s) (ho : s.InOrder cfg) (hn : 0 < n)
    (hr : Retired cfg s s') : Sent cfg ids last (n - 1) s' where
  le := by
    have hle := h.le
    have hocc := hr.ends.occupancy
    omega
  next := by
    have hh := ho.ring.head_lt
    have hle := h.le.trans ho.ring.occupancy_le
    rw [h.next, hr.ends.head, Ring.index, Ring.index, Ring.next]
    split <;> split <;> split <;> omega
  mem i hi := by
    obtain ⟨hi', hne⟩ := (hr.ends.live ho.ring).1 hi
    have hplace := hr.ends.place ho.ring hi'.1 hne
    rw [hr.others i hne, h.mem i hi']
    omega
  once := h.once
  idLt id hid := by
    rw [hr.uniqueId]
    exact h.idLt id hid

/-- The slot of the next instruction to send. -/
theorem live_index (hr : s.RingOk cfg) (hn : n < s.rob.occupancy) :
    s.Live cfg (Ring.index cfg.robSize s.rob.head n) ∧
      s.place cfg (Ring.index cfg.robSize s.rob.head n) = n := by
  have hlt := hn.trans_le hr.occupancy_le
  have hplace := Ring.place_index hr.head_lt hlt
  exact ⟨⟨Ring.index_lt hr.head_lt hlt, by rwa [place, hplace]⟩, hplace⟩

/-- The next instruction is sent. -/
theorem Sent.send (h : Sent cfg ids last n s) (ho : s.InOrder cfg) (hn : n < s.rob.occupancy)
    (hsame : SameRing s s') (hid : ∀ i, (s'.rob.entry i).instrId = (s.rob.entry i).instrId)
    (huid : s'.instrUniqueId = s.instrUniqueId) :
    Sent cfg (ids ++ [(s.rob.entry (Ring.index cfg.robSize s.rob.head n)).instrId])
      (Ring.index cfg.robSize s.rob.head n) (n + 1) s' := by
  obtain ⟨hlive, hplace⟩ := live_index ho.ring hn
  refine ⟨?_, ?_, fun i hi => ?_, ?_, fun id hid' => ?_⟩
  · rw [hsame.occupancy]
    exact hn
  · rw [hsame.head, Ring.next_index ho.ring.head_lt (by have := ho.ring.occupancy_le; omega)]
  · have hi := hsame.live.1 hi
    rw [hid, List.mem_append, h.mem i hi, List.mem_singleton, hsame.place]
    have hiff : (s.rob.entry i).instrId =
        (s.rob.entry (Ring.index cfg.robSize s.rob.head n)).instrId ↔ s.place cfg i = n := by
      constructor
      · intro heq
        rw [ho.instrId_inj hi hlive heq, hplace]
      · intro heq
        rw [ho.ring.eq_of_place hi.1 hlive.1 (heq.trans hplace.symm)]
    rw [hiff]
    exact Nat.lt_succ_iff_lt_or_eq.symm
  · refine List.nodup_append.2 ⟨h.once, List.nodup_singleton _, fun a ha b hb hab => ?_⟩
    rw [hab, List.mem_singleton.1 hb, h.mem _ hlive, hplace] at ha
    exact lt_irrefl n ha
  · rw [huid]
    rcases List.mem_append.1 hid' with hid' | hid'
    · exact h.idLt id hid'
    · rw [List.mem_singleton.1 hid']
      exact ho.idLt _ hlive

/-! ## Answers -/

/-- How far an instruction is translated or fetched. -/
def fetchStage (isItTlb : Bool) (e : RobEntry) : Progress :=
  if isItTlb then e.translated else e.fetched

/-- These slots are marked as translated or fetched. -/
structure Marks (isItTlb : Bool) (is : List ℕ) (s s' : O3Cpu) : Prop where
  marked : ∀ i ∈ is, fetchStage isItTlb (s'.rob.entry i) = .completed
  kept : ∀ i, i ∉ is → fetchStage isItTlb (s'.rob.entry i) = fetchStage isItTlb (s.rob.entry i)
  other : ∀ i, fetchStage (!isItTlb) (s'.rob.entry i) = fetchStage (!isItTlb) (s.rob.entry i)

theorem marks_completeFetch (isItTlb : Bool) (cycle : Cycle) (i : ℕ) (s : O3Cpu) :
    Marks isItTlb [i] s (s.completeFetch isItTlb cycle i) := by
  refine ⟨fun k hk => ?_, fun k hk => ?_, fun k => ?_⟩
  · rw [List.mem_singleton.1 hk, completeFetch, entry_modifyRob_self]
    cases isItTlb <;> rfl
  · rw [completeFetch, entry_modifyRob_of_ne fun heq => hk (List.mem_singleton.2 heq)]
  · rw [completeFetch, entry_modifyRob]
    split
    · cases isItTlb <;> rfl
    · rfl

theorem Marks.trans {s'' : O3Cpu} {isItTlb : Bool} {is is' : List ℕ} (h : Marks isItTlb is s s')
    (h' : Marks isItTlb is' s' s'') : Marks isItTlb (is ++ is') s s'' := by
  refine ⟨fun i hi => ?_, fun i hi => ?_, fun i => (h'.other i).trans (h.other i)⟩
  · by_cases hi' : i ∈ is'
    · exact h'.marked i hi'
    · rw [h'.kept i hi']
      exact h.marked i ((List.mem_append.1 hi).resolve_right hi')
  · rw [List.mem_append, not_or] at hi
    rw [h'.kept i hi.2, h.kept i hi.1]

theorem marks_merged (isItTlb : Bool) (cycle : O3Cpu → ℕ → Cycle) (is : List (ℕ × ℕ)) (s : O3Cpu) :
    Marks isItTlb (is.map Prod.fst) s
      (is.foldl (fun s x => s.completeFetch isItTlb (cycle s x.2) x.1) s) := by
  induction is generalizing s with
  | nil => exact ⟨fun i hi => absurd hi List.not_mem_nil, fun _ _ => rfl, fun _ => rfl⟩
  | cons x is ih => exact (marks_completeFetch isItTlb _ x.1 s).trans (ih _)

/-- `complete_instr_fetch` marks the slots of the answered and the merged requests. -/
theorem completeInstrFetch_marks (fetchWidth : ℕ) (isItTlb : Bool) (request : FetchRequest)
    (merged : Finset ℕ) (s : O3Cpu) :
    Ends (s.completeInstrFetch cfg fetchWidth isItTlb request merged)
      (Marks isItTlb (request.robIndex :: expand cfg.robSize merged) s) fun _ => True := by
  rw [completeInstrFetch]
  split
  · exact .error trivial
  have hfirst := marks_completeFetch isItTlb s.currentCoreCycle request.robIndex s
  have hrest := marks_merged isItTlb
    (fun s n => s.currentCoreCycle + UInt64.ofNat ((n + 1) / fetchWidth))
    (expand cfg.robSize merged).zipIdx (s.completeFetch isItTlb s.currentCoreCycle request.robIndex)
  rw [List.zipIdx_map_fst] at hrest
  exact .ok (hfirst.trans hrest)

end

end O3Cpu

namespace Core

/-- The fetch unit between its steps: `n` instructions were sent to the ITLB and `m` of these to the L1I,
the requests to the ITLB are open until the instructions are translated, and those to the L1I until they
are fetched. -/
structure Fetching (cfg : PipelineConfig) (itlbIds l1iIds : List ℕ) (itlb l1i : List FetchRequest)
    (n m : ℕ) (c : Core) : Prop where
  wakes : c.cpu.Wakes cfg.toCoreConfig
  read : O3Cpu.Sent cfg.toCoreConfig itlbIds c.fetch.lastRead n c.cpu
  fetch : O3Cpu.Sent cfg.toCoreConfig l1iIds c.fetch.lastFetch m c.cpu
  unread : ∀ i, c.cpu.Live cfg.toCoreConfig i → n ≤ c.cpu.place cfg.toCoreConfig i →
    (c.cpu.rob.entry i).translated ≠ .completed
  untranslated : ∀ i, (c.cpu.rob.entry i).translated ≠ .completed →
    (c.cpu.rob.entry i).translated = .none
  translated : ∀ i, c.cpu.Live cfg.toCoreConfig i → c.cpu.place cfg.toCoreConfig i < m →
    (c.cpu.rob.entry i).translated = .completed
  fetched : ∀ i, c.cpu.Live cfg.toCoreConfig i →
    (c.cpu.place cfg.toCoreConfig i < m ↔ (c.cpu.rob.entry i).fetched ≠ .none)
  itlbOpen : ∀ r, r ∈ itlb ↔ c.cpu.Live cfg.toCoreConfig r.robIndex ∧
    c.cpu.place cfg.toCoreConfig r.robIndex < n ∧
    (c.cpu.rob.entry r.robIndex).instrId = r.instrId ∧
    (c.cpu.rob.entry r.robIndex).translated = .none
  l1iOpen : ∀ r, r ∈ l1i ↔ c.cpu.Live cfg.toCoreConfig r.robIndex ∧
    (c.cpu.rob.entry r.robIndex).instrId = r.instrId ∧
    (c.cpu.rob.entry r.robIndex).fetched = .inflight
  itlbNodup : itlb.Nodup
  l1iNodup : l1i.Nodup

section
variable {cfg : PipelineConfig} {c c' : Core} {itlbIds l1iIds : List ℕ}
  {itlb l1i : List FetchRequest} {n m : ℕ}

theorem Fetching.inOrder (h : Fetching cfg itlbIds l1iIds itlb l1i n m c) :
    c.cpu.InOrder cfg.toCoreConfig := h.wakes.inOrder

/-- A stage that leaves the fetch unit alone. -/
theorem Fetching.same (h : Fetching cfg itlbIds l1iIds itlb l1i n m c)
    (hw : c'.cpu.Wakes cfg.toCoreConfig) (hsame : O3Cpu.SameFetch c.cpu c'.cpu)
    (hread : c'.fetch.lastRead = c.fetch.lastRead)
    (hfetch : c'.fetch.lastFetch = c.fetch.lastFetch) :
    Fetching cfg itlbIds l1iIds itlb l1i n m c' where
  wakes := hw
  read := by
    rw [hread]
    exact h.read.congr hsame.ring hsame.instrId hsame.uniqueId
  fetch := by
    rw [hfetch]
    exact h.fetch.congr hsame.ring hsame.instrId hsame.uniqueId
  unread i hi hn := by
    rw [hsame.translated]
    rw [hsame.ring.place] at hn
    exact h.unread i (hsame.ring.live.1 hi) hn
  untranslated i := by
    rw [hsame.translated]
    exact h.untranslated i
  translated i hi hm := by
    rw [hsame.translated]
    rw [hsame.ring.place] at hm
    exact h.translated i (hsame.ring.live.1 hi) hm
  fetched i hi := by
    rw [hsame.ring.place, hsame.fetched]
    exact h.fetched i (hsame.ring.live.1 hi)
  itlbOpen r := by
    rw [hsame.ring.live, hsame.ring.place, hsame.instrId, hsame.translated]
    exact h.itlbOpen r
  l1iOpen r := by
    rw [hsame.ring.live, hsame.instrId, hsame.fetched]
    exact h.l1iOpen r
  itlbNodup := h.itlbNodup
  l1iNodup := h.l1iNodup

/-- An instruction is read. -/
theorem Fetching.added (h : Fetching cfg itlbIds l1iIds itlb l1i n m c)
    (hroom : c.cpu.rob.occupancy < cfg.robSize)
    (ha : O3Cpu.Added cfg.toCoreConfig c.cpu c'.cpu)
    (hread : c'.fetch.lastRead = c.fetch.lastRead)
    (hfetch : c'.fetch.lastFetch = c.fetch.lastFetch) :
    Fetching cfg itlbIds l1iIds itlb l1i n m c' := by
  have ho := h.inOrder
  obtain ⟨l₀, l₁, hw⟩ := h.wakes
  have hplace : ∀ i, c'.cpu.place cfg.toCoreConfig i = c.cpu.place cfg.toCoreConfig i := by
    intro i
    rw [O3Cpu.place, O3Cpu.place, ha.ends.head]
  have hlive := fun i => ha.ends.live (i := i) ho.ring hroom
  have htail := ho.ring.place_tail hroom
  have hold : ∀ i, c.cpu.Live cfg.toCoreConfig i → c'.cpu.rob.entry i = c.cpu.rob.entry i := by
    intro i hi
    refine ha.others i fun heq => ?_
    rw [heq] at hi
    exact ho.ring.not_live_tail hroom hi
  have hfresh := ha.fresh
  refine ⟨h.wakes.turnover (ha.turnover ho hroom hw.recorded) (ha.inOrder ho hroom), ?_, ?_,
    fun i hi hn => ?_, fun i hi => ?_, fun i hi hm => ?_, fun i hi => ?_, fun r => ?_, fun r => ?_,
    h.itlbNodup, h.l1iNodup⟩
  · rw [hread]
    exact h.read.added ho hroom ha
  · rw [hfetch]
    exact h.fetch.added ho hroom ha
  · rw [hplace] at hn
    rcases (hlive i).1 hi with hi | rfl
    · rw [hold i hi]
      exact h.unread i hi hn
    · rw [hfresh.translated]
      simp
  · by_cases hit : i = c.cpu.rob.tail
    · rw [hit]
      exact hfresh.translated
    · rw [ha.others i hit] at hi ⊢
      exact h.untranslated i hi
  · rw [hplace] at hm
    rcases (hlive i).1 hi with hi | rfl
    · rw [hold i hi]
      exact h.translated i hi hm
    · have hle := h.fetch.le
      omega
  · rw [hplace]
    rcases (hlive i).1 hi with hi | rfl
    · rw [hold i hi]
      exact h.fetched i hi
    · have hle := h.fetch.le
      rw [hfresh.fetched]
      exact iff_of_false (by omega) (by simp)
  · rw [h.itlbOpen, hplace]
    constructor
    · rintro ⟨hi, hn, hid, ht⟩
      rw [hold _ hi]
      exact ⟨(hlive _).2 (.inl hi), hn, hid, ht⟩
    · rintro ⟨hi, hn, hid, ht⟩
      rcases (hlive _).1 hi with hi | heq
      · rw [hold _ hi] at hid ht
        exact ⟨hi, hn, hid, ht⟩
      · have hle := h.read.le
        rw [heq] at hn
        omega
  · rw [h.l1iOpen]
    constructor
    · rintro ⟨hi, hid, hf⟩
      rw [hold _ hi]
      exact ⟨(hlive _).2 (.inl hi), hid, hf⟩
    · rintro ⟨hi, hid, hf⟩
      rcases (hlive _).1 hi with hi | heq
      · rw [hold _ hi] at hid hf
        exact ⟨hi, hid, hf⟩
      · rw [heq, hfresh.fetched] at hf
        cases hf

/-- A completed instruction was translated and fetched. -/
theorem Fetching.sent_head (h : Fetching cfg itlbIds l1iIds itlb l1i n m c)
    (hlive : c.cpu.Live cfg.toCoreConfig c.cpu.rob.head)
    (hdone : (c.cpu.rob.entry c.cpu.rob.head).executed = .completed) :
    0 < n ∧ 0 < m ∧ (c.cpu.rob.entry c.cpu.rob.head).translated = .completed ∧
      (c.cpu.rob.entry c.cpu.rob.head).fetched = .completed := by
  have ho := h.inOrder
  have hsched := ho.scheduled c.cpu.rob.head (by rw [hdone]; simp)
  have hfetched := ho.fetched c.cpu.rob.head hsched
  have hm := (h.fetched _ hlive).2 (by rw [hfetched]; simp)
  have htr := h.translated _ hlive hm
  have hn : c.cpu.place cfg.toCoreConfig c.cpu.rob.head < n := by
    by_contra hle
    exact h.unread _ hlive (Nat.le_of_not_lt hle) htr
  exact ⟨Nat.zero_lt_of_lt hn, Nat.zero_lt_of_lt hm, htr, hfetched⟩

/-- The instruction at the head retires. -/
theorem Fetching.retired (h : Fetching cfg itlbIds l1iIds itlb l1i n m c)
    (hr : O3Cpu.Retired cfg.toCoreConfig c.cpu c'.cpu) (hfetch : c'.fetch = c.fetch) :
    Fetching cfg itlbIds l1iIds itlb l1i (n - 1) (m - 1) c' := by
  have ho := h.inOrder
  obtain ⟨l₀, l₁, hw⟩ := h.wakes
  have hlive := fun i => hr.ends.live (i := i) ho.ring
  have hhead : c.cpu.Live cfg.toCoreConfig c.cpu.rob.head := by
    by_contra hfree
    exact hr.ip (ho.blank _ hfree).ip
  obtain ⟨hn, hm, htr, hf⟩ := h.sent_head hhead hr.completed
  have hplace : ∀ i, c.cpu.Live cfg.toCoreConfig i → i ≠ c.cpu.rob.head →
      c'.cpu.place cfg.toCoreConfig i + 1 = c.cpu.place cfg.toCoreConfig i :=
    fun i hi hne => hr.ends.place ho.ring hi.1 hne
  refine ⟨h.wakes.turnover (hr.turnover ho hw.recorded) (hr.inOrder ho), ?_, ?_,
    fun i hi hle => ?_, fun i hi => ?_, fun i hi hlt => ?_, fun i hi => ?_, fun r => ?_,
    fun r => ?_, h.itlbNodup, h.l1iNodup⟩
  · rw [hfetch]
    exact h.read.retired ho hn hr
  · rw [hfetch]
    exact h.fetch.retired ho hm hr
  · obtain ⟨hi, hne⟩ := (hlive i).1 hi
    have hp := hplace i hi hne
    rw [hr.others i hne]
    exact h.unread i hi (by omega)
  · by_cases hne : i = c.cpu.rob.head
    · rw [hne, hr.empty]
      rfl
    · rw [hr.others i hne] at hi ⊢
      exact h.untranslated i hi
  · obtain ⟨hi, hne⟩ := (hlive i).1 hi
    have hp := hplace i hi hne
    rw [hr.others i hne]
    exact h.translated i hi (by omega)
  · obtain ⟨hi, hne⟩ := (hlive i).1 hi
    have hp := hplace i hi hne
    rw [hr.others i hne, ← h.fetched i hi]
    omega
  · rw [h.itlbOpen, hlive]
    constructor
    · rintro ⟨hi, hlt, hid, ht⟩
      have hne : r.robIndex ≠ c.cpu.rob.head := by
        intro heq
        rw [heq, htr] at ht
        cases ht
      have hp := hplace _ hi hne
      rw [hr.others _ hne]
      exact ⟨⟨hi, hne⟩, by omega, hid, ht⟩
    · rintro ⟨⟨hi, hne⟩, hlt, hid, ht⟩
      have hp := hplace _ hi hne
      rw [hr.others _ hne] at hid ht
      exact ⟨hi, by omega, hid, ht⟩
  · rw [h.l1iOpen, hlive]
    constructor
    · rintro ⟨hi, hid, hfl⟩
      have hne : r.robIndex ≠ c.cpu.rob.head := by
        intro heq
        rw [heq, hf] at hfl
        cases hfl
      rw [hr.others _ hne]
      exact ⟨⟨hi, hne⟩, hid, hfl⟩
    · rintro ⟨⟨hi, hne⟩, hid, hfl⟩
      rw [hr.others _ hne] at hid hfl
      exact ⟨hi, hid, hfl⟩

/-! ## Requests -/

/-- The ITLB accepts the next instruction. -/
theorem Fetching.sendsItlb (h : Fetching cfg itlbIds l1iIds itlb l1i n m c)
    (hn : n < c.cpu.rob.occupancy) :
    Fetching cfg
      (itlbIds ++ [(c.cpu.rob.entry (Ring.index cfg.robSize c.cpu.rob.head n)).instrId]) l1iIds
      (itlb ++ [⟨Ring.index cfg.robSize c.cpu.rob.head n,
        (c.cpu.rob.entry (Ring.index cfg.robSize c.cpu.rob.head n)).instrId⟩]) l1i (n + 1) m
      { c with fetch := { c.fetch with lastRead := Ring.index cfg.robSize c.cpu.rob.head n } } := by
  have ho := h.inOrder
  obtain ⟨hlive, hplace⟩ := O3Cpu.live_index ho.ring hn
  refine ⟨h.wakes, h.read.send ho hn (.refl _) (fun _ => rfl) rfl, h.fetch, fun i hi hle => ?_,
    h.untranslated, h.translated, h.fetched, fun r => ?_, h.l1iOpen, ?_, h.l1iNodup⟩
  · exact h.unread i hi (Nat.le_of_succ_le hle)
  · rw [List.mem_append, h.itlbOpen, List.mem_singleton]
    constructor
    · rintro (⟨hi, hlt, hid, ht⟩ | rfl)
      · exact ⟨hi, Nat.lt_succ_of_lt hlt, hid, ht⟩
      · refine ⟨hlive, ?_, rfl, h.untranslated _ (h.unread _ hlive hplace.ge)⟩
        rw [hplace]
        exact Nat.lt_succ_self n
    · rintro ⟨hi, hlt, hid, ht⟩
      rcases Nat.lt_succ_iff_lt_or_eq.1 hlt with hlt | heq
      · exact .inl ⟨hi, hlt, hid, ht⟩
      · have hslot := ho.ring.eq_of_place hi.1 hlive.1 (heq.trans hplace.symm)
        obtain ⟨slot, id⟩ := r
        dsimp only at hslot hid
        rw [← hid, hslot]
        exact .inr rfl
  · refine List.nodup_append.2 ⟨h.itlbNodup, List.nodup_singleton _, fun a ha b hb hab => ?_⟩
    rw [hab, List.mem_singleton.1 hb, h.itlbOpen, hplace] at ha
    exact lt_irrefl n ha.2.1

/-- The L1I accepts the next instruction, which is translated. -/
theorem Fetching.sendsL1i (h : Fetching cfg itlbIds l1iIds itlb l1i n m c)
    (hm : m < c.cpu.rob.occupancy)
    (ht : (c.cpu.rob.entry (Ring.index cfg.robSize c.cpu.rob.head m)).translated = .completed) :
    Fetching cfg itlbIds
      (l1iIds ++ [(c.cpu.rob.entry (Ring.index cfg.robSize c.cpu.rob.head m)).instrId]) itlb
      (l1i ++ [⟨Ring.index cfg.robSize c.cpu.rob.head m,
        (c.cpu.rob.entry (Ring.index cfg.robSize c.cpu.rob.head m)).instrId⟩]) n (m + 1)
      { cpu := c.cpu.modifyRob (Ring.index cfg.robSize c.cpu.rob.head m) fun e =>
          { e with fetched := .inflight }
        fetch := { c.fetch with lastFetch := Ring.index cfg.robSize c.cpu.rob.head m } } := by
  have ho := h.inOrder
  obtain ⟨hlive, hplace⟩ := O3Cpu.live_index ho.ring hm
  have hsend := fun t =>
    @O3Cpu.Sent.send cfg.toCoreConfig c.cpu t l1iIds c.fetch.lastFetch m h.fetch ho hm
  generalize Ring.index cfg.robSize c.cpu.rob.head m = k at ht hlive hplace hsend ⊢
  have hnone : (c.cpu.rob.entry k).fetched = .none := by
    by_contra hne
    have hlt := (h.fetched k hlive).2 hne
    rw [hplace] at hlt
    exact lt_irrefl m hlt
  have hsame : O3Cpu.SameButFetch cfg.toCoreConfig c.cpu
      (c.cpu.modifyRob k fun e => { e with fetched := .inflight }) :=
    O3Cpu.sameButFetch_modifyRob hlive (fun _ => rfl) fun hdone => by
      rw [hnone] at hdone
      cases hdone
  have hid := hsame.field RobEntry.instrId fun _ => rfl
  have htr : ∀ i, ((c.cpu.modifyRob k fun e => { e with fetched := .inflight }).rob.entry i).translated =
      (c.cpu.rob.entry i).translated := by
    intro i
    rw [O3Cpu.entry_modifyRob]
    split <;> rfl
  have hother : ∀ i, i ≠ k →
      (c.cpu.modifyRob k fun e => { e with fetched := .inflight }).rob.entry i =
        c.cpu.rob.entry i := fun i hi => O3Cpu.entry_modifyRob_of_ne hi
  have hself : ((c.cpu.modifyRob k fun e =>
      { e with fetched := .inflight }).rob.entry k).fetched = .inflight := by
    rw [O3Cpu.entry_modifyRob_self]
  have hlt : ∀ i, c.cpu.Live cfg.toCoreConfig i → i ≠ k →
      (c.cpu.place cfg.toCoreConfig i < m + 1 ↔ c.cpu.place cfg.toCoreConfig i < m) := by
    intro i hi hne
    have hpne : c.cpu.place cfg.toCoreConfig i ≠ m := fun heq =>
      hne (ho.ring.eq_of_place hi.1 hlive.1 (heq.trans hplace.symm))
    omega
  refine ⟨(h.wakes.fetch hsame).1, h.read.congr hsame.ring hid rfl, hsend _ hsame.ring hid rfl,
    fun i hi hle => ?_, fun i hi => ?_, fun i hi hi' => ?_, fun i hi => ?_, fun r => ?_, fun r => ?_,
    h.itlbNodup, ?_⟩
  · rw [htr]
    exact h.unread i hi hle
  · rw [htr] at hi ⊢
    exact h.untranslated i hi
  · rw [htr]
    by_cases hik : i = k
    · rw [hik]
      exact ht
    · exact h.translated i hi ((hlt i hi hik).1 hi')
  · by_cases hik : i = k
    · subst hik
      refine iff_of_true ?_ (by rw [hself]; simp)
      show c.cpu.place cfg.toCoreConfig i < m + 1
      rw [hplace]
      exact Nat.lt_succ_self m
    · rw [hother i hik]
      exact (hlt i hi hik).trans (h.fetched i hi)
  · rw [h.itlbOpen, htr, hid]
    exact Iff.rfl
  · rw [List.mem_append, h.l1iOpen, List.mem_singleton, hid]
    by_cases hrk : r.robIndex = k
    · obtain ⟨slot, id⟩ := r
      dsimp only at hrk ⊢
      subst hrk
      rw [hnone, hself]
      constructor
      · rintro (⟨-, -, hf⟩ | heq)
        · cases hf
        · cases heq
          exact ⟨hlive, rfl, rfl⟩
      · rintro ⟨-, rfl, -⟩
        exact .inr rfl
    · rw [hother _ hrk]
      refine ⟨?_, .inl⟩
      rintro (hr | rfl)
      · exact hr
      · exact absurd rfl hrk
  · refine List.nodup_append.2 ⟨h.l1iNodup, List.nodup_singleton _, fun a ha b hb hab => ?_⟩
    rw [hab, List.mem_singleton.1 hb, h.l1iOpen, hnone] at ha
    cases ha.2.2

/-- When all instructions were sent, the next slot is empty, or the buffer is full and it is the head. -/
theorem Fetching.blank_or_head (h : Fetching cfg itlbIds l1iIds itlb l1i n m c)
    {k : ℕ} (hk : k ≤ c.cpu.rob.occupancy) (hall : ¬ k < c.cpu.rob.occupancy) :
    O3Cpu.Blank (c.cpu.rob.entry (Ring.index cfg.robSize c.cpu.rob.head k)) ∨
      c.cpu.rob.occupancy = cfg.robSize ∧ k = cfg.robSize ∧
        Ring.index cfg.robSize c.cpu.rob.head k = c.cpu.rob.head := by
  have ho := h.inOrder
  have hk : k = c.cpu.rob.occupancy := by omega
  rcases ho.ring.occupancy_le.lt_or_eq with hlt | hfull
  · left
    rw [hk, ← ho.ring.tail_eq]
    exact ho.blank _ (ho.ring.not_live_tail hlt)
  · right
    refine ⟨hfull, hk.trans hfull, ?_⟩
    rw [hk, hfull, Ring.index, if_neg (by omega), Nat.add_sub_cancel]

/-- The first loop of `fetch_instruction` sends instructions that were not sent, if it does not get to
the head of a full buffer again, or that is translated. -/
theorem Fetching.sendItlb (k accepts : ℕ) (h : Fetching cfg itlbIds l1iIds itlb l1i n m c)
    (hunsent : c.cpu.rob.occupancy < cfg.robSize ∨
      (c.cpu.rob.entry c.cpu.rob.head).translated ≠ .none ∨ min accepts k ≤ cfg.robSize - n) :
    Ends (c.sendItlb cfg k accepts) (fun r => ∃ n', Fetching cfg
      (itlbIds ++ r.2.map (·.instrId)) l1iIds (itlb ++ r.2) l1i n' m r.1) fun _ => False := by
  have hdone : ∀ {c : Core} {itlbIds : List ℕ} {itlb : List FetchRequest} {n : ℕ},
      Fetching cfg itlbIds l1iIds itlb l1i n m c →
      ∃ n', Fetching cfg (itlbIds ++ ([] : List FetchRequest).map (·.instrId)) l1iIds
        (itlb ++ []) l1i n' m c := by
    intro c itlbIds itlb n h
    rw [List.map_nil, List.append_nil, List.append_nil]
    exact ⟨n, h⟩
  induction k generalizing accepts c itlbIds itlb n with
  | zero => exact .ok (hdone h)
  | succ k ih =>
    unfold Core.sendItlb
    simp only
    rw [h.read.next]
    split
    · exact .ok (hdone h)
    rename_i hip
    by_cases hn : n < c.cpu.rob.occupancy
    · obtain ⟨hlive, hplace⟩ := O3Cpu.live_index h.inOrder.ring hn
      have hnone := h.untranslated _ (h.unread _ hlive hplace.ge)
      rw [if_neg (not_not.2 hnone)]
      cases accepts with
      | zero => exact .ok (hdone h)
      | succ a =>
        have hle := h.inOrder.ring.occupancy_le
        refine (ih a (h.sendsItlb hn) ?_).bind fun r hr => ?_
        · rcases hunsent with hroom | htr | hmin
          · exact .inl hroom
          · exact .inr (.inl htr)
          · exact .inr (.inr (by omega))
        · obtain ⟨n', hr⟩ := hr
          rw [List.append_assoc, List.append_assoc] at hr
          exact .ok ⟨n', hr⟩
    · rcases h.blank_or_head h.read.le hn with hblank | ⟨hfull, hnfull, hhead⟩
      · exact absurd hblank.ip hip
      · rw [hhead]
        split
        · rw [if_pos rfl]
          exact .ok (hdone h)
        · rename_i htr
          cases accepts with
          | zero => exact .ok (hdone h)
          | succ a =>
            -- the head would be sent again
            rcases hunsent with hroom | htr' | hmin
            · exact absurd hfull (Nat.ne_of_lt hroom)
            · exact absurd htr' htr
            · omega

/-- The second loop of `fetch_instruction` sends instructions that are translated and were not sent. -/
theorem Fetching.sendL1i (k accepts : ℕ) (h : Fetching cfg itlbIds l1iIds itlb l1i n m c) :
    Ends (c.sendL1i cfg k accepts) (fun r => ∃ m', Fetching cfg itlbIds
      (l1iIds ++ r.2.map (·.instrId)) itlb (l1i ++ r.2) n m' r.1) fun _ => False := by
  have hdone : ∀ {c : Core} {l1iIds : List ℕ} {l1i : List FetchRequest} {m : ℕ},
      Fetching cfg itlbIds l1iIds itlb l1i n m c →
      ∃ m', Fetching cfg itlbIds (l1iIds ++ ([] : List FetchRequest).map (·.instrId)) itlb
        (l1i ++ []) n m' c := by
    intro c l1iIds l1i m h
    rw [List.map_nil, List.append_nil, List.append_nil]
    exact ⟨m, h⟩
  induction k generalizing accepts c l1iIds l1i m with
  | zero => exact .ok (hdone h)
  | succ k ih =>
    unfold Core.sendL1i
    simp only
    rw [h.fetch.next]
    split
    · exact .ok (hdone h)
    rename_i htr
    rw [not_or, not_not] at htr
    by_cases hm : m < c.cpu.rob.occupancy
    · obtain ⟨hlive, hplace⟩ := O3Cpu.live_index h.inOrder.ring hm
      have hnone : (c.cpu.rob.entry (Ring.index cfg.robSize c.cpu.rob.head m)).fetched = .none := by
        by_contra hne
        have hlt := (h.fetched _ hlive).2 hne
        rw [hplace] at hlt
        exact lt_irrefl m hlt
      rw [if_neg (not_not.2 hnone)]
      cases accepts with
      | zero => exact .ok (hdone h)
      | succ a =>
        refine (ih a (h.sendsL1i hm htr.1)).bind fun r hr => ?_
        obtain ⟨m', hr⟩ := hr
        rw [List.append_assoc, List.append_assoc] at hr
        exact .ok ⟨m', hr⟩
    · rcases h.blank_or_head h.fetch.le hm with hblank | ⟨hfull, hmfull, hhead⟩
      · exact absurd htr.1 (by rw [hblank.translated]; simp)
      · rw [hhead]
        have hpos := h.inOrder.ring.pos
        have hlive := h.inOrder.ring.live_head (by omega)
        have hf := (h.fetched _ hlive).1 (by
          rw [O3Cpu.place, Ring.place_head]
          omega)
        rw [if_pos hf, if_pos rfl]
        exact .ok (hdone h)

/-! ## Open requests -/

/-- Of the open requests, those that are answered are for the slots that are marked. -/
theorem mem_marked {opened merged : List FetchRequest} {request r : FetchRequest}
    (hopen : ∀ x ∈ opened, c.cpu.Live cfg.toCoreConfig x.robIndex ∧
      (c.cpu.rob.entry x.robIndex).instrId = x.instrId)
    (hsub : (request :: merged).Subperm opened) (hr : r ∈ opened) :
    r.robIndex ∈ request.robIndex :: expand cfg.robSize (merged.map (·.robIndex)).toFinset ↔
      r ∈ request :: merged := by
  have heq : ∀ x ∈ request :: merged, x.robIndex = r.robIndex → x = r := by
    intro x hx hslot
    obtain ⟨-, hid⟩ := hopen x (hsub.subset hx)
    obtain ⟨-, hid'⟩ := hopen r hr
    obtain ⟨slot, id⟩ := x
    obtain ⟨slot', id'⟩ := r
    dsimp only at hslot hid hid'
    subst hslot
    rw [← hid, ← hid']
  rw [List.mem_cons, expand, List.mem_filter, List.mem_range, decide_eq_true_iff,
    List.mem_toFinset, List.mem_map, List.mem_cons]
  constructor
  · rintro (hslot | ⟨-, x, hx, hslot⟩)
    · exact .inl (heq request List.mem_cons_self hslot.symm).symm
    · rw [← heq x (List.mem_cons_of_mem _ hx) hslot]
      exact .inr hx
  · rintro (rfl | hx)
    · exact .inl rfl
    · exact .inr ⟨(hopen r hr).1.1, r, hx, rfl⟩

/-- The marked slots are those of answered requests. -/
theorem exists_marked {merged : List FetchRequest} {request : FetchRequest} {i : ℕ}
    (hi : i ∈ request.robIndex :: expand cfg.robSize (merged.map (·.robIndex)).toFinset) :
    ∃ r ∈ request :: merged, r.robIndex = i := by
  rcases List.mem_cons.1 hi with rfl | hi
  · exact ⟨request, List.mem_cons_self, rfl⟩
  · rw [expand, List.mem_filter, decide_eq_true_iff, List.mem_toFinset, List.mem_map] at hi
    obtain ⟨-, r, hr, hslot⟩ := hi
    exact ⟨r, List.mem_cons_of_mem _ hr, hslot⟩

/-- What an answer leaves, apart from the marks. -/
theorem answered_same {opened merged : List FetchRequest} {request : FetchRequest} {cpu : O3Cpu}
    {isItTlb : Bool} (ho : c.cpu.InOrder cfg.toCoreConfig)
    (hopen : ∀ x ∈ opened, c.cpu.Live cfg.toCoreConfig x.robIndex ∧
      (c.cpu.rob.entry x.robIndex).instrId = x.instrId)
    (hsub : (request :: merged).Subperm opened)
    (hc : c.cpu.completeInstrFetch cfg.toCoreConfig cfg.fetchWidth isItTlb request
      (merged.map (·.robIndex)).toFinset = .ok cpu) :
    O3Cpu.SameButFetch cfg.toCoreConfig c.cpu cpu := by
  refine (O3Cpu.completeInstrFetch_same ho _ _ _ _).of_ok hc fun i hi => ?_
  obtain ⟨r, hr, rfl⟩ := List.mem_map.1 (List.mem_toFinset.1 hi)
  exact (hopen r (hsub.subset (List.mem_cons_of_mem _ hr))).1

/-- The ITLB answers. -/
theorem Fetching.answersItlb {request : FetchRequest} {merged : List FetchRequest} {cpu : O3Cpu}
    (h : Fetching cfg itlbIds l1iIds itlb l1i n m c) (hsub : (request :: merged).Subperm itlb)
    (hc : c.cpu.completeInstrFetch cfg.toCoreConfig cfg.fetchWidth true request
      (merged.map (·.robIndex)).toFinset = .ok cpu) :
    Fetching cfg itlbIds l1iIds (itlb.diff (request :: merged)) l1i n m ⟨cpu, c.fetch⟩ := by
  have hopen : ∀ x ∈ itlb, c.cpu.Live cfg.toCoreConfig x.robIndex ∧
      (c.cpu.rob.entry x.robIndex).instrId = x.instrId := fun x hx =>
    ⟨((h.itlbOpen x).1 hx).1, ((h.itlbOpen x).1 hx).2.2.1⟩
  have hsame := answered_same h.inOrder hopen hsub hc
  have hmarks := (O3Cpu.completeInstrFetch_marks _ _ _ _ _).of_ok hc
  have hid := hsame.field RobEntry.instrId fun _ => rfl
  have hplace : ∀ i, cpu.place cfg.toCoreConfig i = c.cpu.place cfg.toCoreConfig i :=
    fun _ => hsame.ring.place
  have hfetched : ∀ i, (cpu.rob.entry i).fetched = (c.cpu.rob.entry i).fetched := hmarks.other
  have hkept : ∀ i, i ∉ request.robIndex :: expand cfg.robSize (merged.map (·.robIndex)).toFinset →
      (cpu.rob.entry i).translated = (c.cpu.rob.entry i).translated := hmarks.kept
  have hmarked : ∀ i ∈ request.robIndex :: expand cfg.robSize (merged.map (·.robIndex)).toFinset,
      (cpu.rob.entry i).translated = .completed := hmarks.marked
  refine ⟨(h.wakes.fetch hsame).1, h.read.congr hsame.ring hid hsame.uniqueId,
    h.fetch.congr hsame.ring hid hsame.uniqueId, fun i hi hle => ?_, fun i hi => ?_,
    fun i hi hlt => ?_, fun i hi => ?_, fun r => ?_, fun r => ?_, h.itlbNodup.diff, h.l1iNodup⟩
  · rw [hplace] at hle
    have hnot : i ∉ request.robIndex :: expand cfg.robSize (merged.map (·.robIndex)).toFinset := by
      intro hmem
      obtain ⟨r, hr, rfl⟩ := exists_marked hmem
      have hlt := ((h.itlbOpen r).1 (hsub.subset hr)).2.1
      omega
    rw [hkept i hnot]
    exact h.unread i (hsame.ring.live.1 hi) hle
  · have hnot := fun hmem => hi (hmarked i hmem)
    rw [hkept i hnot] at hi ⊢
    exact h.untranslated i hi
  · rw [hplace] at hlt
    by_cases hmem : i ∈ request.robIndex :: expand cfg.robSize (merged.map (·.robIndex)).toFinset
    · exact hmarked i hmem
    · rw [hkept i hmem]
      exact h.translated i (hsame.ring.live.1 hi) hlt
  · rw [hplace, hfetched]
    exact h.fetched i (hsame.ring.live.1 hi)
  · rw [h.itlbNodup.mem_sdiff_iff, hsame.ring.live, hplace, hid]
    constructor
    · rintro ⟨hr, hnot⟩
      obtain ⟨hi, hlt, hids, ht⟩ := (h.itlbOpen r).1 hr
      rw [hkept _ fun hmem => hnot ((mem_marked hopen hsub hr).1 hmem)]
      exact ⟨hi, hlt, hids, ht⟩
    · rintro ⟨hi, hlt, hids, ht⟩
      have hnot : r.robIndex ∉ request.robIndex ::
          expand cfg.robSize (merged.map (·.robIndex)).toFinset := by
        intro hmem
        rw [hmarked _ hmem] at ht
        cases ht
      rw [hkept _ hnot] at ht
      have hr := (h.itlbOpen r).2 ⟨hi, hlt, hids, ht⟩
      exact ⟨hr, fun hmem => hnot ((mem_marked hopen hsub hr).2 hmem)⟩
  · rw [h.l1iOpen, hsame.ring.live, hid, hfetched]

/-- The L1I answers. -/
theorem Fetching.answersL1i {request : FetchRequest} {merged : List FetchRequest} {cpu : O3Cpu}
    (h : Fetching cfg itlbIds l1iIds itlb l1i n m c) (hsub : (request :: merged).Subperm l1i)
    (hc : c.cpu.completeInstrFetch cfg.toCoreConfig cfg.fetchWidth false request
      (merged.map (·.robIndex)).toFinset = .ok cpu) :
    Fetching cfg itlbIds l1iIds itlb (l1i.diff (request :: merged)) n m ⟨cpu, c.fetch⟩ := by
  have hopen : ∀ x ∈ l1i, c.cpu.Live cfg.toCoreConfig x.robIndex ∧
      (c.cpu.rob.entry x.robIndex).instrId = x.instrId := fun x hx =>
    ⟨((h.l1iOpen x).1 hx).1, ((h.l1iOpen x).1 hx).2.1⟩
  have hsame := answered_same h.inOrder hopen hsub hc
  have hmarks := (O3Cpu.completeInstrFetch_marks _ _ _ _ _).of_ok hc
  have hid := hsame.field RobEntry.instrId fun _ => rfl
  have hplace : ∀ i, cpu.place cfg.toCoreConfig i = c.cpu.place cfg.toCoreConfig i :=
    fun _ => hsame.ring.place
  have htr : ∀ i, (cpu.rob.entry i).translated = (c.cpu.rob.entry i).translated := hmarks.other
  have hkept : ∀ i, i ∉ request.robIndex :: expand cfg.robSize (merged.map (·.robIndex)).toFinset →
      (cpu.rob.entry i).fetched = (c.cpu.rob.entry i).fetched := hmarks.kept
  have hmarked : ∀ i ∈ request.robIndex :: expand cfg.robSize (merged.map (·.robIndex)).toFinset,
      (cpu.rob.entry i).fetched = .completed := hmarks.marked
  refine ⟨(h.wakes.fetch hsame).1, h.read.congr hsame.ring hid hsame.uniqueId,
    h.fetch.congr hsame.ring hid hsame.uniqueId, fun i hi hle => ?_, fun i hi => ?_,
    fun i hi hlt => ?_, fun i hi => ?_, fun r => ?_, fun r => ?_, h.itlbNodup, h.l1iNodup.diff⟩
  · rw [hplace] at hle
    rw [htr]
    exact h.unread i (hsame.ring.live.1 hi) hle
  · rw [htr] at hi ⊢
    exact h.untranslated i hi
  · rw [hplace] at hlt
    rw [htr]
    exact h.translated i (hsame.ring.live.1 hi) hlt
  · rw [hplace, h.fetched i (hsame.ring.live.1 hi)]
    by_cases hmem : i ∈ request.robIndex :: expand cfg.robSize (merged.map (·.robIndex)).toFinset
    · rw [hmarked i hmem]
      obtain ⟨r, hr, rfl⟩ := exists_marked hmem
      rw [((h.l1iOpen r).1 (hsub.subset hr)).2.2]
      simp
    · rw [hkept i hmem]
  · rw [h.itlbOpen, hsame.ring.live, hplace, hid, htr]
  · rw [h.l1iNodup.mem_sdiff_iff, hsame.ring.live, hid]
    constructor
    · rintro ⟨hr, hnot⟩
      obtain ⟨hi, hids, hf⟩ := (h.l1iOpen r).1 hr
      rw [hkept _ fun hmem => hnot ((mem_marked hopen hsub hr).1 hmem)]
      exact ⟨hi, hids, hf⟩
    · rintro ⟨hi, hids, hf⟩
      have hnot : r.robIndex ∉ request.robIndex ::
          expand cfg.robSize (merged.map (·.robIndex)).toFinset := by
        intro hmem
        rw [hmarked _ hmem] at hf
        cases hf
      rw [hkept _ hnot] at hf
      have hr := (h.l1iOpen r).2 ⟨hi, hids, hf⟩
      exact ⟨hr, fun hmem => hnot ((mem_marked hopen hsub hr).2 hmem)⟩

end

end Core

namespace CoreSystem

section
variable (cfg : PipelineConfig)

/-- The number of instructions in the buffer that are neither translated nor sent to the ITLB. -/
def unsent (s : CoreSystem) : ℕ :=
  (s.core.cpu.robSlots cfg.toCoreConfig).countP fun i =>
    (s.core.cpu.rob.entry i).translated = .none ∧ ∀ r ∈ s.itlb, r.robIndex ≠ i

/-- The first loop of `fetch_instruction` ends before it gets to the head of a full buffer again, or the
instruction there is translated. -/
def ReadsUnsent (s : CoreSystem) : CoreLabel → Prop
  | .fetchInstruction itlb _ =>
    s.core.cpu.rob.occupancy < cfg.robSize ∨
      (s.core.cpu.rob.entry s.core.cpu.rob.head).translated ≠ .none ∨
      min itlb cfg.fetchWidth ≤ s.unsent cfg
  | _ => True

instance decidableReadsUnsent (s : CoreSystem) : (l : CoreLabel) → Decidable (ReadsUnsent cfg s l)
  | .fetchInstruction _ _ => inferInstanceAs (Decidable (_ ∨ _))
  | .tick | .handleBranch _ _ | .scheduleInstruction | .executeInstruction
  | .scheduleMemoryInstruction | .operateLsq _ _ _ | .completeInstrFetch _ _ _
  | .completeDataFetch _ _ | .completeExecutions | .retireRob _ => isTrue trivial

/-- The instructions of the buffer whose ids were sent are a prefix in program order, and the pointer
stands on its last slot, or before the head when it is empty. -/
def SentPrefix (ids : List ℕ) (last : ℕ) (s : CoreSystem) : Prop :=
  ∃ n ≤ s.core.cpu.rob.occupancy,
    Ring.next cfg.robSize last = Ring.index cfg.robSize s.core.cpu.rob.head n ∧
    ∀ i, s.core.cpu.Live cfg.toCoreConfig i →
      ((s.core.cpu.rob.entry i).instrId ∈ ids ↔ s.core.cpu.place cfg.toCoreConfig i < n)

/-- Translating and fetching in a state that a run has reached, and in an allowed step from it. -/
structure FetchesOnce (ok : CoreSystem → CoreLabel → Prop) (tr : Lts.Trace CoreLabel CoreEvent)
    (s : CoreSystem) : Prop where
  itlbOnce : (noted CoreEvent.itlbId tr).Nodup
  l1iOnce : (noted CoreEvent.l1iId tr).Nodup
  itlbPrefix : SentPrefix cfg (noted CoreEvent.itlbId tr) s.core.fetch.lastRead s
  l1iPrefix : SentPrefix cfg (noted CoreEvent.l1iId tr) s.core.fetch.lastFetch s
  asserts : ∀ itlb l1i e, ok s (.fetchInstruction itlb l1i) →
    s.run cfg (.fetchInstruction itlb l1i) = .error e → e ≠ .itlbOrder ∧ e ≠ .l1iOrder

end

section
variable {cfg : PipelineConfig} {s s' : CoreSystem} {l : CoreLabel} {os : List CoreEvent}
  {itlbIds l1iIds : List ℕ} {n m : ℕ}

theorem countP_range_ge (n k : ℕ) : (List.range n).countP (fun i => k ≤ i) = n - k := by
  induction n with
  | zero => exact (Nat.zero_sub k).symm
  | succ n ih =>
    rw [List.range_succ, List.countP_append, ih, List.countP_singleton]
    split
    · rename_i hle
      have hle := of_decide_eq_true hle
      omega
    · rename_i hlt
      rw [decide_eq_true_iff] at hlt
      omega

/-- In a full buffer those behind the prefix are neither translated nor sent. -/
theorem unsent_eq (h : s.core.Fetching cfg itlbIds l1iIds s.itlb s.l1i n m)
    (hfull : s.core.cpu.rob.occupancy = cfg.robSize) : s.unsent cfg = cfg.robSize - n := by
  have hr := h.inOrder.ring
  have hh := hr.head_lt
  have hspan : Ring.span cfg.robSize s.core.cpu.rob.head s.core.cpu.rob.tail = cfg.robSize := by
    rw [hr.tail_eq, hfull, Ring.span_index hh hr.pos (Nat.le_refl _)]
  rw [unsent, O3Cpu.robSlots, Ring.scan_eq hh hr.tail_lt.le, hspan, List.countP_map,
    ← countP_range_ge]
  refine List.countP_congr fun k hk => ?_
  have hk := List.mem_range.1 hk
  obtain ⟨hlive, hplace⟩ := O3Cpu.live_index hr (hk.trans_eq hfull.symm)
  rw [Function.comp_apply, decide_eq_true_iff, decide_eq_true_iff]
  constructor
  · rintro ⟨ht, hnone⟩
    by_contra hlt
    have hread : s.core.cpu.place cfg.toCoreConfig
        (Ring.index cfg.robSize s.core.cpu.rob.head k) < n := by
      rw [hplace]
      exact Nat.lt_of_not_le hlt
    have hsent := (h.itlbOpen ⟨Ring.index cfg.robSize s.core.cpu.rob.head k,
      (s.core.cpu.rob.entry (Ring.index cfg.robSize s.core.cpu.rob.head k)).instrId⟩).2
        ⟨hlive, hread, rfl, ht⟩
    exact hnone _ hsent rfl
  · intro hle
    refine ⟨h.untranslated _ (h.unread _ hlive (hplace.ge.trans' hle)), fun r hr' heq => ?_⟩
    have hlt := ((h.itlbOpen r).1 hr').2.1
    rw [heq, hplace] at hlt
    omega

theorem fetching_fetchInstruction (h : s.core.Fetching cfg itlbIds l1iIds s.itlb s.l1i n m)
    {itlb l1i : ℕ} (hok : ReadsUnsent cfg s (.fetchInstruction itlb l1i)) :
    Ends (s.core.fetchInstruction cfg itlb l1i) (fun r => ∃ n' m', Core.Fetching cfg
      (itlbIds ++ r.2.1.map (·.instrId)) (l1iIds ++ r.2.2.map (·.instrId)) (s.itlb ++ r.2.1)
      (s.l1i ++ r.2.2) n' m' r.1) fun _ => False := by
  have hcpu := s.core.resumeFetch_cpu
  have hresume : s.core.resumeFetch.Fetching cfg itlbIds l1iIds s.itlb s.l1i n m := by
    refine h.same (by rw [hcpu]; exact h.wakes) (by rw [hcpu]; exact .refl _) ?_ ?_
    · rw [Core.resumeFetch]
      split <;> rfl
    · rw [Core.resumeFetch]
      split <;> rfl
  have hunsent : s.core.resumeFetch.cpu.rob.occupancy < cfg.robSize ∨
      (s.core.resumeFetch.cpu.rob.entry s.core.resumeFetch.cpu.rob.head).translated ≠ .none ∨
      min itlb cfg.fetchWidth ≤ cfg.robSize - n := by
    rw [hcpu]
    rcases hok with hroom | htr | hmin
    · exact .inl hroom
    · exact .inr (.inl htr)
    · rcases h.inOrder.ring.occupancy_le.lt_or_eq with hlt | hfull
      · exact .inl hlt
      · rw [unsent_eq h hfull] at hmin
        exact .inr (.inr hmin)
  refine (hresume.sendItlb cfg.fetchWidth itlb hunsent).bind fun r hr => ?_
  obtain ⟨n', hr⟩ := hr
  refine (hr.sendL1i cfg.fetchWidth l1i).bind fun r' hr' => ?_
  obtain ⟨m', hr'⟩ := hr'
  exact .ok ⟨n', m', hr'⟩

theorem fetching_step (h : s.core.Fetching cfg itlbIds l1iIds s.itlb s.l1i n m)
    (hok : ReadsUnsent cfg s l) (hs : s.step cfg l = some (s', os)) :
    ∃ n' m', s'.core.Fetching cfg (itlbIds ++ os.filterMap CoreEvent.itlbId)
      (l1iIds ++ os.filterMap CoreEvent.l1iId) s'.itlb s'.l1i n' m' := by
  cases transition h.wakes hs with
  | stage hkept =>
    obtain ⟨is, hins⟩ := hkept.inserts
    rw [hins.itlbIds, hins.l1iIds, List.append_nil, List.append_nil, hkept.itlb, hkept.l1i]
    exact ⟨n, m, h.same hkept.wakes hkept.fetch hkept.lastRead hkept.lastFetch⟩
  | @reads r mispredicted core hroom hadded hread hfetch =>
    rw [List.filterMap_nil, List.filterMap_nil, List.append_nil, List.append_nil]
    exact ⟨n, m, h.added hroom hadded hread hfetch⟩
  | @fetches itlb l1i r hr =>
    obtain ⟨n', m', h'⟩ := (fetching_fetchInstruction h hok).of_ok hr
    rw [itlbIds_requests, l1iIds_requests]
    exact ⟨n', m', h'⟩
  | translated hopen hc =>
    rw [List.filterMap_nil, List.filterMap_nil, List.append_nil, List.append_nil]
    exact ⟨n, m, h.answersItlb hopen hc⟩
  | fetched hopen hc =>
    rw [List.filterMap_nil, List.filterMap_nil, List.append_nil, List.append_nil]
    exact ⟨n, m, h.answersL1i hopen hc⟩
  | retires room =>
    rw [O3Cpu.retireRob, filterMap_retireFrom (fun _ => rfl) (fun _ => rfl) fun _ => rfl,
      filterMap_retireFrom (fun _ => rfl) (fun _ => rfl) fun _ => rfl, List.append_nil,
      List.append_nil]
    have hkeep : ∀ t t' : O3Cpu, t.InOrder cfg.toCoreConfig →
        (∃ n m, Core.Fetching cfg itlbIds l1iIds s.itlb s.l1i n m ⟨t, s.core.fetch⟩) →
        O3Cpu.Retired cfg.toCoreConfig t t' →
        ∃ n m, Core.Fetching cfg itlbIds l1iIds s.itlb s.l1i n m ⟨t', s.core.fetch⟩ := by
      rintro t t' - ⟨n, m, hf⟩ hret
      exact ⟨n - 1, m - 1, hf.retired hret rfl⟩
    exact (O3Cpu.retireFrom_keeps hkeep cfg.retireWidth h.inOrder ⟨n, m, h⟩).2

theorem fetching_init : Core.Fetching cfg [] [] [] [] 0 0 (init cfg).core := by
  have hpos := Nat.zero_lt_of_lt cfg.robSize_gt
  have hlive : ∀ i, ¬ O3Cpu.init.Live cfg.toCoreConfig i := fun _ => O3Cpu.not_live_init _
  have hsent : O3Cpu.Sent cfg.toCoreConfig [] (cfg.robSize - 1) 0 .init := by
    refine ⟨Nat.le_refl _, ?_, fun i hi => absurd hi (hlive i), List.nodup_nil, fun id hid => ?_⟩
    · rw [Ring.next, if_pos (Nat.sub_add_cancel hpos)]
      exact (Ring.index_zero hpos).symm
    · exact absurd hid List.not_mem_nil
  exact ⟨O3Cpu.wakes_init hpos, hsent, hsent, fun i hi => absurd hi (hlive i), fun _ _ => rfl,
    fun i hi => absurd hi (hlive i), fun i hi => absurd hi (hlive i),
    fun r => iff_of_false List.not_mem_nil fun h => hlive _ h.1,
    fun r => iff_of_false List.not_mem_nil fun h => hlive _ h.1, List.nodup_nil, List.nodup_nil⟩

theorem fetching_run {tr : Lts.Trace CoreLabel CoreEvent}
    (h : (lts cfg).Run (ReadsUnsent cfg) s tr) :
    ∃ n m, s.core.Fetching cfg (noted CoreEvent.itlbId tr) (noted CoreEvent.l1iId tr) s.itlb s.l1i
      n m := by
  refine h.induct (P := fun s tr => ∃ n m, s.core.Fetching cfg (noted CoreEvent.itlbId tr)
    (noted CoreEvent.l1iId tr) s.itlb s.l1i n m) ?_ fun s tr l s' os _ ih hl hs => ?_
  · rintro s rfl
    exact ⟨0, 0, fetching_init⟩
  · obtain ⟨n, m, ih⟩ := ih
    rw [noted_append, noted_append]
    exact fetching_step ih hl hs

/-- In every run in which no call of `fetch_instruction` gets to the head of a full buffer again before
it is translated, each instruction is sent to the ITLB and to the L1I at most once, those that were
sent are prefixes of the buffer, and no check of `fetch_instruction` fails. -/
theorem fetches_once (cfg : PipelineConfig) {s : CoreSystem} {tr : Lts.Trace CoreLabel CoreEvent}
    (h : (lts cfg).Run (ReadsUnsent cfg) s tr) : FetchesOnce cfg (ReadsUnsent cfg) tr s := by
  obtain ⟨n, m, hf⟩ := fetching_run h
  refine ⟨hf.read.once, hf.fetch.once, ⟨n, hf.read.le, hf.read.next, hf.read.mem⟩,
    ⟨m, hf.fetch.le, hf.fetch.next, hf.fetch.mem⟩, fun itlb l1i e hok he => ?_⟩
  have hends := fetching_fetchInstruction hf hok
  have hnone : Ends (s.run cfg (.fetchInstruction itlb l1i)) (fun _ => True) fun _ => False :=
    (hends.mono (fun _ _ => trivial) fun _ he => he).bind fun _ _ => .ok trivial
  exact (hnone.of_error he).elim

/-- The buffer is full, and its instructions are translated and sent to the L1I when
`fetch_instruction` comes by again. -/
theorem fetches_once_full : ∃ s tr, (lts twoEntries).Run (ReadsUnsent twoEntries) s tr ∧
    s.core.cpu.rob.occupancy = twoEntries.robSize ∧ noted CoreEvent.itlbId tr = [0, 1] ∧
    noted CoreEvent.l1iId tr = [0, 1] ∧ FetchesOnce twoEntries (ReadsUnsent twoEntries) tr s := by
  obtain ⟨s, tr, hrun, hsent⟩ := Lts.run_of_exec (lts twoEntries) (ReadsUnsent twoEntries)
    (fun s tr => s.core.cpu.rob.occupancy = twoEntries.robSize ∧
      noted CoreEvent.itlbId tr = [0, 1] ∧ noted CoreEvent.l1iId tr = [0, 1])
    (bothFetched ++ [.fetchInstruction 2 2, .fetchInstruction 2 2]) rfl (by decide +kernel)
  obtain ⟨hfull, hitlb, hl1i⟩ := of_decide_eq_true hsent
  exact ⟨s, tr, hrun, hfull, hitlb, hl1i, fetches_once twoEntries hrun⟩

/-- The buffer is full and its head is not translated: the head is sent again. -/
theorem head_sent_twice : ¬ ∀ (cfg : PipelineConfig) (s : CoreSystem)
    (tr : Lts.Trace CoreLabel CoreEvent), (lts cfg).Run (fun _ _ => True) s tr →
    FetchesOnce cfg (fun _ _ => True) tr s := by
  intro h
  obtain ⟨s, tr, hrun, htwice⟩ := Lts.run_of_exec (lts twoEntries) (fun _ _ => True)
    (fun _ tr => ¬ (noted CoreEvent.itlbId tr).Nodup)
    [.handleBranch nop false, .handleBranch nop false, .fetchInstruction 2 0, .fetchInstruction 1 0]
    rfl (by decide +kernel)
  exact of_decide_eq_true htwice (h twoEntries s tr hrun).itlbOnce

end

end CoreSystem

end Arishem
