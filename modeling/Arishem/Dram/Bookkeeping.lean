import Arishem.Dram.Sound

/-!
# The bookkeeping of the memory controller

Requests that arrive, and what holds in every reachable state: the flags of the slots, what the
controller knows of the banks and the counters agree, only requests of the kind that the mode asks
for are scheduled, and no check of the source fails.
-/

namespace Arishem

namespace MemoryController

section
variable {cfg : DramConfig} {env : DramEnv} {s s' s'' : MemoryController} {k k' : QueueKind}
variable {ch ch' i j : ℕ} {e e' : DramEntry} {evs evs' : List DramEvent}

/-! ## Arrivals -/

/-- What the arrival of a packet with a new address does to a queue. -/
inductive Arrival (cfg : DramConfig) (s s' : MemoryController) (k : QueueKind) (p : Packet) : Prop
  | stored {i : ℕ} {e : DramEntry} :
      Replaces cfg s s' k (cfg.getChannel p.address) i e ⟨p, false⟩ → e.address = 0 →
      p.address ≠ 0 → s'.bankRequest = s.bankRequest → s'.scheduled = s.scheduled →
      (∀ k' ch', (s'.queue k' ch').occupancy =
        if k' = k ∧ ch' = cfg.getChannel p.address then
          (s.queue k (cfg.getChannel p.address)).occupancy + 1
        else (s.queue k' ch').occupancy) →
      Arrival cfg s s' k p
  | full : Quiet s s' → (∀ e ∈ (s.queue k (cfg.getChannel p.address)).entry, e.address ≠ 0) →
      Arrival cfg s s' k p

variable {p : Packet} {q : DramQueue}

theorem checkDramQueue_some {a : Addr} (h : q.checkDramQueue a = some (i, e)) :
    q.entry[i]? = some e ∧ e.address = a := by
  obtain ⟨hi, he, ha⟩ := Slots.lookup_some h
  exact ⟨List.getElem?_eq_some_iff.2 ⟨hi, he⟩, by simpa using ha⟩

theorem checkDramQueue_none {a : Addr} :
    q.checkDramQueue a = none ↔ ∀ e ∈ q.entry, e.address ≠ a := by
  simp [DramQueue.checkDramQueue, Slots.lookup_none]

/-- The tail of `add_rq` and `add_wq`. -/
def arrive (cfg : DramConfig) (k : QueueKind) (p : Packet) (s : MemoryController) :
    MemoryController :=
  s.modifyQueue k (cfg.getChannel p.address) fun q => (q.insert p).updateScheduleCycle

theorem arrive_spec
    (h : (s.queue k (cfg.getChannel p.address)).checkDramQueue p.address = none) :
    Arrival cfg s (s.arrive cfg k p) k p := by
  have hnew := checkDramQueue_none.1 h
  cases hfree : (s.queue k (cfg.getChannel p.address)).checkDramQueue 0 with
  | none =>
    refine .full ?_ (checkDramQueue_none.1 hfree)
    have hsame : ((s.queue k (cfg.getChannel p.address)).insert p) =
        s.queue k (cfg.getChannel p.address) := by
      rw [DramQueue.insert, hfree]
    refine ⟨fun k' ch' => ?_, fun k' ch' => ?_, rfl, fun _ => rfl, fun _ _ _ hs => hs⟩
    · rw [arrive, modifyQueue_queue]
      split
      · rename_i hk
        rw [hk.1, hk.2, hsame]
        rfl
      · rfl
    · rw [arrive, modifyQueue_queue]
      split
      · rename_i hk
        rw [hk.1, hk.2, hsame]
        rfl
      · rfl
  | some r =>
    obtain ⟨i, e⟩ := r
    obtain ⟨he, hzero⟩ := checkDramQueue_some hfree
    have hne : p.address ≠ 0 := by
      intro h0
      refine hnew e (List.mem_of_getElem? he) ?_
      rw [hzero, h0]
    have hstored : (s.queue k (cfg.getChannel p.address)).insert p =
        { s.queue k (cfg.getChannel p.address) with
          entry := (s.queue k (cfg.getChannel p.address)).entry.set i ⟨p, false⟩
          occupancy := (s.queue k (cfg.getChannel p.address)).occupancy + 1 } := by
      rw [DramQueue.insert, hfree]
    refine .stored ⟨he, fun k' ch' => ?_, fun _ _ => rfl⟩ hzero hne rfl rfl fun k' ch' => ?_
    · rw [arrive, modifyQueue_queue, hstored]
      split <;> rfl
    · rw [arrive, modifyQueue_queue, hstored]
      split <;> rfl

/-- A packet that arrives leaves everything else as it is. -/
theorem Sound.arrival (h : Sound cfg s)
    (hnew : (s.queue k (cfg.getChannel p.address)).checkDramQueue p.address = none) :
    Sound cfg (s.arrive cfg k p) := by
  have hactive : ∀ k' ch' j e₁, (s.arrive cfg k p).Active k' ch' j e₁ ↔
      s.Active k' ch' j e₁ := by
    intro k' ch' j e₁
    cases arrive_spec hnew with
    | full hq _ => exact hq.active
    | @stored i e hr hzero hne _ _ _ =>
      constructor
      · rintro ⟨h₁, hs₁⟩
        rcases hr.slot_cases h₁ with ⟨-, rfl⟩ | ⟨-, h₁⟩
        · cases hs₁
        · exact ⟨h₁, hs₁⟩
      · rintro ha
        refine ⟨?_, ha.2⟩
        rw [hr.slot_ne]
        · exact ha.1
        · rintro ⟨rfl, rfl, rfl⟩
          obtain rfl := Option.some.inj (ha.1.symm.trans hr.was)
          exact h.agree.occupied _ _ _ _ ha hzero
  refine ⟨?_, fun k' ch' j e₁ ha => h.moded k' ch' j e₁ ((hactive k' ch' j e₁).1 ha),
    fun k' ch' hlt => ?_⟩
  · cases arrive_spec hnew with
    | full hq _ => exact h.agree.quiet hq
    | stored hr hzero hne hbank hcount hocc =>
      exact h.agree.insert hr hzero rfl hne rfl hbank hcount hocc
  · have hindex : ((s.arrive cfg k p).queue k' ch').nextProcessIndex =
        (s.queue k' ch').nextProcessIndex ∧ ((s.arrive cfg k p).queue k' ch').nextProcessCycle =
          (s.queue k' ch').nextProcessCycle := by
      rw [arrive, modifyQueue_queue]
      split
      · rename_i hk
        rw [hk.1, hk.2]
        rw [DramQueue.insert]
        split <;> exact ⟨rfl, rfl⟩
      · exact ⟨rfl, rfl⟩
    rw [hindex.2] at hlt
    obtain ⟨e, he, hs⟩ := h.next k' ch' hlt
    obtain ⟨he', -⟩ := (hactive k' ch' _ e).2 ⟨he, hs⟩
    rw [hindex.1]
    exact ⟨e, he', hs⟩

/-- The outcomes of `add_rq`. -/
inductive AddRq (cfg : DramConfig) (env : DramEnv) (p : Packet) (s : MemoryController) :
    MemoryController → List DramEvent → Prop
  | cold : env.allWarmupComplete = false →
      AddRq cfg env p s s [.upperReturn p.instruction p, .result none]
  | forwarded {i : ℕ} {e : DramEntry} : s.slot .wq (cfg.getChannel p.address) i = some e →
      e.address = p.address →
      AddRq cfg env p s s
        [.upperReturn p.instruction { p with data := e.packet.data }, .result none]
  | merged {i : ℕ} {e : DramEntry} : s.slot .rq (cfg.getChannel p.address) i = some e →
      e.address = p.address → AddRq cfg env p s s [.result (some i)]
  | arrived : (s.queue .wq (cfg.getChannel p.address)).checkDramQueue p.address = none →
      (s.queue .rq (cfg.getChannel p.address)).checkDramQueue p.address = none →
      AddRq cfg env p s (s.arrive cfg .rq p) [.result none]

theorem addRq_cases (h : s.addRq cfg env p = (s', evs)) : AddRq cfg env p s s' evs := by
  rw [addRq] at h
  split at h
  · simp only [] at h
    split at h
    · rename_i i e hw
      cases h
      obtain ⟨he, ha⟩ := checkDramQueue_some hw
      exact .forwarded he ha
    · rename_i hw
      split at h
      · rename_i i e hr
        cases h
        obtain ⟨he, ha⟩ := checkDramQueue_some hr
        exact .merged he ha
      · rename_i hr
        cases h
        exact .arrived hw hr
  · rename_i hcold
    cases h
    exact .cold (Bool.not_eq_true _ ▸ hcold)

/-- The outcomes of `add_wq`. -/
inductive AddWq (cfg : DramConfig) (env : DramEnv) (p : Packet) (s : MemoryController) :
    MemoryController → List DramEvent → Prop
  | cold : env.allWarmupComplete = false → AddWq cfg env p s s [.result none]
  | merged {i : ℕ} {e : DramEntry} : s.slot .wq (cfg.getChannel p.address) i = some e →
      e.address = p.address → AddWq cfg env p s s [.result (some i)]
  | arrived : (s.queue .wq (cfg.getChannel p.address)).checkDramQueue p.address = none →
      AddWq cfg env p s (s.arrive cfg .wq p) [.result none]

theorem addWq_cases (h : s.addWq cfg env p = (s', evs)) : AddWq cfg env p s s' evs := by
  rw [addWq] at h
  split at h
  · simp only [] at h
    split at h
    · rename_i i e hw
      cases h
      obtain ⟨he, ha⟩ := checkDramQueue_some hw
      exact .merged he ha
    · rename_i hw
      cases h
      exact .arrived hw
  · rename_i hcold
    cases h
    exact .cold (Bool.not_eq_true _ ▸ hcold)

theorem init_sound : Sound cfg (init cfg) := by
  have hactive : ∀ k ch i e, ¬ (init cfg).Active k ch i e := by
    rintro k ch i e ⟨he, hs⟩
    have hmem := List.mem_of_getElem? he
    obtain ⟨-, rfl⟩ := List.mem_replicate.1 hmem
    cases hs
  have hfree : ∀ k ch, ∀ e ∈ ((init cfg).queue k ch).entry, e = .empty cfg.numCpus := by
    intro k ch e he
    exact (List.mem_replicate.1 he).2
  refine ⟨⟨fun k ch i e he hne => ?_, fun k ch i e ha => absurd ha (hactive _ _ _ _),
    fun k ch i e ha => absurd ha (hactive _ _ _ _), fun b hw => ?_, fun k ch => ?_,
    fun k ch => ?_⟩, fun k ch i e ha => absurd ha (hactive _ _ _ _), fun k ch hlt => ?_⟩
  · rw [hfree k ch e (List.mem_of_getElem? he)] at hne
    exact absurd rfl hne
  · cases hw
  · refine (List.countP_eq_zero.2 fun e he => ?_).symm
    rw [hfree k ch e he]
    exact Bool.false_ne_true
  · refine (List.countP_eq_zero.2 fun e he => ?_).symm
    rw [hfree k ch e he]
    simp [DramEntry.empty, DramEntry.address]
  · exact absurd hlt (lt_irrefl _)

/-- The controller is sound in every reachable state. -/
theorem sound_reachable {ok : MemoryController → DramEnv × Call → Prop}
    (h : (lts cfg).Reachable ok s) : Sound cfg s := by
  refine h.invariant (fun s hs => ?_) fun s l s' evs hI _ hs => ?_
  · obtain rfl : s = init cfg := hs
    exact init_sound
  · obtain ⟨env, call⟩ := l
    cases call with
    | addRq p =>
      cases addRq_cases (Option.some.inj hs) with
      | cold => exact hI
      | forwarded => exact hI
      | merged => exact hI
      | arrived _ hr => exact hI.arrival hr
    | addWq p =>
      cases addWq_cases (Option.some.inj hs) with
      | cold => exact hI
      | merged => exact hI
      | arrived hw => exact hI.arrival hw
    | operate =>
      obtain ⟨s₁, evs₁, hs₁, hsound, -⟩ := operateChannels_spec env (List.range cfg.channels) hI
      have heq : some (s₁, evs₁) = some (s', evs) := hs₁.symm.trans hs
      cases heq
      exact hsound

/-- In every reachable state a request is scheduled exactly when its bank works for it, each bank
has at most one scheduled request, the counters are right, the scheduled requests are of the kind
that the mode asks for, and no check in `operate` fails. -/
theorem dram_bookkeeping (cfg : DramConfig) {ok : MemoryController → DramEnv × Call → Prop}
    {s : MemoryController} (h : (lts cfg).Reachable ok s) :
    (∀ k ch i e, s.slot k ch i = some e → e.address ≠ 0 →
      (e.scheduled = true ↔ (s.bankRequest (cfg.bankOf e.address)).working = true ∧
        (s.bankRequest (cfg.bankOf e.address)).requestIndex = some i ∧
          (s.bankRequest (cfg.bankOf e.address)).serves k = true)) ∧
    (∀ k ch i e k' ch' i' e', s.Active k ch i e → s.Active k' ch' i' e' →
      cfg.bankOf e.address = cfg.bankOf e'.address → k = k' ∧ ch = ch' ∧ i = i') ∧
    (∀ k ch, s.scheduled k ch = (s.queue k ch).entry.countP (·.scheduled)) ∧
    (∀ k ch i e, s.Active k ch i e → s.writeMode ch = decide (k = .wq)) ∧
    ∀ env, (s.operate cfg env).isSome := by
  have hs := sound_reachable h
  refine ⟨fun k ch i e he hne => hs.agree.scheduled_iff he hne,
    fun k ch i e k' ch' i' e' ha ha' hb => hs.agree.unique ha ha' hb, hs.agree.count, hs.moded,
    fun env => ?_⟩
  obtain ⟨s', evs, hs', -, -⟩ := operateChannels_spec env (List.range cfg.channels) hs
  exact Option.isSome_iff_exists.2 ⟨_, hs'⟩

end

/-! ## A run -/

/-- A DRAM with one bank and two slots in each queue. -/
def oneBank : DramConfig where
  numCpus := 1
  channels := 1
  log2Channels := 0
  ranks := 1
  log2Ranks := 0
  banks := 1
  log2Banks := 0
  log2Columns := 0
  rows := 2
  log2Rows := 1
  rqSize := 2
  wqSize := 2
  tRP := 1
  tRCD := 1
  tCAS := 1
  dbusReturnTime := 1
  dbusTurnAroundTime := 1
  writeHighWm := 2
  writeLowWm := 1

/-- After the warmup, with all cores at one cycle. -/
def atCycle (c : Fin 1024) : DramEnv where
  cycle := fun _ => UInt64.ofNat c
  cycle_lt := fun _ => by
    have hc : (c : ℕ) < 2 ^ 64 := by omega
    rw [UInt64.lt_iff_toNat_lt, UInt64.toNat_ofNat_of_lt' hc]
    exact c.isLt.trans (by decide)
  allWarmupComplete := true

theorem atCycle_toNat (c : Fin 1024) (cpu : ℕ) : ((atCycle c).cycle cpu).toNat = c := by
  have hc : (c : ℕ) < 2 ^ 64 := by omega
  exact UInt64.toNat_ofNat_of_lt' hc

/-- A request for a line. -/
def lineRequest (a : Addr) : Packet :=
  { Packet.empty 1 with cpu := 0, address := a, eventCycle := 0 }

/-- A read is scheduled, and its bank works for it. -/
theorem dram_bookkeeping_scheduled : ∃ (s : MemoryController) (e : DramEntry),
    s.slot .rq 0 0 = some e ∧ e.scheduled = true ∧
      (s.bankRequest (oneBank.bankOf e.address)).requestIndex = some 0 := by
  obtain ⟨s, hs, hread⟩ := Lts.reachable_of_exec (lts oneBank) (fun _ _ => True)
    (fun s => (s.slot .rq 0 0).any fun e => e.scheduled && e.address != 0)
    [(atCycle 1, .addRq (lineRequest 1)), (atCycle 1, .operate)] rfl (by decide +kernel)
  obtain ⟨e, he, hsched⟩ := (Option.any_eq_true _ _).1 hread
  obtain ⟨hsched, hne⟩ := Bool.and_eq_true_iff.1 hsched
  have hbank := ((dram_bookkeeping oneBank hs).1 .rq 0 0 e he (by simpa using hne)).1 hsched
  exact ⟨s, e, he, hsched, hbank.2.1⟩

end MemoryController

end Arishem
