import Arishem.Dram.Progress

/-!
# Reads are answered once and writes are not lost

The requests of a run are counted by what the memory controller does not change in them. A read that
was accepted is either answered or still in its queue, and so is a write that was accepted with
respect to the memory; a change of the mode leaves the queues as they are, up to the schedule. Where
no request arrives any more, enough calls of `operate` end all that were accepted.
-/

namespace Arishem

namespace MemoryController

/-- What the memory controller does not change in a packet. -/
def requestOf (p : Packet) : Packet := { p with data := 0, eventCycle := 0 }

@[simp] theorem requestOf_address (p : Packet) : (requestOf p).address = p.address := rfl

theorem requestOf_eventCycle (p : Packet) (c : Cycle) :
    requestOf { p with eventCycle := c } = requestOf p := rfl

theorem requestOf_data (p : Packet) (d : UInt64) :
    requestOf { p with data := d } = requestOf p := rfl

/-- The slot holds this request. -/
def holds (r : Packet) (e : DramEntry) : Bool := requestOf e.packet = r

/-- The slots of its channel that hold a request. -/
def queued (cfg : DramConfig) (k : QueueKind) (r : Packet) (s : MemoryController) : ℕ :=
  (s.queue k (cfg.getChannel r.address)).entry.countP (holds r)

/-- The event ends this request: a read is answered, a write goes to the memory. -/
def ends (k : QueueKind) (r : Packet) : DramEvent → Bool
  | .upperReturn _ p => k = .rq && requestOf p = r
  | .written p => k = .wq && requestOf p = r
  | .result _ => false

/-- How often a request ends in a trace. -/
def ended (k : QueueKind) (r : Packet) (tr : Lts.Trace (DramEnv × Call) DramEvent) : ℕ :=
  (tr.flatMap Prod.snd).countP (ends k r)

/-- The call is accepted and makes this request. -/
def accepts (k : QueueKind) (r : Packet) (x : (DramEnv × Call) × List DramEvent) : Bool :=
  match x.1.2 with
  | .addRq p => k = .rq && requestOf p = r && x.2.contains (.result none)
  | .addWq p => k = .wq && requestOf p = r && x.2.contains (.result none)
  | .operate => false

/-- How often a request is accepted in a trace. -/
def accepted (k : QueueKind) (r : Packet) (tr : Lts.Trace (DramEnv × Call) DramEvent) : ℕ :=
  tr.countP (accepts k r)

/-- A slot of the queue holds a request for the address. -/
def Waits (cfg : DramConfig) (s : MemoryController) (k : QueueKind) (a : Addr) : Prop :=
  ∃ i e, s.slot k (cfg.getChannel a) i = some e ∧ e.address = a

/-- What the LLC keeps to after the warmup: it asks `get_occupancy` first, has at most one read of a
line outstanding, and makes no request for line zero, which its MSHR table takes for a free slot. -/
def Contract (cfg : DramConfig) (s : MemoryController) (l : DramEnv × Call) : Prop :=
  l.1.allWarmupComplete = true ∧
    match l.2 with
    | .addRq p => p.address ≠ 0 ∧ ¬ s.Waits cfg .rq p.address ∧
        (s.queue .rq (cfg.getChannel p.address)).occupancy <
          (s.queue .rq (cfg.getChannel p.address)).size
    | .addWq p => p.address ≠ 0 ∧
        (s.queue .wq (cfg.getChannel p.address)).occupancy <
          (s.queue .wq (cfg.getChannel p.address)).size
    | .operate => True

/-- No queue holds two requests for one address. -/
def Distinct (s : MemoryController) : Prop :=
  ∀ k ch, Slots.Keyed (fun e : DramEntry => e.address ≠ 0) (·.address) (s.queue k ch).entry

/-- Calls of `operate` after the warmup, at growing times that all cores show. -/
structure OnlyOperates (now : ℕ) (envs : List DramEnv) : Prop where
  warm : ∀ env ∈ envs, env.allWarmupComplete = true
  equal : ∀ env ∈ envs, ∀ cpu, env.cycle cpu = env.cycle 0
  growing : Deadlines.Growing now (envs.map fun env => (env.cycle 0).toNat)

/-- So many calls that all queued requests are served, before the counters come to their end: `t` is a
cycle that no noted one exceeds. -/
structure Enough (cfg : DramConfig) (s : MemoryController) (t now : ℕ) (envs : List DramEnv) :
    Prop where
  noted : ∀ ch < cfg.channels, Noted ch t s
  length : s.toServe cfg * (cfg.wait + 1) + (t - now) ≤ envs.length
  limit : ∀ env ∈ envs,
    max t (env.cycle 0).toNat + cfg.wait * s.toServe cfg + cfg.wait < uint64Max.toNat

section
variable {cfg : DramConfig} {env : DramEnv} {s s' s'' : MemoryController} {k k' : QueueKind}
variable {ch ch' i j : ℕ} {e e' : DramEntry} {evs evs' : List DramEvent} {p r : Packet}

/-! ## Distinct addresses -/

/-- A slot is overwritten by the same address, by none, or by one that no other slot holds. -/
theorem Distinct.replaces (h : s.Distinct) (hr : Replaces cfg s s' k ch i e e')
    (haddr : e'.address = e.address ∨ e'.address = 0 ∨
      ∀ e₁ ∈ (s.queue k ch).entry, e₁.address ≠ e'.address) : s'.Distinct := by
  intro k' ch'
  rw [hr.entry]
  split
  · refine (h k ch).set fun hne j hj hji hnej heq => ?_
    rcases haddr with hsame | hzero | hnew
    · have hi := hr.lt
      have hget : (s.queue k ch).entry[i] = e := hr.get hi
      have hnei : (s.queue k ch).entry[i].address ≠ 0 := by
        rw [hget, ← hsame]
        exact hne
      have hsame' : (s.queue k ch).entry[j].address = (s.queue k ch).entry[i].address := by
        rw [heq, hget, hsame]
      exact hji (h k ch j i hj hi hnej hnei hsame')
    · exact hne hzero
    · exact hnew _ (List.getElem_mem hj) heq
  · exact h k' ch'

theorem Distinct.quiet (h : s.Distinct) (hq : Quiet s s') : s'.Distinct := by
  intro k ch
  rw [hq.entry]
  exact h k ch

theorem Distinct.part (h : s.Distinct) (hp : Part cfg s s' evs) : s'.Distinct := by
  cases hp with
  | quiet hq => exact h.quiet hq
  | start hr => exact h.replaces hr (.inl rfl)
  | unschedule hr => exact h.replaces hr (.inl rfl)
  | finish hr => exact h.replaces hr (.inr (.inl rfl))

theorem Distinct.arrive (h : s.Distinct)
    (hnew : (s.queue k (cfg.getChannel p.address)).checkDramQueue p.address = none) :
    (s.arrive cfg k p).Distinct := by
  cases arrive_spec hnew with
  | full hq _ => exact h.quiet hq
  | stored hr => exact h.replaces hr (.inr (.inr (checkDramQueue_none.1 hnew)))

/-! ## Accounts -/

/-- What a part of a call ends has left its queue. -/
theorem queued_part (h : Agree cfg s) (hp : Part cfg s s' evs) (k : QueueKind)
    (hr : r.address ≠ 0) :
    queued cfg k r s = queued cfg k r s' + evs.countP (ends k r) := by
  have hsame : ∀ {k₁ ch₁ i e e'}, Replaces cfg s s' k₁ ch₁ i e e' → holds r e' = holds r e →
      queued cfg k r s' = queued cfg k r s := by
    intro k₁ ch₁ i e e' hrep heq
    rw [queued, queued, hrep.countP, heq]
    split
    · rename_i hk
      rw [hk.1, hk.2]
      by_cases hh : holds r e = true
      · have hpos := hrep.countP_pos (holds r) hh
        rw [if_pos hh]
        omega
      · rw [if_neg hh]
        omega
    · rfl
  cases hp with
  | quiet hq => rw [queued, queued, hq.entry, List.countP_nil, Nat.add_zero]
  | start hrep => rw [hsame hrep rfl, List.countP_nil, Nat.add_zero]
  | unschedule hrep => rw [hsame hrep rfl, List.countP_nil, Nat.add_zero]
  | @finish k₁ ch₁ i e c hrep hs _ _ _ =>
    have hempty : holds r (.empty cfg.numCpus) = false := by
      refine decide_eq_false fun heq => hr ?_
      rw [← heq]
      rfl
    have hends : (served k₁ c e.packet).countP (ends k r) =
        if k₁ = k ∧ holds r e = true then 1 else 0 := by
      by_cases hreq : requestOf e.packet = r <;> cases k₁ <;> cases k <;>
        simp [served, ends, holds, requestOf_eventCycle, hreq]
    rw [hends]
    by_cases hk : k₁ = k ∧ holds r e = true
    · obtain ⟨rfl, hh⟩ := hk
      have hreq : requestOf e.packet = r := of_decide_eq_true hh
      have hch : cfg.getChannel r.address = ch₁ := by
        rw [← hreq]
        exact h.home _ _ _ _ hrep.was (h.occupied _ _ _ _ ⟨hrep.was, hs⟩)
      have hpos := hrep.countP_pos (holds r) hh
      rw [queued, queued, hrep.countP, hempty, hch]
      simp only [and_self, hh, if_true, Bool.false_eq_true, if_false]
      omega
    · rw [if_neg hk, Nat.add_zero]
      by_cases hkk : k₁ = k
      · subst hkk
        have hh : holds r e = false := by
          by_contra hh
          exact hk ⟨rfl, (Bool.not_eq_false _).mp hh⟩
        exact (hsame hrep (hempty.trans hh.symm)).symm
      · rw [queued, queued, hrep.countP, if_neg fun hc => hkk hc.1.symm]

/-- What a call ends has left its queue. -/
theorem queued_parts (h : Agree cfg s) (hp : Parts cfg s s' evs) (k : QueueKind)
    (hr : r.address ≠ 0) :
    queued cfg k r s = queued cfg k r s' + evs.countP (ends k r) := by
  induction hp with
  | nil => simp
  | @snoc s₁ s₂ evs₁ evs₂ hparts hpart ih =>
    rw [ih, queued_part (h.parts hparts) hpart k hr, List.countP_append]
    omega

theorem Distinct.parts (h : s.Distinct) (hp : Parts cfg s s' evs) : s'.Distinct :=
  hp.keeps (fun _ _ _ => Distinct.part) h

/-- A packet that arrives where there is room is in the queue, and nothing else changes. -/
theorem queued_arrive (hs : Agree cfg s)
    (hnew : (s.queue k (cfg.getChannel p.address)).checkDramQueue p.address = none)
    (hroom : (s.queue k (cfg.getChannel p.address)).occupancy <
      (s.queue k (cfg.getChannel p.address)).size) (k' : QueueKind) (hr : r.address ≠ 0) :
    queued cfg k' r (s.arrive cfg k p) =
      queued cfg k' r s + if k' = k ∧ requestOf p = r then 1 else 0 := by
  cases arrive_spec hnew with
  | full _ hfull =>
    have hall : (s.queue k (cfg.getChannel p.address)).entry.countP
        (fun e => e.address != 0) = (s.queue k (cfg.getChannel p.address)).size :=
      List.countP_eq_length.2 fun e he => by simpa using hfull e he
    rw [← hs.occupancy] at hall
    omega
  | @stored i e hrep hzero hne _ _ _ =>
    have hold : holds r e = false := by
      refine decide_eq_false fun heq => hr ?_
      rw [← heq]
      exact hzero
    rw [queued, queued, hrep.countP, hold]
    by_cases hk : k' = k ∧ cfg.getChannel r.address = cfg.getChannel p.address
    · obtain ⟨rfl, hch⟩ := hk
      rw [if_pos ⟨rfl, hch⟩, hch]
      simp [holds]
    · rw [if_neg hk, if_neg]
      · rfl
      · rintro ⟨rfl, rfl⟩
        exact hk ⟨rfl, rfl⟩

/-- A part that ends no request leaves the addresses in the queues. -/
theorem addresses_part (hp : Part cfg s s' []) (k : QueueKind) (ch : ℕ) :
    (s'.queue k ch).entry.map DramEntry.address = (s.queue k ch).entry.map DramEntry.address := by
  have hsame : ∀ {k₁ ch₁ i e e'}, Replaces cfg s s' k₁ ch₁ i e e' → e'.address = e.address →
      (s'.queue k ch).entry.map DramEntry.address =
        (s.queue k ch).entry.map DramEntry.address := by
    intro k₁ ch₁ i e e' hrep haddr
    rw [hrep.entry]
    split
    · rename_i hk
      obtain ⟨rfl, rfl⟩ := hk
      have hlt : i < ((s.queue k ch).entry.map DramEntry.address).length := by
        rw [List.length_map]
        exact hrep.lt
      have hold : ((s.queue k ch).entry.map DramEntry.address)[i] = e.address := by
        rw [List.getElem_map, hrep.get hrep.lt]
      rw [List.map_set, haddr, ← hold, List.set_getElem_self]
    · rfl
  generalize hevs : ([] : List DramEvent) = evs at hp
  cases hp with
  | quiet hq => rw [hq.entry]
  | start hrep => exact hsame hrep rfl
  | unschedule hrep => exact hsame hrep rfl
  | @finish k₁ =>
    cases k₁ <;> cases hevs

/-- Parts that end no request leave the addresses in the queues. -/
theorem addresses_parts (hp : Parts cfg s s' evs) (hevs : evs = []) (k : QueueKind) (ch : ℕ) :
    (s'.queue k ch).entry.map DramEntry.address = (s.queue k ch).entry.map DramEntry.address := by
  induction hp with
  | nil => rfl
  | snoc _ hpart ih =>
    obtain ⟨h₁, rfl⟩ := List.append_eq_nil_iff.1 hevs
    exact (addresses_part hpart k ch).trans (ih h₁)

/-! ## Runs -/

theorem accepted_append (k : QueueKind) (r : Packet)
    (tr : Lts.Trace (DramEnv × Call) DramEvent) (x : (DramEnv × Call) × List DramEvent) :
    accepted k r (tr ++ [x]) = accepted k r tr + if accepts k r x then 1 else 0 := by
  rw [accepted, accepted, List.countP_append, List.countP_singleton]

theorem ended_append (k : QueueKind) (r : Packet)
    (tr : Lts.Trace (DramEnv × Call) DramEvent) (x : (DramEnv × Call) × List DramEvent) :
    ended k r (tr ++ [x]) = ended k r tr + x.2.countP (ends k r) := by
  rw [ended, ended, List.flatMap_append, List.countP_append, List.flatMap_singleton]

/-- A step of the callers: what it accepts goes to a queue or ends at once. -/
theorem balance_step {l : DramEnv × Call} (h : Sound cfg s) (hd : s.Distinct)
    (hl : Contract cfg s l) (hs : (lts cfg).step s l = some (s', evs)) :
    s'.Distinct ∧ ∀ k r, r.address ≠ 0 →
      queued cfg k r s + (if accepts k r (l, evs) then 1 else 0) =
        queued cfg k r s' + evs.countP (ends k r) := by
  obtain ⟨env, call⟩ := l
  obtain ⟨hwarm, hcall⟩ := hl
  cases call with
  | addRq p =>
    obtain ⟨hne, hout, hroom⟩ := hcall
    cases addRq_cases (Option.some.inj hs) with
    | cold hcold => exact absurd (hwarm.symm.trans hcold) (by decide)
    | merged he ha => exact absurd ⟨_, _, he, ha⟩ hout
    | @forwarded i e he ha =>
      refine ⟨hd, fun k r hr => ?_⟩
      by_cases hreq : requestOf p = r <;> cases k <;>
        simp [accepts, ends, requestOf_data, hreq]
    | arrived hw hrq =>
      refine ⟨hd.arrive hrq, fun k r hr => ?_⟩
      rw [queued_arrive h.agree hrq hroom k hr]
      by_cases hreq : requestOf p = r <;> cases k <;> simp [accepts, ends, hreq]
  | addWq p =>
    obtain ⟨hne, hroom⟩ := hcall
    cases addWq_cases (Option.some.inj hs) with
    | cold hcold => exact absurd (hwarm.symm.trans hcold) (by decide)
    | merged he ha =>
      refine ⟨hd, fun k r hr => ?_⟩
      simp [accepts, ends]
    | arrived hw =>
      refine ⟨hd.arrive hw, fun k r hr => ?_⟩
      rw [queued_arrive h.agree hw hroom k hr]
      by_cases hreq : requestOf p = r <;> cases k <;> simp [accepts, ends, hreq]
  | operate =>
    obtain ⟨s₁, evs₁, hs₁, -, hparts⟩ := operateChannels_spec env (List.range cfg.channels) h
    have heq : some (s₁, evs₁) = some (s', evs) := hs₁.symm.trans hs
    cases heq
    refine ⟨hd.parts hparts, fun k r hr => ?_⟩
    rw [queued_parts h.agree hparts k hr]
    simp [accepts]

theorem init_distinct : (init cfg).Distinct := by
  intro k ch i j hi hj hne
  have hmem := List.getElem_mem hi
  have hempty : ((init cfg).queue k ch).entry[i] = .empty cfg.numCpus :=
    (List.mem_replicate.1 hmem).2
  rw [hempty] at hne
  exact absurd rfl hne

/-- The accounts of a run of the callers. -/
theorem balance_run {tr : Lts.Trace (DramEnv × Call) DramEvent}
    (h : (lts cfg).Run (Contract cfg) s tr) :
    s.Distinct ∧ ∀ k r, r.address ≠ 0 → accepted k r tr = ended k r tr + queued cfg k r s := by
  refine h.induct (P := fun s tr => s.Distinct ∧ ∀ k r, r.address ≠ 0 →
    accepted k r tr = ended k r tr + queued cfg k r s) (fun s hs => ?_)
      fun s tr l s' evs hrun hI hl hs => ?_
  · obtain rfl : s = init cfg := hs
    refine ⟨init_distinct, fun k r hr => ?_⟩
    have hnone : queued cfg k r (init cfg) = 0 := by
      refine List.countP_eq_zero.2 fun e he hh => hr ?_
      obtain ⟨-, rfl⟩ := List.mem_replicate.1 he
      rw [← of_decide_eq_true hh]
      rfl
    rw [hnone]
    rfl
  · obtain ⟨hd, hbalance⟩ := hI
    have hsound := sound_reachable ⟨tr, hrun⟩
    obtain ⟨hd', hstep⟩ := balance_step hsound hd hl hs
    refine ⟨hd', fun k r hr => ?_⟩
    have hold := hbalance k r hr
    have hnew := hstep k r hr
    rw [accepted_append, ended_append]
    simp only []
    omega

/-- A read is answered at once when its address waits in the write queue, and otherwise waits. -/
theorem addRq_contract (h : Sound cfg s) (hl : Contract cfg s (env, .addRq p)) :
    (s.Waits cfg .wq p.address → ∃ q, requestOf q = requestOf p ∧
      s.addRq cfg env p = (s, [.upperReturn p.instruction q, .result none])) ∧
    (¬ s.Waits cfg .wq p.address → ∃ s', s.addRq cfg env p = (s', [.result none]) ∧
      queued cfg .rq (requestOf p) s' = queued cfg .rq (requestOf p) s + 1) := by
  obtain ⟨hwarm, hne, hout, hroom⟩ := hl
  obtain ⟨⟨s', evs⟩, hx⟩ : ∃ x, s.addRq cfg env p = x := ⟨_, rfl⟩
  cases addRq_cases hx with
  | cold hcold => exact absurd (hwarm.symm.trans hcold) (by decide)
  | merged he ha => exact absurd ⟨_, _, he, ha⟩ hout
  | @forwarded i e he ha =>
    exact ⟨fun _ => ⟨_, requestOf_data p _, hx⟩, fun hw => absurd ⟨i, e, he, ha⟩ hw⟩
  | arrived hw hrq =>
    refine ⟨fun ⟨i, e, he, ha⟩ => ?_, fun _ => ⟨_, hx, ?_⟩⟩
    · exact absurd ha (checkDramQueue_none.1 hw e (List.mem_of_getElem? he))
    · have hreq : (requestOf p).address ≠ 0 := hne
      rw [queued_arrive h.agree hrq hroom .rq hreq, if_pos ⟨rfl, rfl⟩]

/-! ## The end of a run -/

/-- Calls of `operate` have a path of the callers. -/
theorem operates_path (h : Sound cfg s) {envs : List DramEnv}
    (hwarm : ∀ env ∈ envs, env.allWarmupComplete = true)
    (hequal : ∀ env ∈ envs, ∀ cpu, env.cycle cpu = env.cycle 0) :
    ∃ s' tr', (lts cfg).Path (Contract cfg) s tr' s' ∧
      tr'.map Prod.fst = envs.map (fun env => (env, Call.operate)) ∧
      Deadlines.Follows (Operates cfg) (envs.map fun env => (env.cycle 0).toNat) s s' := by
  induction envs generalizing s with
  | nil => exact ⟨s, [], .nil, rfl, rfl⟩
  | cons env envs ih =>
    obtain ⟨s₁, evs₁, hs₁, hsound₁, -⟩ := operateChannels_spec env (List.range cfg.channels) h
    obtain ⟨s', tr', hpath, hlabels, hfollows⟩ :=
      ih hsound₁ (fun env he => hwarm env (List.mem_cons_of_mem _ he))
        fun env he => hequal env (List.mem_cons_of_mem _ he)
    have hfirst : (lts cfg).Path (Contract cfg) s [((env, .operate), evs₁)] s₁ :=
      .step .nil ⟨hwarm env (List.mem_cons_self ..), trivial⟩ hs₁
    refine ⟨s', ((env, .operate), evs₁) :: tr', hfirst.append hpath, ?_, s₁, ?_, hfollows⟩
    · rw [List.map_cons, List.map_cons, hlabels]
    · have hsame := hequal env (List.mem_cons_self ..)
      exact ⟨env, evs₁, fun cpu => by rw [hsame], hs₁⟩

/-- `operate` accepts no request. -/
theorem accepted_operates {tr : Lts.Trace (DramEnv × Call) DramEvent} {envs : List DramEnv}
    (h : tr.map Prod.fst = envs.map (fun env => (env, Call.operate))) (k : QueueKind) (r : Packet) :
    accepted k r tr = 0 := by
  refine List.countP_eq_zero.2 fun x hx hacc => ?_
  have hmem : x.1 ∈ envs.map (fun env => (env, Call.operate)) := h ▸ List.mem_map_of_mem hx
  obtain ⟨env, -, heq⟩ := List.mem_map.1 hmem
  rw [accepts, ← heq] at hacc
  cases hacc

theorem getChannel_lt (hcfg : 0 < cfg.channels) (a : Addr) : cfg.getChannel a < cfg.channels := by
  rw [DramConfig.getChannel, DramConfig.dramGet]
  split
  · exact hcfg
  · exact (Nat.and_le_right ..).trans_lt (Nat.sub_lt hcfg Nat.one_pos)

/-- An empty channel has no request queued. -/
theorem queued_of_backlog (h : Agree cfg s) (hempty : s.backlog (cfg.getChannel r.address) = 0)
    (k : QueueKind) (hr : r.address ≠ 0) : queued cfg k r s = 0 := by
  have hzero : (s.queue k (cfg.getChannel r.address)).occupancy = 0 := by
    rw [backlog] at hempty
    cases k <;> omega
  rw [h.occupancy] at hzero
  refine List.countP_eq_zero.2 fun e he hh => hr ?_
  have hfree := List.countP_eq_zero.1 hzero e he
  rw [← of_decide_eq_true hh]
  simpa using hfree

/-- Where no request arrives any more, enough calls of `operate` end each request that was
accepted. -/
theorem all_ended {tr : Lts.Trace (DramEnv × Call) DramEvent} (h : (lts cfg).Run (Contract cfg) s tr)
    (hcfg : cfg.Drains) {t now : ℕ} {envs : List DramEnv} (honly : OnlyOperates now envs)
    (henough : Enough cfg s t now envs) :
    ∃ s' tr', (lts cfg).Path (Contract cfg) s tr' s' ∧
      tr'.map Prod.fst = envs.map (fun env => (env, Call.operate)) ∧
      ∀ k r, r.address ≠ 0 → ended k r (tr ++ tr') = accepted k r tr := by
  have hsound := sound_reachable ⟨tr, h⟩
  obtain ⟨s', tr', hpath, hlabels, hfollows⟩ := operates_path hsound honly.warm honly.equal
  refine ⟨s', tr', hpath, hlabels, fun k r hr => ?_⟩
  have hrun := h.path hpath
  have hdrained : s'.backlog (cfg.getChannel r.address) = 0 :=
    drains hcfg hsound (cached_run h) henough.noted honly.growing
      (by rw [List.length_map]; exact henough.length)
      (fun c hc => by
        obtain ⟨env, henv, rfl⟩ := List.mem_map.1 hc
        exact henough.limit env henv)
      hfollows (getChannel_lt hcfg.channels_pos r.address)
  have hbalance := (balance_run hrun).2 k r hr
  have hnone := queued_of_backlog (sound_reachable ⟨_, hrun⟩).agree hdrained k hr
  have hsum : accepted k r (tr ++ tr') = accepted k r tr + accepted k r tr' := List.countP_append
  rw [accepted_operates hlabels] at hsum
  omega

/-- In every run of the callers each read that was accepted is either answered, once, or in its
queue, each write that was accepted has either gone to the memory or is in its queue; no queue holds
two requests for one address, and the occupancies are right. A read is answered at once exactly when
its address waits in the write queue, a change of the mode leaves the addresses in the queues, and a
request leaves its queue only with the event that ends it. The run can always be ended: where no
request arrives any more, each one that was accepted ends exactly once in enough calls of `operate`. -/
theorem dram_answers_once (cfg : DramConfig) {s : MemoryController}
    {tr : Lts.Trace (DramEnv × Call) DramEvent} (h : (lts cfg).Run (Contract cfg) s tr) :
    (∀ k r, r.address ≠ 0 → accepted k r tr = ended k r tr + queued cfg k r s) ∧
    s.Distinct ∧
    (∀ k ch, (s.queue k ch).occupancy = (s.queue k ch).entry.countP fun e => e.address != 0) ∧
    (∀ env p, Contract cfg s (env, .addRq p) →
      (s.Waits cfg .wq p.address → ∃ q, requestOf q = requestOf p ∧
        s.addRq cfg env p = (s, [.upperReturn p.instruction q, .result none])) ∧
      (¬ s.Waits cfg .wq p.address → ∃ s', s.addRq cfg env p = (s', [.result none]) ∧
        queued cfg .rq (requestOf p) s' = queued cfg .rq (requestOf p) s + 1)) ∧
    (∀ env ch s', s.switchMode cfg env ch = some s' → ∀ k ch',
      (s'.queue k ch').entry.map DramEntry.address =
        (s.queue k ch').entry.map DramEntry.address) ∧
    (∀ l s' evs, Contract cfg s l → (lts cfg).step s l = some (s', evs) → ∀ k r, r.address ≠ 0 →
      queued cfg k r s ≤ queued cfg k r s' + evs.countP (ends k r)) ∧
    (cfg.Drains → ∀ t now envs, OnlyOperates now envs → Enough cfg s t now envs →
      ∃ s' tr', (lts cfg).Path (Contract cfg) s tr' s' ∧
        tr'.map Prod.fst = envs.map (fun env => (env, Call.operate)) ∧
        ∀ k r, r.address ≠ 0 → ended k r (tr ++ tr') = accepted k r tr) := by
  obtain ⟨hd, hbalance⟩ := balance_run h
  have hsound := sound_reachable ⟨tr, h⟩
  refine ⟨hbalance, hd, hsound.agree.occupancy, fun env p hl => addRq_contract hsound hl,
    fun env ch s' hs k ch' => ?_, fun l s' evs hl hs k r hr => ?_,
    fun hcfg t now envs honly henough => all_ended h hcfg honly henough⟩
  · obtain ⟨s₁, hs₁, -, hparts⟩ := switchMode_spec hsound env ch
    obtain rfl : s₁ = s' := Option.some.inj (hs₁.symm.trans hs)
    exact addresses_parts hparts rfl k ch'
  · have hstep := (balance_step hsound hd hl hs).2 k r hr
    omega

end

instance (cfg : DramConfig) (s : MemoryController) (k : QueueKind) (a : Addr) :
    Decidable (s.Waits cfg k a) :=
  decidable_of_iff (∃ e ∈ (s.queue k (cfg.getChannel a)).entry, e.address = a) <| by
    constructor
    · rintro ⟨e, he, ha⟩
      obtain ⟨i, hi⟩ := List.getElem?_of_mem he
      exact ⟨i, e, hi, ha⟩
    · rintro ⟨i, e, he, ha⟩
      exact ⟨e, List.mem_of_getElem? he, ha⟩

instance (cfg : DramConfig) (s : MemoryController) (l : DramEnv × Call) :
    Decidable (Contract cfg s l) := by
  unfold Contract
  have hcall : Decidable (match l.2 with
      | .addRq p => p.address ≠ 0 ∧ ¬ s.Waits cfg .rq p.address ∧
          (s.queue .rq (cfg.getChannel p.address)).occupancy <
            (s.queue .rq (cfg.getChannel p.address)).size
      | .addWq p => p.address ≠ 0 ∧
          (s.queue .wq (cfg.getChannel p.address)).occupancy <
            (s.queue .wq (cfg.getChannel p.address)).size
      | .operate => True) := by
    split <;> infer_instance
  infer_instance

/-- The calls of `dram_answers_once_after_writes`: a read is scheduled, and reset by a burst of writes
that are scheduled in its place. -/
def readThenWrites : List (DramEnv × Call) :=
  [(atCycle 1, .addRq (lineRequest 1)), (atCycle 1, .operate), (atCycle 1, .addWq (lineRequest 2)),
    (atCycle 1, .addWq (lineRequest 3)), (atCycle 2, .operate)]

/-- The cycles in which the queues are served. -/
def laterCycles : List DramEnv := (List.range 200).map fun c => atCycle (Fin.ofNat 1024 (c + 3))

/-- A read that was scheduled and was reset by a burst of writes is still queued, with both writes, and
the later calls of `operate` answer it once and write both lines once. -/
theorem dram_answers_once_after_writes :
    ∃ (s s' : MemoryController) (tr tr' : Lts.Trace (DramEnv × Call) DramEvent),
      (lts oneBank).Run (Contract oneBank) s tr ∧ tr.map Prod.fst = readThenWrites ∧
        (s.slot .rq 0 0).map (·.scheduled) = some false ∧ s.writeMode 0 = true ∧
        queued oneBank .rq (requestOf (lineRequest 1)) s = 1 ∧
      (lts oneBank).Path (Contract oneBank) s tr' s' ∧
        tr'.map Prod.fst = laterCycles.map (fun env => (env, Call.operate)) ∧
        ended .rq (requestOf (lineRequest 1)) (tr ++ tr') = 1 ∧
        ended .wq (requestOf (lineRequest 2)) (tr ++ tr') = 1 ∧
        ended .wq (requestOf (lineRequest 3)) (tr ++ tr') = 1 := by
  obtain ⟨⟨s, tr⟩, hexec, hp⟩ := (Option.any_eq_true
    (fun x : MemoryController × Lts.Trace (DramEnv × Call) DramEvent =>
      (x.1.slot .rq 0 0).map (·.scheduled) = some false && x.1.writeMode 0 &&
        queued oneBank .rq (requestOf (lineRequest 1)) x.1 = 1 && x.1.toServe oneBank ≤ 22 &&
        accepted .rq (requestOf (lineRequest 1)) x.2 = 1 &&
        accepted .wq (requestOf (lineRequest 2)) x.2 = 1 &&
        accepted .wq (requestOf (lineRequest 3)) x.2 = 1)
    ((lts oneBank).exec (Contract oneBank) (init oneBank) readThenWrites)).1 (by decide +kernel)
  simp only [Bool.and_eq_true, decide_eq_true_eq] at hp
  obtain ⟨⟨⟨⟨⟨⟨hslot, hmode⟩, hqueued⟩, hserve⟩, hread⟩, hwrite⟩, hwrite'⟩ := hp
  have hlabels := Lts.labels_of_exec hexec
  have hrun : (lts oneBank).Run (Contract oneBank) s tr := ⟨_, rfl, Lts.path_of_exec hexec⟩
  have hshows : ∀ x ∈ tr, Shows 2 x.1 := fun x hx => by
    have hx : x.1 ∈ readThenWrites := hlabels ▸ List.mem_map_of_mem hx
    simp only [readThenWrites, List.mem_cons, List.not_mem_nil, or_false] at hx
    rcases hx with hx | hx | hx | hx | hx <;> rw [hx] <;>
      exact ⟨fun cpu => by rw [atCycle_toNat]; decide, by decide⟩
  have hlength : tr.length = 5 := by
    have hlength := congrArg List.length hlabels
    rwa [List.length_map] at hlength
  have hnoted : ∀ ch < oneBank.channels, Noted ch 27 s := fun ch _ => by
    have hnoted := noted_run hrun hshows ch
    rwa [hlength] at hnoted
  have honly : OnlyOperates 2 laterCycles := by
    refine ⟨fun env henv => ?_, fun env henv cpu => ?_, by decide +kernel⟩ <;>
      obtain ⟨c, -, rfl⟩ := List.mem_map.1 henv <;> rfl
  have henough : Enough oneBank s 27 2 laterCycles := by
    have hwait : oneBank.wait = 5 := rfl
    refine ⟨hnoted, ?_, fun env henv => ?_⟩
    · have hmany : laterCycles.length = 200 := rfl
      rw [hwait, hmany]
      omega
    · have hlate : ∀ env ∈ laterCycles, (env.cycle 0).toNat ≤ 1024 := by
        intro env henv
        obtain ⟨c, -, rfl⟩ := List.mem_map.1 henv
        rw [atCycle_toNat]
        omega
      have hlate := hlate env henv
      have hmax : uint64Max.toNat = 2 ^ 64 - 1 := rfl
      rw [hwait, hmax]
      omega
  obtain ⟨s', tr', hpath, hlabels', hended⟩ := (dram_answers_once oneBank hrun).2.2.2.2.2.2
    ⟨by decide, by decide, by decide⟩ 27 2 laterCycles honly henough
  exact ⟨s, s', tr, tr', hrun, hlabels, hslot, hmode, hqueued, hpath, hlabels',
    (hended _ _ (by decide)).trans hread, (hended _ _ (by decide)).trans hwrite,
    (hended _ _ (by decide)).trans hwrite'⟩

end MemoryController

end Arishem
