import Arishem.Cache.Bookkeeping

/-!
# The miss latency

`handle_fill` adds to `total_miss_latency` the cycles since `cycle_enqueued` of the entry it fills.
`add_mshr` stamps a packet with the cycle of its miss, but the stamp travels with the packet: a demand
that replaces a prefetch in the table brings the stamp of the level above, or none at all. A run is
watched with the cycles at which the requests of each entry missed in this cache, and with the
counters at its last step. The amounts are counted from one of the misses, and no amount exceeds the
age of its entry, as long as each demand that replaces a prefetch carries such a stamp.
-/

namespace Arishem

/-- When the requests of an MSHR entry missed: the one that allocated it, and the demands that
replaced a prefetch. -/
structure MissTimes where
  allocated : Cycle
  replaced : List Cycle

/-- The cycles of all misses of an entry. -/
def MissTimes.cycles (t : MissTimes) : List Cycle := t.allocated :: t.replaced

/-- A cache that is watched: the misses of each slot, and `current_core_cycle` at the last step. -/
structure TimedCache where
  cache : Cache
  times : ℕ → MissTimes
  clock : ℕ → Cycle

/-- An MSHR slot is occupied. -/
def Mshr.taken (i : ℕ) (m : Mshr) : Bool :=
  match m.entry[i]? with
  | some e => e.address != 0
  | none => false

namespace Cache

/-- The demand that a step merges into an entry: the slot, the entry and the packet. -/
def demandMerged (cfg : Config) (env : Env) (c : Cache) : Action → Option (ℕ × Packet × Packet)
  | .readOne =>
    match c.rq with
    | [] => none
    | p :: _ =>
      if c.readsAvailable = 0 ∨ p.cpu = cfg.numCpus then none
      else if p.eventCycle ≤ env.cycle p.cpu ∧ (c.checkHit cfg p).1 = none then
        (c.mshr.checkMshr p.address).map fun r => (r.1, r.2, p)
      else none
  | .handleWriteback =>
    match c.wq with
    | [] => none
    | p :: _ =>
      if cfg.cacheType ≠ .l1d ∨ p.cpu = cfg.numCpus then none
      else if p.eventCycle ≤ env.cycle p.cpu ∧ (c.checkHit cfg p).1 = none then
        (c.mshr.checkMshr p.address).map fun r => (r.1, r.2, p)
      else none
  | _ => none

/-- The cycles after a step from `c` to `c'`: a slot that was free is allocated, or a demand replaces
a prefetch. -/
def missTimes (cfg : Config) (l : Env × Action) (c c' : Cache) (times : ℕ → MissTimes) (i : ℕ) :
    MissTimes :=
  match c'.mshr.entry[i]? with
  | none => times i
  | some e' =>
    if !c.mshr.taken i && c'.mshr.taken i then ⟨l.1.cycle e'.cpu, []⟩
    else
      match demandMerged cfg l.1 c l.2 with
      | none => times i
      | some (j, e, p) =>
        if j = i ∧ e.type = .prefetch then
          { times i with replaced := l.1.cycle p.cpu :: (times i).replaced }
        else times i

end Cache

/-- A cache that is watched, as a system. Before the first miss the cycles mean nothing. -/
def timedLts (cfg : Config) : Lts TimedCache (Env × Action) Event where
  init s := s.cache = Cache.init cfg
  step s l := (s.cache.act cfg l.1 l.2).map fun r =>
    (⟨r.1, Cache.missTimes cfg l s.cache r.1 s.times, l.1.cycle⟩, r.2)

/-- A demand that replaces a prefetch was stamped when it or the prefetch missed in this cache. -/
def StampedHere (cfg : Config) (c : Cache) (l : Env × Action) : Prop :=
  ∀ r ∈ Cache.demandMerged cfg l.1 c l.2, r.2.1.type = .prefetch →
    r.2.2.cycleEnqueued = l.1.cycle r.2.2.cpu ∨ r.2.2.cycleEnqueued = r.2.1.cycleEnqueued

instance (cfg : Config) (c : Cache) (l : Env × Action) : Decidable (StampedHere cfg c l) :=
  inferInstanceAs (Decidable (∀ r ∈ Cache.demandMerged cfg l.1 c l.2, _ → _))

/-- The counter of a core with a miss in flight does not go back, and a demand that is merged comes
from the core of the entry or from one whose counter shows the same. -/
def ClocksForward (cfg : Config) (s : TimedCache) (l : Env × Action) : Prop :=
  (∀ e ∈ s.cache.mshr.entry, s.clock e.cpu ≤ l.1.cycle e.cpu) ∧
    ∀ r ∈ Cache.demandMerged cfg l.1 s.cache l.2, l.1.cycle r.2.1.cpu = l.1.cycle r.2.2.cpu

instance (cfg : Config) (s : TimedCache) (l : Env × Action) : Decidable (ClocksForward cfg s l) :=
  inferInstanceAs (Decidable (_ ∧ ∀ r ∈ Cache.demandMerged cfg l.1 s.cache l.2, _))

/-- What a step does to the stamps: the entry of a slot keeps its stamp and its core, it was allocated
and stamped, or a demand has replaced a prefetch. -/
inductive SlotStep (cfg : Config) (env : Env) (a : Action) (c : Cache) (i : ℕ) (e' : Packet) : Prop
  | keeps {e : Packet} : c.mshr.entry[i]? = some e → e.address ≠ 0 →
      e'.cycleEnqueued = e.cycleEnqueued → e'.cpu = e.cpu → SlotStep cfg env a c i e'
  | allocates {e : Packet} : c.mshr.entry[i]? = some e → e.address = 0 →
      e'.cycleEnqueued = env.cycle e'.cpu → SlotStep cfg env a c i e'
  | replaces {e p : Packet} : c.mshr.entry[i]? = some e → e.address ≠ 0 →
      Cache.demandMerged cfg env c a = some (i, e, p) → e.type = .prefetch →
      e'.cycleEnqueued = p.cycleEnqueued → e'.cpu = p.cpu → SlotStep cfg env a c i e'

/-- The occupied slots after a step. -/
def SlotSteps (cfg : Config) (env : Env) (a : Action) (c c' : Cache) : Prop :=
  ∀ i e', c'.mshr.entry[i]? = some e' → e'.address ≠ 0 → SlotStep cfg env a c i e'

section
variable {cfg : Config} {env : Env} {a : Action} {c c' : Cache} {evs : List Event}

theorem SlotSteps.frame (h : c'.mshr.entry = c.mshr.entry) : SlotSteps cfg env a c c' := by
  intro i e' he' hlive
  rw [h] at he'
  exact .keeps he' hlive rfl rfl

/-- A step that writes one slot. -/
theorem SlotSteps.set {j : ℕ} {e : Packet} (hm : c'.mshr.entry = c.mshr.entry.set j e)
    (h : j < c.mshr.entry.length → e.address ≠ 0 → SlotStep cfg env a c j e) :
    SlotSteps cfg env a c c' := by
  intro i e' he' hlive
  rw [hm, List.getElem?_set] at he'
  split at he'
  · rename_i hij
    subst hij
    split at he'
    · obtain rfl := Option.some.inj he'
      exact h ‹_› hlive
    · cases he'
  · exact .keeps he' hlive rfl rfl

/-- `add_mshr` stamps what it allocates. -/
theorem SlotSteps.addMshr {p : Packet} (hm : c'.mshr = c.mshr.addMshr (Cache.stamped env p)) :
    SlotSteps cfg env a c c' := by
  cases hf : c.mshr.checkMshr 0 with
  | none =>
    rw [Mshr.addMshr, hf] at hm
    exact .frame (congrArg Mshr.entry hm)
  | some r =>
    obtain ⟨i, e⟩ := r
    obtain ⟨hi, he, hfree⟩ := Mshr.checkMshr_some hf
    rw [Mshr.addMshr_of_free hf] at hm
    refine .set (congrArg Mshr.entry hm) fun _ _ => ?_
    exact .allocates (List.getElem?_eq_some_iff.2 ⟨hi, he⟩) hfree rfl

/-- An update of the entry that was found, which keeps its address or takes the packet's. -/
theorem SlotSteps.update {a' : Addr} {i : ℕ} {e q : Packet}
    (hf : c.mshr.checkMshr a' = some (i, e)) (hm : c'.mshr.entry = c.mshr.entry.set i q)
    (hq : q.address = e.address) (h : e.address ≠ 0 →
      (q.cycleEnqueued = e.cycleEnqueued ∧ q.cpu = e.cpu) ∨
      ∃ p, Cache.demandMerged cfg env c a = some (i, e, p) ∧ e.type = .prefetch ∧
        q.cycleEnqueued = p.cycleEnqueued ∧ q.cpu = p.cpu) : SlotSteps cfg env a c c' := by
  obtain ⟨hi, he, -⟩ := Mshr.checkMshr_some hf
  have hget : c.mshr.entry[i]? = some e := List.getElem?_eq_some_iff.2 ⟨hi, he⟩
  refine .set hm fun _ hlive => ?_
  rw [hq] at hlive
  rcases h hlive with ⟨hkeep, hcpu⟩ | ⟨p, hp, ht, hstamp, hcpu⟩
  · exact .keeps hget hlive hkeep hcpu
  · exact .replaces hget hlive hp ht hstamp hcpu

/-- What a merged demand `p` makes of the entry `e`: it keeps the address, and the stamp and the core
of the demand replace those of a prefetch. -/
structure MergeStamps (p e q : Packet) : Prop where
  address : q.address = e.address
  cycleEnqueued : q.cycleEnqueued = if e.type = .prefetch then p.cycleEnqueued else e.cycleEnqueued
  cpu : q.cpu = if e.type = .prefetch then p.cpu else e.cpu

theorem Cache.mergedRead_stamp {p e : Packet} (ha : e.address = p.address) :
    MergeStamps p e (Cache.mergedRead p e) := by
  have hstamp : (Cache.markConsumers p e).cycleEnqueued = e.cycleEnqueued ∧
      (Cache.markConsumers p e).cpu = e.cpu := by
    simp only [Cache.markConsumers]
    split_ifs <;> exact ⟨rfl, rfl⟩
  refine ⟨(Cache.mergedRead_sameMiss ha).address, ?_, ?_⟩ <;>
    rw [Cache.mergedRead, Cache.replacePrefetch] <;>
    simp only [Cache.lowerFillLevel, Cache.markConsumers_type] <;>
    split
  · rfl
  · exact hstamp.1
  · rfl
  · exact hstamp.2

theorem Cache.mergedRfo_stamp {p e : Packet} (ha : e.address = p.address) :
    MergeStamps p e (Cache.mergedRfo p e) := by
  refine ⟨(Cache.mergedRfo_sameMiss ha).address, ?_, ?_⟩ <;>
    rw [Cache.mergedRfo, Cache.replacePrefetch] <;>
    by_cases ht : e.type = .prefetch <;>
    simp [Cache.lowerFillLevel, ht]

/-- A demand that is merged was the head of its queue and missed. -/
theorem SlotSteps.merge {i : ℕ} {e p q : Packet} (hf : c.mshr.checkMshr p.address = some (i, e))
    (hm : c'.mshr.entry = c.mshr.entry.set i q) (hq : MergeStamps p e q)
    (hmerging : Cache.demandMerged cfg env c a = some (i, e, p)) : SlotSteps cfg env a c c' := by
  refine .update hf hm hq.address fun _ => ?_
  by_cases ht : e.type = .prefetch
  · exact .inr ⟨p, hmerging, ht, by rw [hq.cycleEnqueued, if_pos ht], by rw [hq.cpu, if_pos ht]⟩
  · exact .inl ⟨by rw [hq.cycleEnqueued, if_neg ht], by rw [hq.cpu, if_neg ht]⟩

theorem Cache.demandMerged_readOne {p e : Packet} {rest : List Packet} {buffer : List UInt64} {i : ℕ}
    (h : c.readOne cfg env = some (c', evs)) (hq : c.rq = p :: rest) (hrest : c'.rq = rest)
    (hh : c.checkHit cfg p = (none, buffer)) (hf : c.mshr.checkMshr p.address = some (i, e)) :
    Cache.demandMerged cfg env c .readOne = some (i, e, p) := by
  have hmoved : c' ≠ c := fun he => by
    rw [he, hq] at hrest
    exact absurd (congrArg List.length hrest) (by simp)
  rw [readOne, hq] at h
  rw [demandMerged, hq]
  dsimp only at h ⊢
  split at h
  · exact absurd (congrArg Prod.fst (Option.some.inj h)).symm hmoved
  · rename_i hready
    rw [if_neg hready]
    split at h
    · rename_i hdue
      rw [if_pos ⟨hdue, congrArg Prod.fst hh⟩, hf]
      rfl
    · exact absurd (congrArg Prod.fst (Option.some.inj h)).symm hmoved

theorem Cache.demandMerged_handleWriteback {p e : Packet} {rest : List Packet} {buffer : List UInt64}
    {i : ℕ} (h : c.handleWriteback cfg env = some (c', evs)) (hq : c.wq = p :: rest)
    (hrest : c'.wq = rest) (ht : cfg.cacheType = .l1d) (hh : c.checkHit cfg p = (none, buffer))
    (hf : c.mshr.checkMshr p.address = some (i, e)) :
    Cache.demandMerged cfg env c .handleWriteback = some (i, e, p) := by
  have hmoved : c' ≠ c := fun he => by
    rw [he, hq] at hrest
    exact absurd (congrArg List.length hrest) (by simp)
  rw [handleWriteback, hq] at h
  rw [demandMerged, hq]
  dsimp only at h ⊢
  split at h
  · exact absurd (congrArg Prod.fst (Option.some.inj h)).symm hmoved
  · rename_i hcpu
    rw [if_neg (not_or.2 ⟨not_not.2 ht, hcpu⟩)]
    split at h
    · rename_i hdue
      rw [if_pos ⟨hdue, congrArg Prod.fst hh⟩, hf]
      rfl
    · exact absurd (congrArg Prod.fst (Option.some.inj h)).symm hmoved

/-- The answer to a miss leaves the stamps alone. -/
theorem SlotSteps.returnData {c₁ : Cache} {p : Packet} (h : SlotSteps cfg env a c c₁)
    (hr : c₁.returnData cfg env p = some c') : SlotSteps cfg env a c c' := by
  rw [Cache.returnData] at hr
  split at hr
  · cases hr
  · rename_i i e hf
    obtain ⟨hi, he, -⟩ := Mshr.checkMshr_some hf
    cases hr
    intro j e' he' hlive
    rw [Mshr.entry_complete, List.getElem?_set] at he'
    split at he'
    · rename_i hij
      subst hij
      obtain rfl := Option.some.inj he'
      -- the entry before it was completed
      cases h i e (List.getElem?_eq_some_iff.2 ⟨hi, he⟩) hlive with
      | keeps hget hlive' hstamp hcpu => exact .keeps hget hlive' hstamp hcpu
      | allocates hget hfree hstamp => exact .allocates hget hfree hstamp
      | replaces hget hlive' hp ht hstamp hcpu => exact .replaces hget hlive' hp ht hstamp hcpu
    · exact h j e' he' hlive

/-- A slot that was due is given up. -/
theorem SlotSteps.release {n i : ℕ} (hm : c'.mshr = c.mshr.remove n i) :
    SlotSteps cfg env a c c' :=
  .set (congrArg Mshr.entry hm) fun _ hlive => absurd rfl hlive

theorem SlotSteps.fillStep (hs : Cache.FillStep cfg env c c' evs) :
    SlotSteps cfg env a c c' := by
  cases hs with
  | idle => exact .frame rfl
  | bypass _ _ => exact .release rfl
  | fill _ _ => exact .release rfl

theorem SlotSteps.handleWriteback (hs : c.handleWriteback cfg env = some (c', evs)) :
    SlotSteps cfg env .handleWriteback c c' := by
  cases Cache.handleWriteback_cases hs with
  | idle => exact .frame rfl
  | hit _ _ => exact .frame rfl
  | rfoNew _ _ _ _ _ => exact .addMshr rfl
  | rfoMerge hq _ ht hh hf =>
    obtain ⟨-, -, ha⟩ := Mshr.checkMshr_some hf
    exact .merge hf rfl (Cache.mergedRfo_stamp ha)
      (Cache.demandMerged_handleWriteback hs hq rfl ht hh hf)
  | fill _ _ _ _ _ => exact .frame rfl

theorem SlotSteps.readOne (hs : c.readOne cfg env = some (c', evs)) :
    SlotSteps cfg env .readOne c c' := by
  cases Cache.readOne_cases hs with
  | idle => exact .frame rfl
  | hit _ _ => exact .frame rfl
  | @new p rest buffer _ _ _ _ _ _ hn =>
    have hadd : SlotSteps cfg env .readOne c
        { c with pageBuffer := buffer, mshr := c.mshr.addMshr (Cache.stamped env p) } := .addMshr rfl
    rw [Cache.readNew] at hn
    dsimp only at hn
    split at hn
    · cases hn
      exact hadd
    · split at hn
      · split at hn
        · cases hn
        · rename_i hr
          cases hn
          have hanswered := hadd.returnData hr
          exact hanswered
      · cases hn
        exact hadd
  | merge hq hh hf =>
    obtain ⟨-, -, ha⟩ := Mshr.checkMshr_some hf
    exact .merge hf rfl (Cache.mergedRead_stamp ha) (Cache.demandMerged_readOne hs hq rfl hh hf)

theorem SlotSteps.prefetchStep (hs : Cache.PrefetchStep cfg env c c' evs) :
    SlotSteps cfg env a c c' := by
  cases hs with
  | idle => exact .frame rfl
  | hit _ _ => exact .frame rfl
  | new _ _ _ _ _ _ =>
    simp only [Cache.prefetchNew]
    split
    · exact .addMshr rfl
    · exact .frame rfl
  | drop _ _ => exact .frame rfl
  | merge _ _ hf => exact .update hf rfl rfl fun _ => .inl ⟨rfl, rfl⟩

/-- What any step does to the stamps. -/
theorem SlotSteps.act (hs : c.act cfg env a = some (c', evs)) : SlotSteps cfg env a c c' := by
  cases a with
  | addRq p =>
    obtain ⟨r, evs', hx, -⟩ := Cache.replied_some hs
    cases Cache.addRq_cases hx <;> exact .frame rfl
  | addWq p =>
    obtain ⟨r, evs', hx, -⟩ := Cache.replied_some hs
    cases (Cache.addWq_cases hx).1 <;> exact .frame rfl
  | addPq p =>
    obtain ⟨r, evs', hx, -⟩ := Cache.replied_some hs
    exact .frame (congrArg Mshr.entry (Cache.addPq_cases hx).mshr_eq)
  | prefetchLine cpu ip pfAddr fill metadata =>
    simp only [Cache.act, Cache.prefetchLine] at hs
    split at hs
    · split at hs
      · cases hs
      · rename_i hx
        cases hs
        exact .frame (congrArg Mshr.entry (Cache.addPq_cases hx).mshr_eq)
    · cases hs
      exact .frame rfl
  | returnData p =>
    obtain ⟨c₁, hx, he⟩ := Option.map_eq_some_iff.1 hs
    cases he
    exact SlotSteps.returnData (.frame rfl) hx
  | invalidateEntry a =>
    cases hs
    refine .frame ?_
    rw [Cache.invalidateEntry]
    split
    · rfl
    · rfl
  | updateRob cpu =>
    cases hs
    refine .frame ?_
    rw [Cache.updateRob]
    split
    · rfl
    · split
      · rfl
      · rfl
  | handleFill => exact .fillStep (Cache.handleFill_cases hs)
  | handleWriteback => exact .handleWriteback hs
  | startReads =>
    cases hs
    exact .frame rfl
  | readOne => exact .readOne hs
  | prefetchOne => exact .prefetchStep (Cache.prefetchOne_cases hs)

/-! ## The amounts -/

/-- A stamp is the cycle of a miss of the entry, and it lies between its allocation and now. -/
structure MissTimes.Stamps (t : MissTimes) (stamp now : Cycle) : Prop where
  mem : stamp ∈ t.cycles
  after : t.allocated ≤ stamp
  before : stamp ≤ now

/-- The stamps of all entries are such, now being the counter of the core. -/
def TimedCache.Stamped (s : TimedCache) : Prop :=
  ∀ i e, s.cache.mshr.entry[i]? = some e → e.address ≠ 0 →
    (s.times i).Stamps e.cycleEnqueued (s.clock e.cpu)

/-- The counters of the MSHR table are right, and so are the stamps. -/
structure TimedCache.Ok (cfg : Config) (s : TimedCache) : Prop where
  mshr : MshrOk cfg s.cache
  stamped : s.Stamped

/-- The contract of the lower level, the condition on the demands, and what `main` does to the
counters. -/
def StampsMisses (cfg : Config) (s : TimedCache) (l : Env × Action) : Prop :=
  ReturnsInflight s.cache l ∧ StampedHere cfg s.cache l ∧ ClocksForward cfg s l

instance (cfg : Config) (s : TimedCache) (l : Env × Action) : Decidable (StampsMisses cfg s l) :=
  inferInstanceAs (Decidable (_ ∧ _ ∧ _))

theorem Mshr.taken_eq {m : Mshr} {i : ℕ} {e : Packet} (h : m.entry[i]? = some e) :
    m.taken i = (e.address != 0) := by
  rw [Mshr.taken, h]

theorem Mshr.taken_of_live {m : Mshr} {i : ℕ} {e : Packet} (h : m.entry[i]? = some e)
    (hlive : e.address ≠ 0) : m.taken i = true := by
  rw [Mshr.taken_eq h]
  simpa using hlive

/-- An entry that was there keeps the cycles of its misses. -/
theorem mem_missTimes (cfg : Config) (l : Env × Action) (times : ℕ → MissTimes) {i : ℕ}
    {e e' : Packet} (he' : c'.mshr.entry[i]? = some e') (he : c.mshr.entry[i]? = some e)
    (hlive : e.address ≠ 0) :
    (Cache.missTimes cfg l c c' times i).allocated = (times i).allocated ∧
      ∀ t ∈ (times i).cycles, t ∈ (Cache.missTimes cfg l c c' times i).cycles := by
  rw [Cache.missTimes, he', Mshr.taken_of_live he hlive]
  simp only [Bool.not_true, Bool.false_and, Bool.false_eq_true, if_false]
  split
  · exact ⟨rfl, fun _ ht => ht⟩
  · split
    · refine ⟨rfl, fun t ht => ?_⟩
      rcases List.mem_cons.1 ht with rfl | ht
      · exact List.mem_cons_self ..
      · exact List.mem_cons_of_mem _ (List.mem_cons_of_mem _ ht)
    · exact ⟨rfl, fun _ ht => ht⟩

/-- A step with the counters going forward keeps the stamps between allocation and counter. -/
theorem TimedCache.Stamped.act {s s' : TimedCache} {l : Env × Action} (h : s.Stamped)
    (hs : (timedLts cfg).step s l = some (s', evs)) (hok : StampedHere cfg s.cache l)
    (hclock : ClocksForward cfg s l) : s'.Stamped := by
  obtain ⟨⟨c', evs'⟩, hact, he⟩ := Option.map_eq_some_iff.1 hs
  cases he
  intro i e' he' hlive
  dsimp only at he' ⊢
  have htaken' := Mshr.taken_of_live he' hlive
  -- the counter of the core of an entry that was there
  have hforward {e : Packet} (he : s.cache.mshr.entry[i]? = some e) :
      s.clock e.cpu ≤ l.1.cycle e.cpu := hclock.1 e (List.mem_of_getElem? he)
  cases SlotSteps.act hact i e' he' hlive with
  | @keeps e he hlive' hstamp hcpu =>
    obtain ⟨halloc, hkeep⟩ := mem_missTimes cfg l s.times he' he hlive'
    have hold := h i e he hlive'
    rw [hstamp, hcpu]
    exact ⟨hkeep _ hold.mem, halloc ▸ hold.after, hold.before.trans (hforward he)⟩
  | allocates he hfree hstamp =>
    have htaken : s.cache.mshr.taken i = false := by
      rw [Mshr.taken_eq he]
      simpa using hfree
    have hnew : Cache.missTimes cfg l s.cache c' s.times i = ⟨l.1.cycle e'.cpu, []⟩ := by
      rw [Cache.missTimes, he', htaken, htaken']
      rfl
    rw [hnew, hstamp]
    exact ⟨List.mem_cons_self .., le_rfl, le_rfl⟩
  | @replaces e p he hlive' hmerging ht hstamp hcpu =>
    obtain ⟨halloc, hkeep⟩ := mem_missTimes cfg l s.times he' he hlive'
    have hold := h i e he hlive'
    -- the demand and the prefetch are counted by the same clock
    have hnow : e.cycleEnqueued ≤ l.1.cycle p.cpu := by
      rw [← hclock.2 _ hmerging]
      exact hold.before.trans (hforward he)
    rw [hstamp, hcpu]
    rcases hok _ hmerging ht with hmissed | hprefetch
    · have hadded : Cache.missTimes cfg l s.cache c' s.times i =
          { s.times i with replaced := l.1.cycle p.cpu :: (s.times i).replaced } := by
        rw [Cache.missTimes, he', Mshr.taken_of_live he hlive', hmerging]
        simp only [Bool.not_true, Bool.false_and, Bool.false_eq_true, if_false, ht, and_self,
          if_true]
      rw [hadded, hmissed]
      exact ⟨List.mem_cons_of_mem _ (List.mem_cons_self ..), hold.after.trans hnow, le_rfl⟩
    · rw [hprefetch]
      exact ⟨hkeep _ hold.mem, halloc ▸ hold.after, hnow⟩

/-- Watching constrains nothing: a run of the cache is a run of the watched one, so that what is proved
of watched runs holds of all runs. -/
theorem exists_timed {tr : Lts.Trace (Env × Action) Event} {ok : Cache → Env × Action → Prop}
    (h : (cacheLts cfg).Run ok c tr) :
    ∃ s, s.cache = c ∧ (timedLts cfg).Run (fun s l => ok s.cache l) s tr := by
  refine h.induct (P := fun c tr => ∃ s : TimedCache, s.cache = c ∧
    (timedLts cfg).Run (fun s l => ok s.cache l) s tr) ?_ ?_
  · intro c hc
    exact ⟨⟨c, fun _ => ⟨0, []⟩, fun _ => 0⟩, rfl, .init hc⟩
  · rintro c tr l c' os - ⟨s, rfl, hrun⟩ hl hs
    refine ⟨⟨c', Cache.missTimes cfg l s.cache c' s.times, l.1.cycle⟩, rfl, hrun.step hl ?_⟩
    have hstep : s.cache.act cfg l.1 l.2 = some (c', os) := hs
    simp only [timedLts, hstep, Option.map_some]

theorem TimedCache.Ok.reachable {s : TimedCache}
    (h : (timedLts cfg).Reachable (StampsMisses cfg) s) : s.Ok cfg := by
  refine h.invariant ?_ fun s l s' os hI hok hs => ?_
  · intro s hs
    have hinit : s.cache = Cache.init cfg := hs
    have hmshr : MshrOk cfg s.cache := by
      rw [hinit]
      exact .reachable (.init rfl)
    refine ⟨hmshr, fun i e he hlive => ?_⟩
    rw [hinit] at he
    have hmem := List.mem_of_getElem? he
    rw [List.eq_of_mem_replicate hmem] at hlive
    exact absurd rfl hlive
  · obtain ⟨r, hact, he⟩ := Option.map_eq_some_iff.1 hs
    cases he
    exact ⟨hI.mshr.act hok.1 hact, hI.stamped.act hs hok.2.1 hok.2.2⟩

/-- What a fill adds to the latency is counted from the stamp of its entry. -/
theorem fill_latency (hs : c.handleFill cfg env = some (c', evs)) (hmoved : c' ≠ c) :
    ∃ p, Cache.Due cfg env c p ∧ c'.stats.totalMissLatency =
      if env.warmupComplete p.cpu then
        c.stats.totalMissLatency + (env.cycle p.cpu - p.cycleEnqueued)
      else c.stats.totalMissLatency := by
  have hmetadata : ∀ p, (Cache.withMetadata cfg env p).cpu = p.cpu ∧
      (Cache.withMetadata cfg env p).cycleEnqueued = p.cycleEnqueued := by
    intro p
    rw [Cache.withMetadata]
    split
    · exact ⟨rfl, rfl⟩
    · exact ⟨rfl, rfl⟩
    · exact ⟨rfl, rfl⟩
  have hlatency : ∀ (p : Packet) (s : Stats), (Cache.addMissLatency env p s).totalMissLatency =
      if env.warmupComplete p.cpu then
        s.totalMissLatency + (env.cycle p.cpu - p.cycleEnqueued)
      else s.totalMissLatency := by
    intro p s
    rw [Cache.addMissLatency]
    exact apply_ite Stats.totalMissLatency ..
  cases Cache.handleFill_cases hs with
  | idle => exact absurd rfl hmoved
  | @bypass p hd _ => exact ⟨p, hd, hlatency p c.stats⟩
  | @fill p way evs hd _ =>
    obtain ⟨hcpu, hstamp⟩ := hmetadata p
    refine ⟨p, hd, ?_⟩
    rw [← hcpu, ← hstamp]
    exact hlatency (Cache.withMetadata cfg env p) _

end

/-- In every run in which the demands that replace a prefetch are stamped in this cache, each amount
that `handle_fill` adds to `total_miss_latency` is counted from a cycle at which a request of the
filled entry missed here, and it is at most the time since the entry was allocated. -/
theorem miss_latency_from_miss (cfg : Config) {s : TimedCache}
    (h : (timedLts cfg).Reachable (StampsMisses cfg) s) (env : Env) {c' : Cache} {evs : List Event}
    (hs : s.cache.handleFill cfg env = some (c', evs)) (hmoved : c' ≠ s.cache)
    (hclock : ClocksForward cfg s (env, .handleFill)) :
    ∃ p, s.cache.mshr.nextFill = some p ∧ (env.warmupComplete p.cpu = true →
      ∃ t ∈ (s.times s.cache.mshr.nextFillIndex).cycles,
        c'.stats.totalMissLatency = s.cache.stats.totalMissLatency + (env.cycle p.cpu - t) ∧
        (s.times s.cache.mshr.nextFillIndex).allocated ≤ t ∧ t ≤ env.cycle p.cpu ∧
        env.cycle p.cpu - t ≤
          env.cycle p.cpu - (s.times s.cache.mshr.nextFillIndex).allocated) := by
  obtain ⟨p, hd, hlatency⟩ := fill_latency hs hmoved
  have hok := TimedCache.Ok.reachable h
  obtain ⟨hi, hp, hc⟩ := hd.completed hok.mshr.ok
  have hget := List.getElem?_eq_some_iff.2 ⟨hi, hp⟩
  have hlive : p.address ≠ 0 := hok.mshr.ok.address_ne_zero_of_returned
    (List.mem_of_getElem? hget) (by rw [hc]; exact Returned.noConfusion)
  obtain ⟨hmem, hafter, hbefore⟩ := hok.stamped _ _ hget hlive
  have hnow : p.cycleEnqueued ≤ env.cycle p.cpu :=
    hbefore.trans (hclock.1 p (List.mem_of_getElem? hget))
  refine ⟨p, hd.next, fun hwarm => ⟨p.cycleEnqueued, hmem, ?_, hafter, hnow, ?_⟩⟩
  · rw [hlatency, if_pos hwarm]
  · rw [UInt64.le_iff_toNat_le] at hafter hnow ⊢
    rw [UInt64.toNat_sub_of_le _ _ (UInt64.le_iff_toNat_le.2 hnow),
      UInt64.toNat_sub_of_le _ _ (UInt64.le_iff_toNat_le.2 (hafter.trans hnow))]
    omega

/-- The L1D prefetches line 7 at cycle 20, a load with the stamp of `cycle` is merged at cycle 40, and
the line comes. -/
def lateDemand (cycle : Cycle) : List (Env × Action) :=
  [Action.prefetchLine 0 0 448 fillL1 0].map (Env.calmAt 10, ·) ++
  [Action.startReads, .prefetchOne,
    .addRq { loadPacket 1 7 0 with cycleEnqueued := cycle }].map (Env.calmAt 20, ·) ++
  [Action.startReads, .readOne, .returnData (loadPacket 1 7 0)].map (Env.calmAt 40, ·)

/-- The watched L1D at the start. -/
def TimedCache.start : TimedCache := ⟨Cache.init (l1dConfig 1), fun _ => ⟨0, []⟩, fun _ => 0⟩

/-- A load that was stamped when it missed here, 20 cycles after the prefetch it replaces. -/
theorem miss_latency_from_miss_stamped : ∃ (s : TimedCache) (p : Packet),
    (timedLts (l1dConfig 1)).Reachable (StampsMisses (l1dConfig 1)) s ∧
    s.cache.mshr.nextFill = some p ∧ p.type = .load ∧
    (s.times s.cache.mshr.nextFillIndex).cycles = [20, 40] ∧ ∃ c' evs,
      s.cache.handleFill (l1dConfig 1) (Env.calmAt 60) = some (c', evs) ∧
      ∃ t ∈ (s.times s.cache.mshr.nextFillIndex).cycles,
        c'.stats.totalMissLatency = s.cache.stats.totalMissLatency + (60 - t) ∧
        (60 : Cycle) - t ≤ 60 - 20 := by
  obtain ⟨s, hr, hp⟩ := Lts.reachable_of_exec (timedLts (l1dConfig 1)) (StampsMisses (l1dConfig 1))
    (fun s => (s.times s.cache.mshr.nextFillIndex).cycles == [20, 40] &&
      s.cache.mshr.nextFill.any (fun p => p.type == .load && p.cpu == 0) &&
      decide (ClocksForward (l1dConfig 1) s (Env.calmAt 60, .handleFill)) &&
      (s.cache.handleFill (l1dConfig 1) (Env.calmAt 60)).any fun r =>
        r.1.mshr.occupancy != s.cache.mshr.occupancy)
    (s := .start) (lateDemand 40) rfl (by decide +kernel)
  simp only [Bool.and_eq_true, Option.any_eq_true, beq_iff_eq, bne_iff_ne, decide_eq_true_eq] at hp
  obtain ⟨⟨⟨hcycles, p, hnext, htype, hcpu⟩, hclock⟩, ⟨c', evs⟩, hfill, hocc⟩ := hp
  have hmoved : c' ≠ s.cache := fun he => hocc (by rw [he])
  obtain ⟨q, hq, hamount⟩ :=
    miss_latency_from_miss (l1dConfig 1) hr (Env.calmAt 60) hfill hmoved hclock
  obtain rfl : p = q := Option.some.inj (hnext.symm.trans hq)
  obtain ⟨t, ht, htotal, -, -, hage⟩ := hamount rfl
  have halloc : (s.times s.cache.mshr.nextFillIndex).allocated = 20 := (List.cons.inj hcycles).1
  rw [halloc] at hage
  exact ⟨s, p, hr, hnext, htype, hcycles, c', evs, hfill, t, ht, htotal, hage⟩

/-- A load from the core has no stamp, so its fill adds the whole cycle counter, more than the age of
the entry. -/
theorem miss_latency_from_nothing : ∃ s : TimedCache,
    (timedLts (l1dConfig 1)).Reachable
      (fun s l => ReturnsInflight s.cache l ∧ ClocksForward (l1dConfig 1) s l) s ∧ ∃ c' evs,
      s.cache.handleFill (l1dConfig 1) (Env.calmAt 60) = some (c', evs) ∧ c' ≠ s.cache ∧
      ∀ t ∈ (s.times s.cache.mshr.nextFillIndex).cycles,
        s.cache.stats.totalMissLatency + (60 - t) < c'.stats.totalMissLatency := by
  obtain ⟨s, hr, hp⟩ := Lts.reachable_of_exec (timedLts (l1dConfig 1))
    (fun s l => ReturnsInflight s.cache l ∧ ClocksForward (l1dConfig 1) s l)
    (fun s => (s.cache.handleFill (l1dConfig 1) (Env.calmAt 60)).any fun r : Cache × List Event =>
      r.1.mshr.occupancy != s.cache.mshr.occupancy &&
        (s.times s.cache.mshr.nextFillIndex).cycles.all fun t =>
          decide (s.cache.stats.totalMissLatency + (60 - t) < r.1.stats.totalMissLatency))
    (s := .start) (lateDemand 0) rfl (by decide +kernel)
  simp only [Bool.and_eq_true, Option.any_eq_true, bne_iff_ne, List.all_eq_true,
    decide_eq_true_eq] at hp
  obtain ⟨⟨c', evs⟩, hfill, hocc, hamount⟩ := hp
  exact ⟨s, hr, c', evs, hfill, fun he => hocc (by rw [he]), hamount⟩

end Arishem
