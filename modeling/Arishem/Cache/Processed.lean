import Mathlib.Algebra.Order.BigOperators.Group.Finset
import Arishem.Cache.Consumers

/-!
# `PROCESSED` has room for every access that is waited for

`PROCESSED` is as long as the ROB, and an access that finishes while it is full is forgotten. Every
access that a cache finishes for the core has a consumer of its own that is outstanding until
`update_rob` takes the access out of `PROCESSED`, and the indices of the consumers bound their
number. The exception are the stores that the L1D fills: they have retired, so nothing of the core
bounds how many of them are in `PROCESSED`.
-/

namespace Arishem

/-- The consumers that may ask this cache: `ROB_SIZE` fetches, `LQ_SIZE` loads, `SQ_SIZE` stores. -/
def coreConsumers (cfg : Config) : Finset Consumer :=
  match cfg.cacheType with
  | .itlb | .l1i => (Finset.range robSize).map ⟨.rob, fun _ _ => Consumer.rob.inj⟩
  | .dtlb =>
    (Finset.range lqSize).map ⟨.lq, fun _ _ => Consumer.lq.inj⟩ ∪
      (Finset.range sqSize).map ⟨.sq, fun _ _ => Consumer.sq.inj⟩
  | .l1d => (Finset.range lqSize).map ⟨.lq, fun _ _ => Consumer.lq.inj⟩
  | _ => ∅

/-- How often a consumer is in `PROCESSED`. -/
def recorded (cfg : Config) (c : Cache) (x : Consumer) : ℕ :=
  (c.processed.map fun p => completions cfg p x).sum

/-- How often a consumer is outstanding: it waits in the cache, or the core has not yet taken its
access out of `PROCESSED`. -/
def held (cfg : Config) (c : Cache) (x : Consumer) : ℕ := pending cfg c x + recorded cfg c x

/-- The outstanding consumers. -/
def outstanding (cfg : Config) (c : Cache) : Finset Consumer :=
  (coreConsumers cfg).filter fun x => held cfg c x ≠ 0

/-- The contract of the core, with its resources: a request carries an index of the core that is not
outstanding. -/
def AsksLive (cfg : Config) (c : Cache) (l : Env × Action) : Prop :=
  AsksOnce cfg c l ∧
    match l.2 with
    | .addRq p => p.own cfg ∈ coreConsumers cfg ∧ held cfg c (p.own cfg) = 0
    | _ => True

instance (cfg : Config) (c : Cache) (l : Env × Action) : Decidable (AsksLive cfg c l) := by
  unfold AsksLive
  refine @instDecidableAnd _ _ inferInstance ?_
  exact match l.2 with
  | .addRq _ => instDecidableAnd
  | .addWq _ | .addPq _ | .prefetchLine .. | .returnData _ | .invalidateEntry _ | .updateRob _
  | .handleFill | .handleWriteback | .startReads | .readOne | .prefetchOne => instDecidableTrue

/-- The access of a retired store at the L1D. -/
def isStore (cfg : Config) (p : Packet) : Bool := cfg.cacheType == .l1d && p.type == .rfo

/-- The requests a step adds. -/
def asks : Action → ℕ
  | .addRq _ => 1
  | _ => 0

/-- The stores in `PROCESSED` of the L1D leave no room for the outstanding loads. -/
def StoresCrowd (cfg : Config) (c : Cache) (l : Env × Action) : Prop :=
  cfg.cacheType = .l1d ∧
    cfg.robSize < c.processed.countP (isStore cfg) + (outstanding cfg c).card + asks l.2

instance (cfg : Config) (c : Cache) (l : Env × Action) : Decidable (StoresCrowd cfg c l) := by
  unfold StoresCrowd
  infer_instance

/-- The steps that keep to the contract while the stores leave room. -/
def Roomy (cfg : Config) (c : Cache) (l : Env × Action) : Prop :=
  AsksLive cfg c l ∧ ¬ StoresCrowd cfg c l

instance (cfg : Config) (c : Cache) (l : Env × Action) : Decidable (Roomy cfg c l) := by
  unfold Roomy
  infer_instance

/-- The packet an event appends to `PROCESSED`. -/
def Event.appended : Event → Option Packet
  | .processed p => some p
  | _ => none

/-! ## What a step does to `PROCESSED` -/

section
variable {cfg : Config} {env : Env} {c c' : Cache} {evs : List Event} {p : Packet} {x : Consumer}

@[simp] theorem answer_appended : (Cache.answer cfg p).filterMap Event.appended = [] := by
  rw [Cache.answer]
  split <;> rfl

@[simp] theorem finish_eq (q : List Packet) :
    q ++ (Cache.finishEvents cfg p q).filterMap Event.appended = Cache.finish cfg p q := by
  rw [Cache.finishEvents, Cache.finish]
  split_ifs <;> simp_all [Event.appended]

/-- The eviction of a victim appends nothing. -/
theorem Cache.Victim.events_appended {way : ℕ} (h : Cache.Victim cfg env c p way evs) :
    evs.filterMap Event.appended = [] ∧ ∀ q, .dropped q ∉ evs := by
  obtain ⟨v, _, hev⟩ := h.evicted
  cases v with
  | clean => cases hev; simp
  | writeback w => cases hev; simp [Event.appended]
  | blocked => cases hev

/-- An access is forgotten only when `PROCESSED` is full. -/
theorem dropped_finishEvents {q : List Packet} {e : Packet}
    (h : .dropped e ∈ Cache.finishEvents cfg p q) :
    cfg.delivers e = true ∧ cfg.robSize ≤ q.length := by
  rw [Cache.finishEvents] at h
  split_ifs at h with hd hl
  · simp at h
  · obtain rfl : e = p := by simpa using h
    exact ⟨hd, not_lt.1 hl⟩
  · cases h

@[simp] theorem dropped_notMem_answer {e : Packet} : Event.dropped e ∉ Cache.answer cfg p := by
  rw [Cache.answer]
  split <;> simp

/-- The step appends the packets it reports to `PROCESSED`, and reports a packet as forgotten only
when `PROCESSED` is full. -/
structure Appends (cfg : Config) (c c' : Cache) (evs : List Event) : Prop where
  processed : c'.processed = c.processed ++ evs.filterMap Event.appended
  full : ∀ e, .dropped e ∈ evs → cfg.delivers e = true ∧ cfg.robSize ≤ c.processed.length

/-- A step that finishes no access. -/
theorem Appends.quiet (hp : c'.processed = c.processed)
    (ha : evs.filterMap Event.appended = []) (hd : ∀ e, .dropped e ∉ evs) :
    Appends cfg c c' evs :=
  ⟨by rw [hp, ha, List.append_nil], fun e he => absurd he (hd e)⟩

/-- A step that finishes one access, between calls to other caches. -/
theorem Appends.finish {q : Packet} (evs₁ evs₂ : List Event)
    (hev : evs = evs₁ ++ Cache.finishEvents cfg q c.processed ++ evs₂)
    (hp : c'.processed = Cache.finish cfg q c.processed)
    (ha : (evs₁ ++ evs₂).filterMap Event.appended = []) (hd : ∀ e, .dropped e ∉ evs₁ ++ evs₂) :
    Appends cfg c c' evs := by
  rw [List.filterMap_append, List.append_eq_nil_iff] at ha
  subst hev
  constructor
  · rw [hp, List.filterMap_append, List.filterMap_append, ha.1, ha.2, List.nil_append,
      List.append_nil, finish_eq]
  · intro e he
    rcases List.mem_append.1 he with he | he
    · rcases List.mem_append.1 he with he | he
      · exact absurd (List.mem_append_left _ he) (hd e)
      · exact dropped_finishEvents he
    · exact absurd (List.mem_append_right _ he) (hd e)

/-- `handle_fill` finishes at most the access of the entry it fills. -/
theorem Appends.fillStep (hs : Cache.FillStep cfg env c c' evs) : Appends cfg c c' evs := by
  cases hs with
  | idle => exact .quiet rfl rfl (by simp)
  | bypass _ _ => exact .quiet rfl (by simp) (by simp)
  | @fill p way evs' hd hv =>
    obtain ⟨ha, hn⟩ := hv.events_appended
    refine .finish (evs' ++ Cache.answer cfg (Cache.withMetadata cfg env p)) [] ?_ rfl
      (by simp [ha]) (by simp [hn])
    rw [List.append_nil, List.append_assoc]
    rfl

/-- `handle_writeback` finishes no access. -/
theorem Appends.writebackStep (hs : Cache.WritebackStep cfg env c c' evs) :
    Appends cfg c c' evs := by
  cases hs with
  | idle => exact .quiet rfl rfl (by simp)
  | hit _ _ => exact .quiet rfl (by simp [Cache.writebackHit]) (by simp [Cache.writebackHit])
  | rfoNew _ _ _ _ _ => exact .quiet rfl rfl (by simp)
  | rfoMerge _ _ _ _ _ => exact .quiet rfl rfl (by simp)
  | fill _ _ _ _ hv =>
    obtain ⟨ha, hn⟩ := hv.events_appended
    exact .quiet rfl (by simp [ha]) (by simp [hn])

/-- A round of `handle_read` finishes at most the access that hits. -/
theorem Appends.readStep (hs : Cache.ReadStep cfg env c c' evs) : Appends cfg c c' evs := by
  cases hs with
  | idle => exact .quiet rfl rfl (by simp)
  | hit _ _ => exact .finish [] (Cache.answer cfg _) rfl rfl (by simp) (by simp)
  | new _ _ _ _ hn =>
    simp only [Cache.readNew] at hn
    split at hn
    · cases hn
      exact .quiet rfl rfl (by simp)
    · split at hn
      · split at hn
        · cases hn
        · rename_i hr
          cases hn
          refine .quiet ?_ rfl (by simp)
          rw [Cache.returnData] at hr
          split at hr
          · cases hr
          · cases hr
            rfl
      · cases hn
        exact .quiet rfl rfl (by simp)
  | merge _ _ _ => exact .quiet rfl rfl (by simp)

/-- A round of `handle_prefetch` finishes no access for the core. -/
theorem Appends.prefetchStep (hs : Cache.PrefetchStep cfg env c c' evs) :
    Appends cfg c c' evs := by
  cases hs with
  | idle => exact .quiet rfl rfl (by simp)
  | hit _ _ => exact .quiet rfl (by simp [Cache.prefetchHit]) (by simp [Cache.prefetchHit])
  | new _ _ _ _ _ _ =>
    have hcall : ∀ q, (Event.appended (Cache.lowerAddPrefetch cfg q) = none) ∧
        ∀ e, .dropped e ≠ Cache.lowerAddPrefetch cfg q := by
      intro q
      rw [Cache.lowerAddPrefetch]
      split <;> simp [Event.appended]
    simp only [Cache.prefetchNew]
    split <;> exact .quiet rfl (by simp [hcall]) (by simp [hcall])
  | drop _ _ => exact .quiet rfl rfl (by simp)
  | merge _ _ _ => exact .quiet rfl rfl (by simp)

/-- `add_pq` finishes no access for the core. -/
theorem Appends.pqStep {r : Reply} (hs : Cache.PqStep cfg env c p r c' evs) :
    Appends cfg c c' evs := by
  cases hs with
  | forward _ => exact .quiet rfl (by simp) (by simp)
  | merge _ _ | full _ _ _ | append _ _ _ _ => exact .quiet rfl rfl (by simp)

/-- A request's reply is appended nowhere. -/
theorem Appends.replied (h : Appends cfg c c' evs) (r : Reply) :
    Appends cfg c c' (evs ++ [Event.result r]) := by
  constructor
  · rw [List.filterMap_append, h.processed]
    simp [Event.appended]
  · intro e he
    exact h.full e (by simpa using he)

/-- Only `update_rob` takes accesses out of `PROCESSED`. -/
theorem Appends.act {a : Action} (ha : ∀ cpu, a ≠ .updateRob cpu)
    (hs : c.act cfg env a = some (c', evs)) : Appends cfg c c' evs := by
  cases a with
  | addRq p =>
    obtain ⟨r, evs', hx, rfl⟩ := Cache.replied_some hs
    refine Appends.replied ?_ r
    cases Cache.addRq_cases hx with
    | @forward i w _ _ =>
      exact .finish (Cache.answer cfg (Cache.forwarded cfg w p)) [] (List.append_nil _).symm rfl
        (by simp) (by simp)
    | merge _ _ | full _ _ _ | append _ _ _ _ => exact .quiet rfl rfl (by simp)
  | addWq p =>
    obtain ⟨r, evs', hx, rfl⟩ := Cache.replied_some hs
    obtain ⟨hw, rfl⟩ := Cache.addWq_cases hx
    refine Appends.replied ?_ r
    cases hw <;> exact .quiet rfl rfl (by simp)
  | addPq p =>
    obtain ⟨r, evs', hx, rfl⟩ := Cache.replied_some hs
    exact (Appends.pqStep (Cache.addPq_cases hx)).replied r
  | prefetchLine cpu ip pfAddr fill metadata =>
    simp only [Cache.act, Cache.prefetchLine] at hs
    split at hs
    · split at hs
      · cases hs
      · rename_i hx
        cases hs
        obtain ⟨hp, hf⟩ := Appends.pqStep (Cache.addPq_cases hx)
        exact ⟨hp, hf⟩
    · cases hs
      exact .quiet rfl rfl (by simp)
  | returnData p =>
    obtain ⟨c₁, hx, he⟩ := Option.map_eq_some_iff.1 hs
    cases he
    refine .quiet ?_ rfl (by simp)
    rw [Cache.returnData] at hx
    split at hx
    · cases hx
    · cases hx
      rfl
  | invalidateEntry a =>
    cases hs
    refine .quiet ?_ rfl (by simp)
    rw [Cache.invalidateEntry]
    split <;> rfl
  | updateRob cpu => exact absurd rfl (ha cpu)
  | handleFill => exact .fillStep (Cache.handleFill_cases hs)
  | handleWriteback => exact .writebackStep (Cache.handleWriteback_cases hs)
  | startReads =>
    cases hs
    exact .quiet rfl rfl (by simp)
  | readOne => exact .readStep (Cache.readOne_cases hs)
  | prefetchOne => exact .prefetchStep (Cache.prefetchOne_cases hs)

/-! ## Outstanding consumers -/

/-- What is appended to `PROCESSED` is recorded there. -/
theorem Appends.recorded_eq (h : Appends cfg c c' evs) (x : Consumer) :
    recorded cfg c' x = recorded cfg c x + (evs.map (Event.delivers cfg x)).sum := by
  have hsum : ∀ l : List Event, ((l.filterMap Event.appended).map fun p => completions cfg p x).sum =
      (l.map (Event.delivers cfg x)).sum := by
    intro l
    induction l with
    | nil => rfl
    | cons e l ih =>
      rw [List.filterMap_cons]
      cases e <;> simp [Event.appended, Event.delivers, ih]
  rw [recorded, h.processed, List.map_append, List.sum_append, hsum, recorded]

/-- `update_rob` takes consumers out of `PROCESSED`, if any. -/
theorem recorded_updateRob (cpu : ℕ) (x : Consumer) :
    recorded cfg (c.updateRob env cpu) x ≤ recorded cfg c x := by
  rw [Cache.updateRob]
  split
  · exact le_rfl
  · rename_i p rest hq
    split
    · simp [recorded, hq]
    · exact le_rfl

/-- `update_rob` leaves what waits alone. -/
theorem pending_updateRob (cpu : ℕ) (x : Consumer) :
    pending cfg (c.updateRob env cpu) x = pending cfg c x := by
  rw [Cache.updateRob]
  split
  · rfl
  · split <;> rfl

/-- Each consumer is outstanding once, and is one of the core's. -/
structure Live (cfg : Config) (c : Cache) : Prop where
  shape : Shape cfg c
  once : ∀ x, held cfg c x ≤ 1
  core : ∀ x, held cfg c x ≠ 0 → x ∈ coreConsumers cfg

theorem Live.pending_le (h : Live cfg c) (x : Consumer) : pending cfg c x ≤ 1 :=
  le_trans (Nat.le_add_right _ _) (h.once x)

/-- A step accepts a consumer only if it is an index of the core that is not outstanding. -/
theorem accepts_live {l : Env × Action} (os : List Event) (hok : AsksLive cfg c l)
    (hx : accepts cfg x (l, os) ≠ 0) :
    asks l.2 = 1 ∧ x ∈ coreConsumers cfg ∧ held cfg c x = 0 ∧ accepts cfg x (l, os) ≤ 1 := by
  obtain ⟨env, a⟩ := l
  obtain ⟨honce, hlive⟩ := hok
  cases a with
  | addRq p =>
    obtain ⟨hd, hf, _⟩ := honce
    simp only [accepts] at hx ⊢
    split at hx
    · exact absurd rfl hx
    · rename_i hfull
      rw [if_neg hfull]
      rw [completions_fresh hd hf] at hx ⊢
      split at hx
      · rename_i he
        rw [if_pos he, he]
        exact ⟨rfl, hlive.1, hlive.2, le_rfl⟩
      · exact absurd rfl hx
  | _ => exact absurd rfl hx

/-- Every step keeps each consumer outstanding at most once. -/
theorem Live.act (h : Live cfg c) {a : Action} (hok : AsksLive cfg c (env, a))
    (hs : c.act cfg env a = some (c', evs)) : Live cfg c' := by
  obtain ⟨hsh, hbal⟩ := h.shape.act h.pending_le hok.1 hs
  have hle : ∀ x, held cfg c' x ≤ held cfg c x + accepts cfg x ((env, a), evs) := by
    intro x
    have hx := hbal x
    by_cases hu : ∃ cpu, a = .updateRob cpu
    · obtain ⟨cpu, rfl⟩ := hu
      cases hs
      have hr : recorded cfg (c.updateRob env cpu) x ≤ recorded cfg c x := recorded_updateRob cpu x
      have hp : pending cfg (c.updateRob env cpu) x = pending cfg c x := pending_updateRob cpu x
      rw [held, held]
      omega
    · have hr := (Appends.act (fun cpu he => hu ⟨cpu, he⟩) hs).recorded_eq x
      rw [held, held]
      omega
  refine ⟨hsh, fun x => ?_, fun x hx => ?_⟩
  · have hx := hle x
    have h1 := h.once x
    by_cases ha : accepts cfg x ((env, a), evs) = 0
    · omega
    · obtain ⟨_, _, h0, h1⟩ := accepts_live evs hok ha
      omega
  · by_cases h0 : held cfg c x = 0
    · have hx' := hle x
      exact (accepts_live evs hok (by omega)).2.1
    · exact h.core x h0

/-- Each consumer is outstanding at most once in every reachable state. -/
theorem Live.reachable (h : (cacheLts cfg).Reachable (AsksLive cfg) c) : Live cfg c := by
  refine h.invariant (I := Live cfg) ?_ ?_
  · rintro s rfl
    have hrun : (cacheLts cfg).Run (AsksOnce cfg) (Cache.init cfg) [] := Lts.Run.init rfl
    obtain ⟨hsh, hcons⟩ := consumers_conserved hrun
    have h0 : ∀ x, held cfg (Cache.init cfg) x = 0 := by
      intro x
      have hp := hsh.pending_of_empty (x := x) rfl rfl
      rw [held, hp]
      rfl
    exact ⟨hsh, fun x => by simp [h0], fun x hx => absurd (h0 x) hx⟩
  · rintro s ⟨env, a⟩ s' os hI hok hs
    exact hI.act hok hs

/-! ## The length of `PROCESSED` -/

/-- A cache that finishes accesses for the core completes each of them for the consumer it is of, the
stores of the L1D apart. -/
theorem completions_own {q : Packet} (hd : cfg.delivers q = true) (hs : isStore cfg p = false) :
    1 ≤ completions cfg p (p.own cfg) := by
  unfold Config.delivers at hd
  unfold completions Packet.own
  simp only [isStore] at hs
  cases ht : cfg.cacheType <;> simp only [ht] at hd hs ⊢ <;> try cases hd
  case itlb | l1i => simp
  case dtlb =>
    by_cases hr : p.type = .rfo
    · simp [hr]
    · simp [hr]
  case l1d =>
    have hr : p.type ≠ .rfo := by simpa using hs
    simp [hr]

/-- The accesses in a queue, the stores apart, are at most the completions of a set of consumers
that has the consumers they are of. -/
theorem length_le_sum {r : Packet} (hd : cfg.delivers r = true) (S : Finset Consumer) :
    ∀ q : List Packet, (∀ p ∈ q, isStore cfg p = false → p.own cfg ∈ S) →
      q.length ≤ q.countP (isStore cfg) + ∑ x ∈ S, (q.map fun p => completions cfg p x).sum
  | [], _ => by simp
  | p :: q, hS => by
    have ih := length_le_sum hd S q fun p' hp' => hS p' (List.mem_cons_of_mem p hp')
    simp only [List.map_cons, List.sum_cons, Finset.sum_add_distrib, List.length_cons]
    cases hp : isStore cfg p with
    | true =>
      rw [List.countP_cons_of_pos hp]
      omega
    | false =>
      have hown := hS p List.mem_cons_self hp
      have h1 := completions_own hd hp
      have hle : completions cfg p (p.own cfg) ≤ ∑ x ∈ S, completions cfg p x :=
        Finset.single_le_sum (f := fun x => completions cfg p x) (fun _ _ => Nat.zero_le _) hown
      rw [List.countP_cons_of_neg (by simp [hp])]
      omega

/-- `PROCESSED` holds stores and accesses of outstanding consumers, except those that still wait. -/
theorem Live.length_le (h : Live cfg c) {r : Packet} (hd : cfg.delivers r = true)
    (W : Finset Consumer) (hW : ∀ x ∈ W, recorded cfg c x = 0) :
    c.processed.length ≤ c.processed.countP (isStore cfg) + (outstanding cfg c \ W).card := by
  have hown : ∀ p ∈ c.processed, isStore cfg p = false → p.own cfg ∈ outstanding cfg c \ W := by
    intro p hp hs
    have h1 := completions_own hd hs
    have hle : completions cfg p (p.own cfg) ≤ recorded cfg c (p.own cfg) :=
      List.single_le_sum (fun _ _ => Nat.zero_le _) _ (List.mem_map_of_mem hp)
    have hheld : held cfg c (p.own cfg) ≠ 0 := by
      rw [held]
      omega
    refine Finset.mem_sdiff.2 ⟨Finset.mem_filter.2 ⟨h.core _ hheld, hheld⟩, fun hw => ?_⟩
    have h0 := hW _ hw
    omega
  refine (length_le_sum hd _ _ hown).trans (Nat.add_le_add_left ?_ _)
  calc ∑ x ∈ outstanding cfg c \ W, (c.processed.map fun p => completions cfg p x).sum
      ≤ ∑ x ∈ outstanding cfg c \ W, 1 := by
        refine Finset.sum_le_sum fun x _ => ?_
        exact (Nat.le_add_left _ _).trans (h.once x)
    _ = (outstanding cfg c \ W).card := by simp

/-- The core's consumers fit into `PROCESSED`. -/
theorem card_coreConsumers_le (cfg : Config) : (coreConsumers cfg).card ≤ robSize := by
  unfold coreConsumers
  split
  · simp
  · simp
  · refine (Finset.card_union_le _ _).trans ?_
    simp only [Finset.card_map, Finset.card_range]
    decide
  · simp only [Finset.card_map, Finset.card_range]
    decide
  · simp

/-- The outstanding consumers and the one that asks are indices of the core. -/
theorem card_outstanding_add_asks_le {a : Action} (hok : AsksLive cfg c (env, a)) :
    (outstanding cfg c).card + asks a ≤ robSize := by
  refine le_trans ?_ (card_coreConsumers_le cfg)
  cases a with
  | addRq p =>
    obtain ⟨_, hcore, hfree⟩ := hok
    have hnew : p.own cfg ∉ outstanding cfg c := fun hm => (Finset.mem_filter.1 hm).2 hfree
    rw [asks, ← Finset.card_insert_of_notMem hnew]
    exact Finset.card_le_card (Finset.insert_subset hcore (Finset.filter_subset _ _))
  | _ => exact Finset.card_le_card (Finset.filter_subset _ _)

/-- The stores in `PROCESSED` leave room for the outstanding consumers and for the one that asks. -/
theorem Roomy.fits (hsize : cfg.robSize = robSize) {a : Action} (h : Roomy cfg c (env, a)) :
    c.processed.countP (isStore cfg) + (outstanding cfg c).card + asks a ≤ cfg.robSize := by
  obtain ⟨hok, hroom⟩ := h
  by_cases hct : cfg.cacheType = .l1d
  · by_contra hlt
    exact hroom ⟨hct, not_le.1 hlt⟩
  · have hzero : c.processed.countP (isStore cfg) = 0 :=
      List.countP_eq_zero.2 fun p _ => by simp [isStore, hct]
    have hle := card_outstanding_add_asks_le hok
    omega

/-- No step loses a consumer while the stores in `PROCESSED` leave room. -/
theorem Live.loses_eq_zero (hlive : Live cfg c) (hsize : cfg.robSize = robSize) {a : Action}
    (hl : Roomy cfg c (env, a)) (hs : c.act cfg env a = some (c', evs)) (x : Consumer) :
    (evs.map (Event.loses cfg x)).sum = 0 := by
  refine List.sum_eq_zero fun m hm => ?_
  obtain ⟨e, he, rfl⟩ := List.mem_map.1 hm
  cases e with
  | dropped p =>
    by_contra hx
    -- the consumer that loses its access was outstanding or asks in this step
    obtain ⟨_, hbal⟩ := hlive.shape.act hlive.pending_le hl.1.1 hs
    have hlost : Event.loses cfg x (.dropped p) ≤ (evs.map (Event.loses cfg x)).sum :=
      List.single_le_sum (fun _ _ => Nat.zero_le _) _ hm
    have hbalx := hbal x
    have hu : ∀ cpu, a ≠ .updateRob cpu := by
      rintro cpu rfl
      cases hs
      cases he
    obtain ⟨hd, hfull⟩ := (Appends.act hu hs).full p he
    have hfits := Roomy.fits hsize hl
    by_cases hw : pending cfg c x = 0
    · -- `add_rq` brings the consumer
      obtain ⟨hask, _⟩ := accepts_live (x := x) evs hl.1 (by omega)
      have hle := hlive.length_le hd ∅ (by simp)
      rw [Finset.sdiff_empty] at hle
      simp only at hask
      omega
    · -- it waits, so it is not in `PROCESSED`
      have hone := hlive.once x
      rw [held] at hone
      have hout : x ∈ outstanding cfg c := by
        have hheld : held cfg c x ≠ 0 := by
          rw [held]
          omega
        exact Finset.mem_filter.2 ⟨hlive.core x hheld, hheld⟩
      have hle := hlive.length_le hd {x} (by simpa using (by omega : recorded cfg c x = 0))
      have hcard := Finset.card_sdiff_add_card_eq_card (Finset.singleton_subset_iff.2 hout)
      rw [Finset.card_singleton] at hcard
      omega
  | _ => rfl

end

/-- No completion is dropped by a full `PROCESSED` queue, as long as the stores in it leave room: an
access that finds it full is one that no instruction waits for, and every consumer that no longer
waits was recorded. -/
theorem completion_recorded (cfg : Config) (hsize : cfg.robSize = robSize) (c : Cache)
    (h : (cacheLts cfg).Reachable (Roomy cfg) c) (l : Env × Action) (hl : Roomy cfg c l)
    (c' : Cache) (os : List Event) (hs : (cacheLts cfg).step c l = some (c', os)) :
    (∀ p, .dropped p ∈ os → ∀ x, completions cfg p x = 0) ∧
      ∀ x, pending cfg c' x + (os.map (Event.delivers cfg x)).sum =
        pending cfg c x + accepts cfg x (l, os) := by
  obtain ⟨env, a⟩ := l
  have hlive : Live cfg c := Live.reachable (h.mono fun _ _ hl => hl.1)
  obtain ⟨_, hbal⟩ := hlive.shape.act hlive.pending_le hl.1.1 hs
  have hlost : ∀ x, (os.map (Event.loses cfg x)).sum = 0 := fun x => hlive.loses_eq_zero hsize hl hs x
  refine ⟨fun p hp x => ?_, fun x => ?_⟩
  · have hle : Event.loses cfg x (.dropped p) ≤ (os.map (Event.loses cfg x)).sum :=
      List.single_le_sum (fun _ _ => Nat.zero_le _) _ (List.mem_map_of_mem hp)
    rw [hlost x] at hle
    exact Nat.le_zero.1 hle
  · have hx := hbal x
    rw [hlost x, Nat.add_zero] at hx
    exact hx

/-- A fetch of page 7 waits in the ITLB, and the translation has arrived. -/
def answeredFetch : List (Env × Action) :=
  let p := { Packet.empty 1 with
    instruction := true, fillLevel := fillL1, cpu := 0, address := 7, robIndex := 3, data := 9,
    eventCycle := 0 }
  [Action.addRq p].map (Env.calmAt 15, ·) ++
    [Action.startReads, .readOne, .returnData p].map (Env.calmAt 20, ·)

/-- The fill of the translation records the fetch. -/
theorem completion_recorded_fetch :
    ∃ os : List Event, (os.map (Event.delivers (itlbConfig 1) (.rob 3))).sum = 1 := by
  obtain ⟨c, hr, hp⟩ := Lts.reachable_of_exec (cacheLts (itlbConfig 1)) (Roomy (itlbConfig 1))
    (fun c => pending (itlbConfig 1) c (.rob 3) = 1 ∧
      Roomy (itlbConfig 1) c (Env.calmAt 25, .handleFill) ∧
      ((cacheLts (itlbConfig 1)).step c (Env.calmAt 25, .handleFill)).any
        fun s => pending (itlbConfig 1) s.1 (.rob 3) == 0)
    answeredFetch rfl (by decide +kernel)
  obtain ⟨h1, hl, hany⟩ := of_decide_eq_true hp
  obtain ⟨⟨c', os⟩, hs, h0⟩ := (Option.any_eq_true _ _).1 hany
  have hlaw := (completion_recorded (itlbConfig 1) rfl c hr _ hl c' os hs).2 (.rob 3)
  have h0' : pending (itlbConfig 1) c' (.rob 3) = 0 := by simpa using h0
  rw [h1, h0'] at hlaw
  exact ⟨os, by simpa [accepts] using hlaw⟩

end Arishem
