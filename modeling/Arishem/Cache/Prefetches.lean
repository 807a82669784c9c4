import Arishem.Cache.Lines
import Mathlib.Algebra.BigOperators.Group.Finset.Piecewise
import Mathlib.Algebra.Order.Group.Int
import Mathlib.Data.Finset.Prod

/-!
# The prefetch statistics balance

A fill by a prefetch sets the prefetch bit of its block, a read hit clears it, and the next fill of
the block replaces it. Each block that stops to be a prefetched one is counted then, as useful where
the read hits it and as useless where it is replaced. The bits move in no other way: a writeback hit,
the replacement policy and `invalidate_entry` leave them as they are. So the counters and the number
of blocks with the bit stay in balance along every run.
-/

namespace Arishem

/-- The bits of a block that the prefetch statistics are about. -/
def Block.marks (b : Block) : Bool × Bool := (b.prefetch, b.used)

/-- A bit as a number. -/
def Block.prefetchCount (b : Block) : ℕ := if b.prefetch then 1 else 0

/-- The number of blocks whose prefetch bit is set. -/
def Cache.prefetched (cfg : Config) (c : Cache) : ℕ :=
  ((Finset.range cfg.numSet ×ˢ Finset.range cfg.numWay).filter fun b =>
    (c.block b.1 b.2).prefetch = true).card

/-- The counters of prefetched blocks go on by some numbers. -/
structure Counts (useful useless filled : ℕ) (c c' : Cache) : Prop where
  pfUseful : c'.stats.pfUseful = c.stats.pfUseful + useful
  pfUseless : c'.stats.pfUseless = c.stats.pfUseless + useless
  pfFilled : c'.stats.pfFilled = c.stats.pfFilled + filled

/-- A step changes the bits of one block at most. The block is counted, once, when it stops to be a
prefetched one, and a fill is counted when it becomes one. -/
inductive Accounted (cfg : Config) (c c' : Cache) : Prop
  | quiet : (∀ s w, (c'.block s w).marks = (c.block s w).marks) → Counts 0 0 0 c c' →
      Accounted cfg c c'
  | block {set way useful useless filled : ℕ} : set < cfg.numSet → way < cfg.numWay →
      (∀ s w, ¬ (s = set ∧ w = way) → (c'.block s w).marks = (c.block s w).marks) →
      ((c'.block set way).prefetch = true → (c'.block set way).used = false) →
      Counts useful useless filled c c' →
      (c.block set way).prefetchCount + filled =
        useful + useless + (c'.block set way).prefetchCount →
      useful + useless ≤ (c.block set way).prefetchCount → Accounted cfg c c'

/-- A prefetched block was not used. -/
def PrefetchUnused (c : Cache) : Prop :=
  ∀ s w, (c.block s w).prefetch = true → (c.block s w).used = false

namespace Cache

section
variable {cfg : Config} {env : Env} {set way s w : ℕ} {type : AccessType} {hit : Bool}
variable {p : Packet} {bs : ℕ → ℕ → Block} {c c' : Cache} {evs : List Event}

@[simp] theorem updateReplacementState_marks :
    (updateReplacementState cfg set way type hit bs s w).marks = (bs s w).marks := by
  obtain ⟨n, h⟩ := updateReplacementState_eq cfg set way s w type hit bs
  rw [h]
  rfl

@[simp] theorem markDirty_marks : (markDirty set way bs s w).marks = (bs s w).marks := by
  simp only [markDirty, setBlock]
  split_ifs with h
  · rw [h.1, h.2]
    rfl
  · rfl

@[simp] theorem markRfo_marks : (markRfo cfg set way p bs s w).marks = (bs s w).marks := by
  rw [markRfo]
  split_ifs <;> simp

theorem markUsed_marks : (markUsed set way bs s w).marks =
    if s = set ∧ w = way then (false, true) else (bs s w).marks := by
  simp only [markUsed, setBlock]
  split_ifs <;> rfl

theorem install_marks : ((c.install cfg set way p).block s w).marks =
    if s = set ∧ w = way then (p.type == .prefetch, false) else (c.block s w).marks := by
  simp only [install, fillCache, setBlock]
  split_ifs with h
  · rfl
  · exact updateReplacementState_marks

end

end Cache

section
variable {cfg : Config} {env : Env} {c c' : Cache} {evs : List Event}

/-- A step that keeps the blocks and the counters. -/
theorem Accounted.frame (hb : c'.block = c.block) (hs : c'.stats = c.stats) :
    Accounted cfg c c' :=
  .quiet (fun s w => by rw [hb]) ⟨by rw [hs]; rfl, by rw [hs]; rfl, by rw [hs]; rfl⟩

/-- A fill of a block that was dealt with, whatever follows for the other bits. -/
theorem Accounted.install {set way : ℕ} {p : Packet} (hset : set < cfg.numSet)
    (hway : way < cfg.numWay) (hunused : PrefetchUnused c)
    (hm : ∀ s w, (c'.block s w).marks = ((c.install cfg set way p).block s w).marks)
    (hc : Counts 0 0 0 (c.install cfg set way p) c') : Accounted cfg c c' := by
  have hmarks : ∀ s w, (c'.block s w).marks =
      if s = set ∧ w = way then (p.type == .prefetch, false) else (c.block s w).marks := by
    intro s w
    rw [hm, Cache.install_marks]
  have hfilled := hmarks set way
  rw [if_pos ⟨rfl, rfl⟩] at hfilled
  have hprefetch : (c'.block set way).prefetch = (p.type == .prefetch) := congrArg Prod.fst hfilled
  have hused : (c'.block set way).used = false := congrArg Prod.snd hfilled
  have hnew : (c'.block set way).prefetchCount = if p.type = .prefetch then 1 else 0 := by
    simp [Block.prefetchCount, hprefetch]
  have hold : (if (Cache.updateReplacementState cfg set way p.type false c.block set way).prefetch ∧
      (Cache.updateReplacementState cfg set way p.type false c.block set way).used = false
      then 1 else 0) = (c.block set way).prefetchCount := by
    obtain ⟨n, h⟩ := Cache.updateReplacementState_eq cfg set way set way p.type false c.block
    have hused' := hunused set way
    simp only [h, Block.prefetchCount]
    cases hp : (c.block set way).prefetch with
    | true => simp [hused' hp]
    | false => simp
  have hcounts : Counts 0 (c.block set way).prefetchCount (c'.block set way).prefetchCount c c' :=
    ⟨hc.pfUseful, by rw [hc.pfUseless, ← hold]; rfl, by rw [hc.pfFilled, hnew]; rfl⟩
  refine .block hset hway (fun s w hne => ?_) (fun _ => hused) hcounts ?_
    (Nat.le_of_eq (Nat.zero_add _))
  · rw [hmarks, if_neg hne]
  · rw [Nat.zero_add]

/-- `handle_fill` accounts for its victim and its prefetch. -/
theorem Accounted.fillStep (hset : 0 < cfg.numSet) (hunused : PrefetchUnused c)
    (hs : Cache.FillStep cfg env c c' evs) : Accounted cfg c c' := by
  have hlatency : ∀ (p : Packet) (s : Stats), (Cache.addMissLatency env p s).pfUseful = s.pfUseful ∧
      (Cache.addMissLatency env p s).pfUseless = s.pfUseless ∧
      (Cache.addMissLatency env p s).pfFilled = s.pfFilled := by
    intro p s
    rw [Cache.addMissLatency]
    split
    · exact ⟨rfl, rfl, rfl⟩
    · exact ⟨rfl, rfl, rfl⟩
  cases hs with
  | idle => exact .frame rfl rfl
  | @bypass p _ _ =>
    obtain ⟨h₁, h₂, h₃⟩ := hlatency p c.stats
    exact .quiet (fun _ _ => rfl) ⟨h₁, h₂, h₃⟩
  | @fill p way evs _ hv =>
    obtain ⟨h₁, h₂, h₃⟩ := hlatency (Cache.withMetadata cfg env p)
      (c.install cfg (cfg.getSet p.address) way (Cache.withMetadata cfg env p)).stats
    refine .install (cfg.getSet_lt hset _) hv.lt hunused (p := Cache.withMetadata cfg env p)
      (fun s w => ?_) ⟨h₁, h₂, h₃⟩
    exact Cache.markRfo_marks

/-- `handle_writeback` accounts for its victim, and a hit leaves the bits alone. -/
theorem Accounted.writebackStep (hset : 0 < cfg.numSet) (hunused : PrefetchUnused c)
    (hs : Cache.WritebackStep cfg env c c' evs) : Accounted cfg c c' := by
  cases hs with
  | idle => exact .frame rfl rfl
  | hit _ _ =>
    refine .quiet (fun s w => ?_) ⟨rfl, rfl, rfl⟩
    exact Cache.markDirty_marks.trans Cache.updateReplacementState_marks
  | rfoNew _ _ _ _ _ => exact .frame rfl rfl
  | rfoMerge _ _ _ _ _ => exact .frame rfl rfl
  | @fill p rest way buffer evs _ _ _ _ hv =>
    refine .install (cfg.getSet_lt hset _) hv.lt hunused (p := Cache.withMetadata cfg env p)
      (fun s w => ?_) ⟨rfl, rfl, rfl⟩
    exact Cache.markDirty_marks

/-- Without the knobs a hit is a hit in a way of the set. -/
theorem Cache.checkHit_lt (hperf : cfg.perfect = false) (hsemi : cfg.semiPerfect = false)
    {p : Packet} {way : ℕ} {buffer : List UInt64} (h : c.checkHit cfg p = (some way, buffer)) :
    way < cfg.numWay := by
  simp only [checkHit, hperf, hsemi, Bool.and_false, Bool.false_and, Bool.false_eq_true,
    if_false] at h
  exact (findWay_some (congrArg Prod.fst h)).1

/-- A round of `handle_read` accounts for the block it hits. -/
theorem Accounted.readStep (hset : 0 < cfg.numSet) (hperf : cfg.perfect = false)
    (hsemi : cfg.semiPerfect = false) (hs : Cache.ReadStep cfg env c c' evs) :
    Accounted cfg c c' := by
  cases hs with
  | idle => exact .frame rfl rfl
  | @hit p rest way buffer _ hh =>
    have hmarks : ∀ s w, ((({ c with pageBuffer := buffer } : Cache).readHit cfg way p rest).1.block
        s w).marks = if s = cfg.getSet p.address ∧ w = way then (false, true)
          else (c.block s w).marks := by
      intro s w
      refine Cache.markUsed_marks.trans ?_
      split
      · rfl
      · exact Cache.updateReplacementState_marks
    have hhit := hmarks (cfg.getSet p.address) way
    rw [if_pos ⟨rfl, rfl⟩] at hhit
    have hprefetch := congrArg Prod.fst hhit
    have hcounts : Counts (c.block (cfg.getSet p.address) way).prefetchCount 0 0 c
        (({ c with pageBuffer := buffer } : Cache).readHit cfg way p rest).1 := ⟨rfl, rfl, rfl⟩
    refine .block (cfg.getSet_lt hset _) (Cache.checkHit_lt hperf hsemi hh) (fun s w hne => ?_)
      (fun h => ?_) hcounts ?_ (Nat.le_refl _)
    · rw [hmarks, if_neg hne]
    · exact absurd (hprefetch.symm.trans h) Bool.false_ne_true
    · have hzero : ((({ c with pageBuffer := buffer } : Cache).readHit cfg way p rest).1.block
          (cfg.getSet p.address) way).prefetchCount = 0 :=
        if_neg fun h => Bool.false_ne_true (hprefetch.symm.trans h)
      rw [hzero]
  | @new p rest buffer c' evs _ _ _ _ hn =>
    rw [Cache.readNew] at hn
    dsimp only at hn
    split at hn
    · cases hn
      exact .frame rfl rfl
    · split at hn
      · rw [Cache.returnData] at hn
        split at hn
        · cases hn
        · rename_i hr
          split at hr
          · cases hr
          · cases hr
            cases hn
            exact .frame rfl rfl
      · cases hn
        exact .frame rfl rfl
  | merge _ _ _ => exact .quiet (fun _ _ => rfl) ⟨rfl, rfl, rfl⟩

/-- A round of `handle_prefetch` leaves the bits alone. -/
theorem Accounted.prefetchStep (hs : Cache.PrefetchStep cfg env c c' evs) : Accounted cfg c c' := by
  cases hs with
  | idle => exact .frame rfl rfl
  | hit _ _ => exact .quiet (fun _ _ => Cache.updateReplacementState_marks) ⟨rfl, rfl, rfl⟩
  | new _ _ _ _ _ _ =>
    simp only [Cache.prefetchNew]
    split
    · exact .frame rfl rfl
    · exact .frame rfl rfl
  | drop _ _ => exact .frame rfl rfl
  | merge _ _ _ => exact .frame rfl rfl

/-- `add_pq` does not count. -/
theorem Cache.PqStep.stats_eq {p : Packet} {r : Reply} (hs : Cache.PqStep cfg env c p r c' evs) :
    c'.block = c.block ∧ c'.stats = c.stats := by
  cases hs <;> exact ⟨rfl, rfl⟩

/-- Every step accounts for the prefetched blocks. -/
theorem Accounted.act (hset : 0 < cfg.numSet) (hperf : cfg.perfect = false)
    (hsemi : cfg.semiPerfect = false) (hunused : PrefetchUnused c) {a : Action}
    (hs : c.act cfg env a = some (c', evs)) : Accounted cfg c c' := by
  cases a with
  | addRq p =>
    obtain ⟨r, evs', hx, -⟩ := Cache.replied_some hs
    cases Cache.addRq_cases hx <;> exact .frame rfl rfl
  | addWq p =>
    obtain ⟨r, evs', hx, -⟩ := Cache.replied_some hs
    cases (Cache.addWq_cases hx).1 <;> exact .frame rfl rfl
  | addPq p =>
    obtain ⟨r, evs', hx, -⟩ := Cache.replied_some hs
    obtain ⟨hb, hstats⟩ := (Cache.addPq_cases hx).stats_eq
    exact .frame hb hstats
  | prefetchLine cpu ip pfAddr fill metadata =>
    simp only [Cache.act, Cache.prefetchLine] at hs
    split at hs
    · split at hs
      · cases hs
      · rename_i hx
        cases hs
        obtain ⟨hb, hstats⟩ := (Cache.addPq_cases hx).stats_eq
        have huseful := congrArg Stats.pfUseful hstats
        have huseless := congrArg Stats.pfUseless hstats
        have hfilled := congrArg Stats.pfFilled hstats
        exact .quiet (fun s w => congrArg (fun b => (b s w).marks) hb) ⟨huseful, huseless, hfilled⟩
    · cases hs
      exact .quiet (fun _ _ => rfl) ⟨rfl, rfl, rfl⟩
  | returnData p =>
    obtain ⟨c₁, hx, he⟩ := Option.map_eq_some_iff.1 hs
    cases he
    rw [Cache.returnData] at hx
    split at hx
    · cases hx
    · cases hx
      exact .frame rfl rfl
  | invalidateEntry a =>
    cases hs
    rw [Cache.invalidateEntry]
    split
    · exact .frame rfl rfl
    · refine .quiet (fun s w => ?_) ⟨rfl, rfl, rfl⟩
      simp only [Cache.setBlock]
      split_ifs with h
      · rw [h.1, h.2]
        rfl
      · rfl
  | updateRob cpu =>
    cases hs
    rw [Cache.updateRob]
    split
    · exact .frame rfl rfl
    · split
      · exact .frame rfl rfl
      · exact .frame rfl rfl
  | handleFill => exact .fillStep hset hunused (Cache.handleFill_cases hs)
  | handleWriteback => exact .writebackStep hset hunused (Cache.handleWriteback_cases hs)
  | startReads =>
    cases hs
    exact .frame rfl rfl
  | readOne => exact .readStep hset hperf hsemi (Cache.readOne_cases hs)
  | prefetchOne => exact .prefetchStep (Cache.prefetchOne_cases hs)

/-- A prefetched block stays unused. -/
theorem Accounted.unused (h : Accounted cfg c c') (hunused : PrefetchUnused c) :
    PrefetchUnused c' := by
  have hkeep : ∀ s w, (c'.block s w).marks = (c.block s w).marks →
      (c'.block s w).prefetch = true → (c'.block s w).used = false := by
    intro s w hm hp
    rw [show (c'.block s w).used = (c.block s w).used from congrArg Prod.snd hm]
    exact hunused s w ((congrArg Prod.fst hm).symm.trans hp)
  cases h with
  | quiet hm _ => exact fun s w => hkeep s w (hm s w)
  | @block set way _ _ _ _ _ hm hnew _ _ _ =>
    intro s w
    by_cases he : s = set ∧ w = way
    · obtain ⟨rfl, rfl⟩ := he
      exact hnew
    · exact hkeep s w (hm s w he)

/-- Where two predicates agree but for one element, the numbers of what they hold of differ by that
element. -/
theorem card_filter_of_only {α : Type*} [DecidableEq α] {s : Finset α} {P Q : α → Prop}
    [DecidablePred P] [DecidablePred Q] {x : α} (hx : x ∈ s) (h : ∀ y, y ≠ x → (P y ↔ Q y)) :
    (s.filter P).card + (if Q x then 1 else 0) = (s.filter Q).card + (if P x then 1 else 0) := by
  have hrest : ((s.erase x).filter P).card = ((s.erase x).filter Q).card := by
    congr 1
    refine Finset.filter_congr fun y hy => ?_
    exact h y (Finset.ne_of_mem_erase hy)
  rw [Finset.card_filter, Finset.card_filter] at hrest ⊢
  rw [← Finset.add_sum_erase s _ hx, ← Finset.add_sum_erase s (fun i => if Q i then 1 else 0) hx,
    hrest]
  omega

/-- The balance of one step. -/
theorem Accounted.balance (h : Accounted cfg c c') :
    c'.stats.pfFilled + (c.stats.pfUseful + c.stats.pfUseless + c.prefetched cfg) =
      c.stats.pfFilled + (c'.stats.pfUseful + c'.stats.pfUseless + c'.prefetched cfg) := by
  cases h with
  | quiet hm hc =>
    have hsame : c'.prefetched cfg = c.prefetched cfg := by
      rw [Cache.prefetched, Cache.prefetched]
      congr 1
      refine Finset.filter_congr fun b _ => ?_
      rw [show (c'.block b.1 b.2).prefetch = (c.block b.1 b.2).prefetch from
        congrArg Prod.fst (hm b.1 b.2)]
    rw [hc.pfUseful, hc.pfUseless, hc.pfFilled, hsame]
    omega
  | @block set way useful useless filled hset hway hm _ hc hblock _ =>
    have hmem : (set, way) ∈ Finset.range cfg.numSet ×ˢ Finset.range cfg.numWay :=
      Finset.mem_product.2 ⟨Finset.mem_range.2 hset, Finset.mem_range.2 hway⟩
    have hcard := card_filter_of_only (P := fun b : ℕ × ℕ => (c'.block b.1 b.2).prefetch = true)
      (Q := fun b : ℕ × ℕ => (c.block b.1 b.2).prefetch = true) hmem fun b hb => by
        have hne : ¬ (b.1 = set ∧ b.2 = way) := fun h => hb (Prod.ext h.1 h.2)
        rw [show (c'.block b.1 b.2).prefetch = (c.block b.1 b.2).prefetch from
          congrArg Prod.fst (hm b.1 b.2 hne)]
    have hcount : c'.prefetched cfg + (c.block set way).prefetchCount =
        c.prefetched cfg + (c'.block set way).prefetchCount := hcard
    rw [hc.pfUseful, hc.pfUseless, hc.pfFilled]
    omega

theorem PrefetchUnused.reachable (hset : 0 < cfg.numSet) (hperf : cfg.perfect = false)
    (hsemi : cfg.semiPerfect = false) (h : (cacheLts cfg).Reachable (fun _ _ => True) c) :
    PrefetchUnused c := by
  refine h.invariant ?_ fun s l s' os hunused _ hs => ?_
  · rintro s rfl
    exact fun _ _ _ => rfl
  · exact (Accounted.act hset hperf hsemi hunused hs).unused hunused

end

/-- The prefetch statistics balance along every run of a cache without the knobs, and each step
counts a prefetched block at most once, when it stops to be one. -/
theorem prefetches_balance (cfg : Config) (hset : 0 < cfg.numSet) (hperf : cfg.perfect = false)
    (hsemi : cfg.semiPerfect = false) {c c' : Cache} {tr : Lts.Trace (Env × Action) Event}
    (h : (cacheLts cfg).Reachable (fun _ _ => True) c)
    (hp : (cacheLts cfg).Path (fun _ _ => True) c tr c') :
    (c'.stats.pfFilled : ℤ) - c.stats.pfFilled =
      ((c'.stats.pfUseful : ℤ) - c.stats.pfUseful) +
        ((c'.stats.pfUseless : ℤ) - c.stats.pfUseless) +
        ((c'.prefetched cfg : ℤ) - c.prefetched cfg) ∧
    ∀ before after l evs, tr = before ++ (l, evs) :: after → ∃ m m',
      (cacheLts cfg).Path (fun _ _ => True) c before m ∧
      (cacheLts cfg).step m l = some (m', evs) ∧ Accounted cfg m m' := by
  have hstep : ∀ m, (cacheLts cfg).Reachable (fun _ _ => True) m → ∀ l m' evs,
      (cacheLts cfg).step m l = some (m', evs) → Accounted cfg m m' := fun m hm l m' evs hs =>
    .act hset hperf hsemi (.reachable hset hperf hsemi hm) hs
  constructor
  · have hsum : c'.stats.pfFilled + (c.stats.pfUseful + c.stats.pfUseless + c.prefetched cfg) =
        c.stats.pfFilled + (c'.stats.pfUseful + c'.stats.pfUseless + c'.prefetched cfg) := by
      induction hp with
      | nil => rfl
      | step hp _ hs ih =>
        have hbalance := (hstep _ (h.path hp) _ _ _ hs).balance
        omega
    omega
  · rintro before after l evs rfl
    obtain ⟨m, hm, hrest⟩ := hp.split
    obtain ⟨m', -, hs, -⟩ := hrest.uncons
    exact ⟨m, m', hm, hs, hstep m (h.path hm) l m' evs hs⟩

/-- The L2C prefetches line 7, and a load of core 0 hits it. -/
def prefetchedHit : List (Env × Action) :=
  [Action.addPq (prefetchOf 1 7 fillL2)].map (Env.calmAt 10, ·) ++
  [Action.startReads, .prefetchOne, .returnData (prefetchOf 1 7 fillL2)].map (Env.calmAt 20, ·) ++
  [Action.handleFill, .addRq { prefetchOf 1 7 fillL2 with type := .load }].map (Env.calmAt 30, ·) ++
  [Action.startReads, .readOne].map (Env.calmAt 60, ·)

theorem prefetches_balance_hit : ∃ c : Cache, c.stats.pfUseful = 1 ∧
    (c.stats.pfFilled : ℤ) - 0 = ((c.stats.pfUseful : ℤ) - 0) + ((c.stats.pfUseless : ℤ) - 0) +
      ((c.prefetched (l2cConfig 1) : ℤ) - 0) := by
  obtain ⟨c, tr, ⟨s₀, rfl, hpath⟩, hp⟩ := Lts.run_of_exec (cacheLts (l2cConfig 1))
    (fun _ _ => True) (fun c _ => c.stats.pfUseful == 1) prefetchedHit rfl (by decide +kernel)
  have hnone : (Cache.init (l2cConfig 1)).prefetched (l2cConfig 1) = 0 := by
    rw [Cache.prefetched, Finset.card_eq_zero]
    exact Finset.filter_false_of_mem fun _ _ => Bool.false_ne_true
  have hbalance := (prefetches_balance (l2cConfig 1) (by decide) rfl rfl (.init rfl) hpath).1
  rw [hnone] at hbalance
  exact ⟨c, by simpa using hp, hbalance⟩

end Arishem
