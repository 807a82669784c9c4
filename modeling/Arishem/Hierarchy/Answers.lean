import Arishem.Hierarchy.Misses

/-!
# Each miss gets its answer

The converse of `Misses`: a miss in flight of an upper cache has a request at the lower cache that
will be answered to it. A request for a line that is already requested at the lower cache is merged,
and the merged entry keeps one origin: where the two come from different sides, the answer of one of
them is lost, and its miss stays in flight for ever.
-/

namespace Arishem

namespace Wiring

section
variable {U : Type} (W : Wiring U)

/-- The step drops the answer of a request: it is merged into a request of another cache, or it is
a read and the queue is full. -/
def LosesAnswer (m : Machine U) (l : Env × Turn U) : Prop :=
  match lowerAction m l.2 with
  | none => False
  | some a =>
    match a, m.lower.merging W.lower l.1 a with
    | _, some (p, e) => W.Loses a p e
    | .addRq _, none => m.lower.refuses W.lower a = true
    | _, none => False

instance [DecidableEq U] (m : Machine U) (l : Env × Turn U) : Decidable (W.LosesAnswer m l) := by
  unfold LosesAnswer
  exact match lowerAction m l.2 with
  | none => instDecidableFalse
  | some a => by
    dsimp only
    exact match a, m.lower.merging W.lower l.1 a with
    | a, some (p, e) => inferInstanceAs (Decidable (W.Loses a p e))
    | .addRq p, none => inferInstanceAs (Decidable (m.lower.refuses W.lower (.addRq p) = true))
    | .addWq _, none | .addPq _, none | .prefetchLine .., none | .returnData _, none
    | .invalidateEntry _, none | .updateRob _, none | .handleFill, none
    | .handleWriteback, none | .startReads, none | .readOne, none | .prefetchOne, none =>
      instDecidableFalse

/-- The lower cache has a request for the line that it will answer to `u`, or a call with such a
request, or with the answer, is on its way. -/
def Awaited (m : Machine U) (u : U) (a : Addr) : Prop :=
  (∃ p, (p ∈ m.lower.rq ∨ p ∈ m.lower.pq ∨ p ∈ m.lower.mshr.entry) ∧
    p.address = a ∧ W.Routed u p) ∨
  ∃ k ∈ m.calls, ∃ p ∈ k.packets, p.address = a ∧ W.Routed u p

/-- The invariant of the caches where no answer is lost: the misses in flight have requests, and a
prefetch on its way finds room. -/
structure Answered [DecidableEq U] (m : Machine U) : Prop extends W.Backed m where
  room : ∀ p, .below (.addPq p) ∈ m.calls → m.lower.pq.length ≠ W.lower.pqSize
  answered : ∀ u a, (m.upper u).mshr.inflight a = true → 1 ≤ W.tokens u a m

end

section
variable {U : Type} {W : Wiring U} {m : Machine U}

/-- What makes up an answer loses one. -/
theorem LosesAnswer.of_misdirects {l : Env × Turn U} (h : W.MisdirectsAnswer m l) :
    W.LosesAnswer m l := by
  rw [MisdirectsAnswer] at h
  rw [LosesAnswer]
  revert h
  cases lowerAction m l.2 with
  | none => exact False.elim
  | some act =>
    intro h
    dsimp only at h ⊢
    revert h
    cases m.lower.merging W.lower l.1 act with
    | none => exact False.elim
    | some pe =>
      intro h
      cases act with
      | addRq | readOne => exact h.elim
      | addWq | addPq | prefetchLine | returnData | invalidateEntry | updateRob | handleFill
      | handleWriteback | startReads | prefetchOne => exact ⟨h.1, h.2.2⟩

end

section
variable {U : Type} [DecidableEq U] {W : Wiring U} {u : U} {a : Addr} {p : Packet}
  {m m' : Machine U} {env : Env} {evs : List Event}

/-- A counted request is awaited. -/
theorem awaited_of_tokens (h : 1 ≤ W.tokens u a m) : W.Awaited m u a := by
  rw [tokens] at h
  by_cases hp : 1 ≤ W.pending u a m.calls
  · obtain ⟨p, hp, hr⟩ := exists_of_claims hp
    obtain ⟨k, hk, hpk⟩ := List.mem_flatMap.1 hp
    exact .inr ⟨k, hk, p, hpk, hr⟩
  · have hheld : 1 ≤ W.claims u a (m.lower.rq ++ m.lower.pq ++ m.lower.mshr.entry) := by
      rw [claims_append, claims_append]
      rw [held] at h
      omega
    obtain ⟨p, hp, hr⟩ := exists_of_claims hheld
    rw [List.mem_append, List.mem_append, or_assoc] at hp
    exact .inl ⟨p, hp, hr⟩

/-- A turn of an upper cache brings each new miss with its request. -/
theorem Answered.upperTurn (h : W.Answered m) (hc : m.calls = []) {act : Action}
    (hm : W.UpperMay u (env.over W.lower m.lower) act) {c : Cache}
    (hs : (m.upper u).act (W.upper u) (env.over W.lower m.lower) act = some (c, evs)) :
    W.Answered { m with upper := Function.update m.upper u c,
                        calls := evs.filterMap Event.below } := by
  have hb := h.toBacked.upperTurn hc hm hs
  obtain ⟨_, hstep⟩ := (h.upper u).act hm hs
  have hheld (v : U) (b : Addr) (hin : (m.upper v).mshr.inflight b = true) :
      1 ≤ W.held v b m.lower := by
    have ha := h.answered v b hin
    rwa [tokens, hc, pending_nil, Nat.add_zero] at ha
  have hroom {b : Addr} (hr : (env.over W.lower m.lower).lowerFull .pq b = false) :
      m.lower.pq.length ≠ W.lower.pqSize := by
    simpa [Env.over] using hr
  -- where the misses stay, their requests are held
  have hsame (hin : ∀ b, c.mshr.inflight b = (m.upper u).mshr.inflight b) (v : U) (b : Addr)
      (hv : (Function.update m.upper u c v).mshr.inflight b = true) : 1 ≤ W.held v b m.lower := by
    by_cases hvu : v = u
    · subst hvu
      rw [Function.update_self, hin] at hv
      exact hheld v b hv
    · rw [Function.update_of_ne hvu] at hv
      exact hheld v b hv
  -- a new miss has its request on its way
  have hnew {p : Packet} (ho : W.origin p = some u) (hf : p.fillLevel < W.lower.fillLevel)
      (hin : ∀ b, c.mshr.inflight b = ((m.upper u).mshr.inflight b || p.address == b)) (v : U)
      (b : Addr) (hv : (Function.update m.upper u c v).mshr.inflight b = true) :
      1 ≤ W.held v b m.lower + W.claim v b p := by
    by_cases hvu : v = u
    · subst hvu
      rw [Function.update_self, hin, Bool.or_eq_true, beq_iff_eq] at hv
      rcases hv with hv | rfl
      · exact (hheld v b hv).trans (Nat.le_add_right _ _)
      · rw [claim_of_routed ho hf]
        exact Nat.le_add_left _ _
    · rw [Function.update_of_ne hvu] at hv
      exact (hheld v b hv).trans (Nat.le_add_right _ _)
  cases hstep with
  | quiet hin hcalls =>
    refine ⟨hb, fun p hp => ?_, fun v b hv => ?_⟩
    · rcases hcalls with hcalls | ⟨q, _, hcalls⟩
      · simp [hcalls] at hp
      · simp [hcalls] at hp
    · exact (hsame hin v b hv).trans (Nat.le_add_right _ _)
  | miss hp _ _ hin hcalls =>
    refine ⟨hb, fun p hp => by simp [hcalls] at hp, fun v b hv => ?_⟩
    rw [tokens, hcalls]
    simpa [LevelCall.packets] using
      hnew hp.1 (lt_of_le_of_lt hp.2.1 (W.fill_lt u)) hin v b hv
  | prefetch hp hf _ _ hr hin hcalls =>
    refine ⟨hb, fun _ _ => hroom hr, fun v b hv => ?_⟩
    rw [tokens, hcalls]
    simpa [LevelCall.packets] using
      hnew hp.1 (lt_of_le_of_lt hf (W.fill_lt u)) hin v b hv
  | pass hp hf _ hr hin hcalls =>
    exact ⟨hb, fun _ _ => hroom hr, fun v b hv =>
      (hsame hin v b hv).trans (Nat.le_add_right _ _)⟩

/-- A step of the lower cache that loses no answer keeps a request for each miss. -/
theorem Answered.lowerTurn (h : W.Answered m) {act : Action} (hm : W.LowerMay m.lower act)
    {c : Cache} (hs : m.lower.act W.lower env act = some (c, evs))
    (hn : ∀ p e, m.lower.merging W.lower env act = some (p, e) → ¬ W.Loses act p e)
    (hfull : m.lower.refuses W.lower act = false)
    (hcalls : ∀ v b, W.claims v b (LevelCall.below act).packets = W.pending v b m.calls)
    (hb : W.Backed { m with lower := c, calls := evs.filterMap Event.above }) :
    W.Answered { m with lower := c, calls := evs.filterMap Event.above } := by
  obtain ⟨_, hstep⟩ := h.lower.act hm hs
  refine ⟨hb, fun p hp => ?_, fun v b hv => ?_⟩
  · obtain ⟨ev, _, hev⟩ := List.mem_filterMap.1 hp
    cases ev <;> cases hev
  · have hb0 : b ≠ 0 := by
      obtain ⟨e, he, hae⟩ := List.any_eq_true.1 hv
      obtain ⟨rfl, hr⟩ : e.address = b ∧ e.returned = .inflight := by simpa using hae
      exact (h.upper v).mshr.ok.address_ne_zero_of_returned he (by simp [hr])
    have ha := h.answered v b hv
    rw [tokens, ← hcalls] at ha
    show 1 ≤ W.held v b c + W.pending v b (evs.filterMap Event.above)
    cases hstep with
    | keep hk => exact ha.trans_eq (hk v b hb0).symm
    | merge n hmerge _ hge hheld hk =>
      obtain ⟨hp, he⟩ := hge (hn _ _ hmerge) v b
      have hkeep := hk v b hb0
      have hnh := hheld v b
      have hone := claim_le_one (W := W) (u := v) (a := b) (p := n)
      omega
    | full hr _ _ =>
      rw [hfull] at hr
      cases hr

/-- Every step that loses no answer keeps a request for each miss. -/
theorem Answered.step (h : W.Answered m) {l : Env × Turn U} (hc : W.Contract m l)
    (hn : ¬ W.LosesAnswer m l) (hs : W.Step m l m' evs) : W.Answered m' := by
  have hb := h.toBacked.step hc (fun hr => hn (.of_misdirects hr)) hs
  cases hs with
  | upper hcalls hx => exact h.upperTurn hcalls hc.upperMay hx
  | @lower env act c evs hcalls hx =>
    obtain ⟨hm, hp⟩ := hc.lowerMay
    refine h.lowerTurn hm hx (fun p e hpe hr => hn ?_) ?_ (fun v b => ?_) hb
    · simpa only [LosesAnswer, lowerAction, hpe] using hr
    · cases act <;> first | rfl | cases hp
    · rw [hp, hcalls]
      rfl
  | @below env act rest c evs hcalls hx =>
    obtain ⟨hk, rfl⟩ := h.toBacked.call hcalls
    rw [List.append_nil] at hb ⊢
    refine h.lowerTurn hk.lowerMay hx (fun p e hpe hr => hn ?_) ?_ (fun v b => ?_) hb
    · simpa only [LosesAnswer, lowerAction, hcalls, hpe] using hr
    · cases act with
      | addRq p =>
        by_contra hr
        rw [Bool.not_eq_false] at hr
        have hnone : m.lower.merging W.lower env (.addRq p) = none := by
          simp only [Cache.refuses, Bool.and_eq_true, Option.isNone_iff_eq_none] at hr
          simp [Cache.merging, hr.1.1, hr.1.2]
        exact hn (by simpa only [LosesAnswer, lowerAction, hcalls, hnone] using hr)
      | addPq p =>
        have hne := h.room p (by rw [hcalls]; exact List.mem_singleton_self _)
        simp [Cache.refuses, hne]
      | addWq | prefetchLine | returnData | invalidateEntry | updateRob | handleFill
      | handleWriteback | startReads | readOne | prefetchOne => rfl
    · simp [hcalls, pending]
  | @above env p rest u c hcalls ho hx =>
    obtain ⟨_, rfl⟩ := h.toBacked.call hcalls
    obtain ⟨_, hafter⟩ := h.toBacked.answered hcalls ho hx
    refine ⟨hb, fun p hp => by simp at hp, fun v b hv => ?_⟩
    have hpend : W.pending v b m.calls = W.claim v b p := by simp [hcalls, LevelCall.packets]
    show 1 ≤ W.held v b m.lower + W.pending v b []
    rw [pending_nil, Nat.add_zero]
    have hv' : (m.upper v).mshr.inflight b = true ∧ W.claim v b p = 0 := by
      change (Function.update m.upper u c v).mshr.inflight b = true at hv
      by_cases hvu : v = u
      · subst hvu
        rw [Function.update_self, hafter, Bool.and_eq_true, bne_iff_ne] at hv
        exact ⟨hv.1, claim_of_ne (Ne.symm hv.2)⟩
      · rw [Function.update_of_ne hvu] at hv
        exact ⟨hv, claim_of_origin ho hvu⟩
    have ha := h.answered v b hv'.1
    rwa [tokens, hpend, hv'.2, Nat.add_zero] at ha

/-- At the start nothing waits. -/
theorem Answered.init : W.Answered W.start := by
  refine ⟨Backed.init, fun p hp => by simp [Wiring.start] at hp, fun v b hv => ?_⟩
  obtain ⟨e, he, hae⟩ := List.any_eq_true.1 hv
  rw [List.eq_of_mem_replicate he] at hae
  simp at hae

/-- Each miss in flight has a request in every run that loses no answer. -/
theorem Answered.reachable
    (h : W.lts.Reachable (fun m l => W.Contract m l ∧ ¬ W.LosesAnswer m l) m) :
    W.Answered m := by
  refine h.invariant (I := W.Answered) ?_ ?_
  · rintro _ rfl
    exact Answered.init
  · intro m l m' evs hI hok hs
    exact hI.step hok.1 hok.2 (step_cases hs)

end

end Wiring

/-- Response routing at a second-level cache: in every run in which no answer is lost in a merge or
at a full read queue, each miss in flight of an upper cache has a request at the lower cache, or on
its way, that is answered to that upper cache. -/
theorem responses_routed (S : SecondLevel) (cpu : ℕ) (m : Machine Side)
    (h : (S.wiring cpu).lts.Reachable
      (fun m l => (S.wiring cpu).Contract m l ∧ ¬ (S.wiring cpu).LosesAnswer m l) m)
    (s : Side) (a : Addr) (hin : (m.upper s).mshr.inflight a = true) :
    (S.wiring cpu).Awaited m s a :=
  Wiring.awaited_of_tokens ((Wiring.Answered.reachable h).answered s a hin)

/-- A fetch packet of core 0 for a line. -/
def fetchPacket (numCpus : ℕ) (a : Addr) (robIndex : ℕ) : Packet :=
  { loadPacket numCpus a 0 with instruction := true, robIndex := robIndex }

/-- A fetch misses the L1I, and its request is in the read queue of the L2C. -/
def fetchMiss : List (Env × Turn Side) :=
  [(Env.calmAt 10, .upper .icache (.addRq (fetchPacket 1 64 3))),
   (Env.calmAt 15, .upper .icache .startReads),
   (Env.calmAt 15, .upper .icache .readOne),
   (Env.calmAt 15, .call)]

/-- The fetch has a request that is answered to the L1I. -/
theorem responses_routed_fetch :
    ∃ m : Machine Side, ((l1Caches 1).wiring 0).Awaited m .icache 64 := by
  obtain ⟨m, hr, hp⟩ := Lts.reachable_of_exec ((l1Caches 1).wiring 0).lts
    (fun m l => ((l1Caches 1).wiring 0).Contract m l ∧ ¬ ((l1Caches 1).wiring 0).LosesAnswer m l)
    (fun m => (m.upper .icache).mshr.inflight 64) fetchMiss rfl (by decide +kernel)
  exact ⟨m, responses_routed (l1Caches 1) 0 m hr .icache 64 hp⟩

/-- While the fetch waits, a load of the same line misses the L1D. Its request is merged into that
of the fetch, and nothing is left that is answered to the L1D. -/
theorem response_lost : ∃ m : Machine Side,
    ((l1Caches 1).wiring 0).lts.Reachable ((l1Caches 1).wiring 0).Contract m ∧
      (m.upper .dcache).mshr.inflight 64 = true ∧
      ¬ ((l1Caches 1).wiring 0).Awaited m .dcache 64 := by
  obtain ⟨m, hr, hp⟩ := Lts.reachable_of_exec ((l1Caches 1).wiring 0).lts
    ((l1Caches 1).wiring 0).Contract
    (fun m => (m.upper .dcache).mshr.inflight 64 && m.calls.isEmpty &&
      (m.lower.rq ++ m.lower.pq ++ m.lower.mshr.entry).all fun e =>
        ((l1Caches 1).wiring 0).origin e != some .dcache)
    (fetchMiss ++
      [(Env.calmAt 15, .upper .dcache (.addRq (loadPacket 1 64 0))),
       (Env.calmAt 20, .upper .dcache .startReads),
       (Env.calmAt 20, .upper .dcache .readOne),
       (Env.calmAt 20, .call)]) rfl (by decide +kernel)
  rw [Bool.and_eq_true, Bool.and_eq_true, List.isEmpty_iff, List.all_eq_true] at hp
  obtain ⟨⟨hin, hcalls⟩, hnone⟩ := hp
  refine ⟨m, hr, hin, ?_⟩
  rintro (⟨p, hmem, _, ho, _⟩ | ⟨k, hk, _⟩)
  · have hne := hnone p (by simpa [or_assoc] using hmem)
    rw [ho] at hne
    exact absurd hne (by decide)
  · rw [hcalls] at hk
    cases hk

end Arishem
