import Mathlib.Algebra.Order.BigOperators.Group.Finset
import Mathlib.Data.Fintype.Basic
import Arishem.Hierarchy.Lower
import Arishem.Hierarchy.Upper

/-!
# Misses and the requests that stand for them

Each request that the lower cache has to answer stands for a miss of an upper cache that is in
flight, and no two stand for one. So the misses bound the read queue of the lower cache, and with
the sizes of the simulator it never refuses a read, although nothing checks that it has room. A
prefetch of one L2C merged at the LLC into a prefetch of another breaks this: the answer goes to
the other L2C, whose next miss on the line is answered early and leaves its request behind.
-/

namespace Arishem

namespace Wiring

section
variable {U : Type} (W : Wiring U)

/-- What the lower cache does in a turn. -/
def lowerAction (m : Machine U) : Turn U → Option Action
  | .upper _ _ => none
  | .lower a => some a
  | .call =>
    match m.calls with
    | .below a :: _ => some a
    | _ => none

/-- The step merges two requests at the lower cache and makes up an answer. -/
def MisdirectsAnswer (m : Machine U) (l : Env × Turn U) : Prop :=
  match lowerAction m l.2 with
  | none => False
  | some a =>
    match m.lower.merging W.lower l.1 a with
    | none => False
    | some (p, e) => W.Misroutes a p e

instance [DecidableEq U] (m : Machine U) (l : Env × Turn U) :
    Decidable (W.MisdirectsAnswer m l) := by
  unfold MisdirectsAnswer
  exact match lowerAction m l.2 with
  | none => instDecidableFalse
  | some a => by
    dsimp only
    exact match m.lower.merging W.lower l.1 a with
    | none => instDecidableFalse
    | some (p, e) => inferInstanceAs (Decidable (W.Misroutes a p e))

/-- The calls between the caches. -/
def CallOk : LevelCall → Prop
  | .below (.addRq p) => p.address ≠ 0 ∧ W.Demand p
  | .below (.addPq p) => p.address ≠ 0 ∧ W.Prefetch p
  | .below (.addWq p) => W.lower.fillLevel ≤ p.fillLevel
  | .below _ => False
  | .above p => p.address ≠ 0 ∧ p.fillLevel < W.lower.fillLevel

/-- The calls that a turn of the lower cache leaves. -/
theorem Answers.calls {W : Wiring U} {evs : List Event} (h : Answers W evs) :
    evs.filterMap Event.above = [] ∨ ∃ k, W.CallOk k ∧ evs.filterMap Event.above = [k] := by
  rcases h with h | ⟨p, h0, hf, h⟩
  · exact .inl h
  · exact .inr ⟨.above p, ⟨h0, hf⟩, h⟩

end

section
variable {U : Type} {W : Wiring U} {u : U} {m : Machine U} {env : Env} {act : Action}

/-- The contract of the outside is what an upper cache may be asked. -/
theorem Contract.upperMay (h : W.Contract m (env, .upper u act)) :
    W.UpperMay u (env.over W.lower m.lower) act := by
  cases act with
  | addRq | addWq | addPq | prefetchLine | returnData => exact h
  | invalidateEntry | updateRob | handleFill | handleWriteback | startReads | readOne
  | prefetchOne => trivial

/-- The contract of the outside is what the lower cache may be told, and it brings no request. -/
theorem Contract.lowerMay (h : W.Contract m (env, .lower act)) :
    W.LowerMay m.lower act ∧ (LevelCall.below act).packets = [] := by
  cases act with
  | addRq | addWq | addPq => exact h.elim
  | prefetchLine | returnData => exact ⟨h, rfl⟩
  | invalidateEntry | updateRob | handleFill | handleWriteback | startReads | readOne
  | prefetchOne => exact ⟨trivial, rfl⟩

/-- A call is one that the lower cache may get. -/
theorem CallOk.lowerMay (h : W.CallOk (.below act)) :
    W.LowerMay m.lower act := by
  cases act with
  | addRq | addWq | addPq => exact h
  | prefetchLine | returnData | invalidateEntry | updateRob | handleFill | handleWriteback
  | startReads | readOne | prefetchOne => exact h.elim

end

section
variable {U : Type} [DecidableEq U] (W : Wiring U)

/-- The invariant of the caches: each is well kept, at most one call is on its way, and the requests
for a line that are to be answered to an upper cache stand for its miss in flight. -/
structure Backed (m : Machine U) : Prop where
  upper : ∀ u, W.UpperOk u (m.upper u)
  lower : W.LowerOk m.lower
  calls : m.calls = [] ∨ ∃ k, W.CallOk k ∧ m.calls = [k]
  tokens_le : ∀ u a, a ≠ 0 → W.tokens u a m ≤ if (m.upper u).mshr.inflight a then 1 else 0

variable {W} {u : U} {a : Addr} {p : Packet} {m m' : Machine U} {env : Env} {evs : List Event}

/-- A request of another cache has no claim. -/
theorem claim_of_origin {u' : U} (h : W.origin p = some u') (hne : u ≠ u') :
    W.claim u a p = 0 := by
  refine if_neg fun hr => hne ?_
  have ho := hr.2.1
  rw [h] at ho
  exact (Option.some.inj ho).symm

/-- The claim of a request that is to be answered. -/
theorem claim_of_routed (h : W.origin p = some u) (hf : p.fillLevel < W.lower.fillLevel) :
    W.claim u p.address p = 1 :=
  if_pos ⟨rfl, h, hf⟩

/-- A turn of an upper cache. -/
theorem Backed.upperTurn (h : W.Backed m) (hc : m.calls = []) {act : Action}
    (hm : W.UpperMay u (env.over W.lower m.lower) act) {c : Cache}
    (hs : (m.upper u).act (W.upper u) (env.over W.lower m.lower) act = some (c, evs)) :
    W.Backed { m with upper := Function.update m.upper u c,
                      calls := evs.filterMap Event.below } := by
  obtain ⟨hok, hstep⟩ := (h.upper u).act hm hs
  have hupper (v : U) : W.UpperOk v (Function.update m.upper u c v) := by
    by_cases hv : v = u
    · subst hv
      rwa [Function.update_self]
    · rw [Function.update_of_ne hv]
      exact h.upper v
  have htokens (v : U) (b : Addr) (hb : b ≠ 0) : W.held v b m.lower ≤
      if (m.upper v).mshr.inflight b then 1 else 0 := by
    have ht := h.tokens_le v b hb
    rwa [tokens, hc, pending_nil, Nat.add_zero] at ht
  -- where the misses stay, so do the requests
  have hsame (hin : ∀ b, c.mshr.inflight b = (m.upper u).mshr.inflight b) (v : U) (b : Addr)
      (hb : b ≠ 0) : W.held v b m.lower ≤
        if (Function.update m.upper u c v).mshr.inflight b then 1 else 0 := by
    by_cases hv : v = u
    · subst hv
      rw [Function.update_self, hin]
      exact htokens v b hb
    · rw [Function.update_of_ne hv]
      exact htokens v b hb
  -- a new miss has one request, which is on its way
  have hnew {p : Packet} (ho : W.origin p = some u)
      (hout : (m.upper u).mshr.inflight p.address = false)
      (hin : ∀ b, c.mshr.inflight b = ((m.upper u).mshr.inflight b || p.address == b)) (v : U)
      (b : Addr) (hb : b ≠ 0) : W.held v b m.lower + W.claim v b p ≤
        if (Function.update m.upper u c v).mshr.inflight b then 1 else 0 := by
    have ht := htokens v b hb
    by_cases hv : v = u
    · subst hv
      rw [Function.update_self, hin]
      by_cases hbp : p.address = b
      · subst hbp
        have hle := claim_le_one (W := W) (u := v) (a := p.address) (p := p)
        simp only [hout, Bool.false_or, beq_self_eq_true, if_true, Bool.false_eq_true,
          if_false] at ht ⊢
        omega
      · have hne : (p.address == b) = false := by simpa using hbp
        rw [claim_of_ne hbp, hne, Bool.or_false]
        exact ht
    · rw [Function.update_of_ne hv, claim_of_origin ho hv]
      exact ht
  cases hstep with
  | quiet hin hcalls =>
    rcases hcalls with hcalls | ⟨q, hq, hcalls⟩
    · refine ⟨hupper, h.lower, .inl hcalls, fun v b hb => ?_⟩
      rw [tokens, hcalls]
      exact hsame hin v b hb
    · refine ⟨hupper, h.lower, .inr ⟨.below (.addWq q), hq, hcalls⟩, fun v b hb => ?_⟩
      rw [tokens, hcalls]
      exact hsame hin v b hb
  | miss hp h0 hout hin hcalls =>
    refine ⟨hupper, h.lower, .inr ⟨.below (.addRq _), ⟨h0, hp.demand⟩, hcalls⟩, fun v b hb => ?_⟩
    rw [tokens, hcalls]
    simpa [LevelCall.packets] using hnew hp.1 hout hin v b hb
  | prefetch hp _ h0 hout _ hin hcalls =>
    refine ⟨hupper, h.lower, .inr ⟨.below (.addPq _), ⟨h0, hp.prefetch⟩, hcalls⟩, fun v b hb => ?_⟩
    rw [tokens, hcalls]
    simpa [LevelCall.packets] using hnew hp.1 hout hin v b hb
  | pass hp hf h0 _ hin hcalls =>
    refine ⟨hupper, h.lower, .inr ⟨.below (.addPq _), ⟨h0, hp.prefetch⟩, hcalls⟩, fun v b hb => ?_⟩
    rw [tokens, hcalls]
    simpa [LevelCall.packets, claim_of_fill hf] using hsame hin v b hb

/-- A step of the lower cache, in its own turn or in a call. -/
theorem Backed.lowerTurn (h : W.Backed m) {act : Action} (hm : W.LowerMay m.lower act) {c : Cache}
    (hs : m.lower.act W.lower env act = some (c, evs))
    (hn : ∀ p e, m.lower.merging W.lower env act = some (p, e) → ¬ W.Misroutes act p e)
    (hcalls : ∀ v b, W.claims v b (LevelCall.below act).packets = W.pending v b m.calls) :
    W.Backed { m with lower := c, calls := evs.filterMap Event.above } := by
  obtain ⟨hok, hstep⟩ := h.lower.act hm hs
  refine ⟨h.upper, hok, (h.lower.answers hm hs).calls, fun v b hb => ?_⟩
  have ht := h.tokens_le v b hb
  rw [tokens, ← hcalls] at ht
  refine le_trans ?_ ht
  rw [tokens]
  cases hstep with
  | keep hk => exact (hk v b hb).le
  | merge n hmerge hle _ _ hk =>
    have hkeep := hk v b hb
    have hn := hle (hn _ _ hmerge) v b
    show W.held v b c + W.pending v b (evs.filterMap Event.above) ≤ _
    omega
  | full _ hc hevs =>
    subst hc hevs
    exact Nat.le_add_right _ _

/-- An answer reaches its upper cache. -/
theorem Backed.answered (h : W.Backed m) (hc : m.calls = [.above p]) (ho : W.origin p = some u)
    {c : Cache} (hs : (m.upper u).returnData (W.upper u) env p = some c) :
    W.Backed { m with upper := Function.update m.upper u c, calls := [] } ∧
      (∀ b, c.mshr.inflight b = ((m.upper u).mshr.inflight b && b != p.address)) := by
  obtain ⟨h0, hf⟩ : p.address ≠ 0 ∧ p.fillLevel < W.lower.fillLevel := by
    rcases h.calls with hn | ⟨k, hk, hn⟩
    · rw [hc] at hn
      cases hn
    · rw [hc] at hn
      cases hn
      exact hk
  have hpend (v : U) (b : Addr) : W.pending v b m.calls = W.claim v b p := by
    simp [hc, LevelCall.packets]
  -- the answer stands for a miss in flight
  have hin : (m.upper u).mshr.inflight p.address = true := by
    have hle := h.tokens_le u p.address h0
    rw [tokens, hpend, claim_of_routed ho hf] at hle
    split at hle
    · assumption
    · omega
  have hok := (h.upper u).mshr.returnData hin hs
  obtain ⟨i, e, hfind, _⟩ := (h.upper u).mshr.ok.checkMshr_inflight hin
  simp only [Cache.returnData, hfind, Option.some.injEq] at hs
  have hmshr : c.mshr = (m.upper u).mshr.complete i e p
      (addLatency (W.upper u).latency (env.cycle p.cpu) e.eventCycle) := hs ▸ rfl
  have hafter (b : Addr) :
      c.mshr.inflight b = ((m.upper u).mshr.inflight b && b != p.address) := by
    rw [hmshr]
    exact (h.upper u).mshr.ok.inflight_complete hfind h0
  refine ⟨⟨fun v => ?_, h.lower, .inl rfl, fun v b hb => ?_⟩, hafter⟩
  · show W.UpperOk v (Function.update m.upper u c v)
    by_cases hv : v = u
    · subst hv
      rw [Function.update_self]
      exact (h.upper v).frame (by simp [← hs]) (by simp [← hs]) (by simp [← hs]) hok
    · rw [Function.update_of_ne hv]
      exact h.upper v
  · have ht := h.tokens_le v b hb
    rw [tokens, hpend] at ht
    rw [tokens, pending_nil]
    show W.held v b m.lower + 0 ≤
      if (Function.update m.upper u c v).mshr.inflight b = true then 1 else 0
    by_cases hv : v = u
    · subst hv
      rw [Function.update_self, hafter]
      by_cases hbp : b = p.address
      · subst hbp
        rw [claim_of_routed ho hf, hin] at ht
        simp only [if_true] at ht
        omega
      · have hne : (b != p.address) = true := by simpa using hbp
        rw [hne, Bool.and_true]
        omega
    · rw [Function.update_of_ne hv]
      omega

/-- A call on its way is the only one. -/
theorem Backed.call (h : W.Backed m) {k : LevelCall} {rest : List LevelCall}
    (hc : m.calls = k :: rest) : W.CallOk k ∧ rest = [] := by
  rcases h.calls with hn | ⟨k', hk, hn⟩
  · rw [hc] at hn
    cases hn
  · rw [hc] at hn
    obtain ⟨rfl, rfl⟩ := List.cons.inj hn
    exact ⟨hk, rfl⟩

/-- Every step keeps the misses and their requests together, unless it makes up an answer. -/
theorem Backed.step (h : W.Backed m) {l : Env × Turn U} (hc : W.Contract m l)
    (hn : ¬ W.MisdirectsAnswer m l) (hs : W.Step m l m' evs) : W.Backed m' := by
  cases hs with
  | upper hcalls hx => exact h.upperTurn hcalls hc.upperMay hx
  | @lower env act c evs hcalls hx =>
    obtain ⟨hm, hp⟩ := hc.lowerMay
    refine h.lowerTurn hm hx (fun p e hpe hr => hn ?_) fun v b => ?_
    · simpa only [MisdirectsAnswer, lowerAction, hpe] using hr
    · rw [hp, hcalls]
      rfl
  | @below env act rest c evs hcalls hx =>
    obtain ⟨hk, rfl⟩ := h.call hcalls
    rw [List.append_nil]
    refine h.lowerTurn hk.lowerMay hx (fun p e hpe hr => hn ?_) fun v b => ?_
    · simpa only [MisdirectsAnswer, lowerAction, hcalls, hpe] using hr
    · simp [hcalls, pending]
  | above hcalls ho hx =>
    obtain ⟨_, rfl⟩ := h.call hcalls
    exact (h.answered hcalls ho hx).1

/-- At the start nothing is in flight and nothing is requested. -/
theorem Backed.init : W.Backed W.start := by
  have hmshr (cfg : Config) : MshrOk cfg (Cache.init cfg) :=
    ⟨Mshr.init_ok _ _, by simp [Cache.init, Mshr.init, Mshr.size]⟩
  have hempty (v : U) (b : Addr) (hb : b ≠ 0) (n k : ℕ) :
      W.claims v b (List.replicate n (Packet.empty k)) = 0 := by
    induction n with
    | zero => rfl
    | succ n ih =>
      have hp : W.claim v b (Packet.empty k) = 0 := claim_of_ne (by simpa using hb.symm)
      rw [List.replicate_succ, claims_cons, hp, ih]
  refine ⟨fun u => ⟨hmshr _, by simp [start, Cache.init], by simp [start, Cache.init],
    by simp [start, Cache.init]⟩, ⟨hmshr _, by simp [start, Cache.init],
    by simp [start, Cache.init], by simp [start, Cache.init], by simp [start, Cache.init], ?_⟩,
    .inl rfl, fun v b hb => ?_⟩
  · intro e he h0
    rw [List.eq_of_mem_replicate he] at h0
    exact absurd rfl h0
  · have hzero : W.tokens v b W.start = 0 := by
      simp [tokens, held, start, Cache.init, Mshr.init, hempty v b hb]
    rw [hzero]
    exact Nat.zero_le _

/-- The misses and their requests stay together in every run without a made up answer. -/
theorem Backed.reachable
    (h : W.lts.Reachable (fun m l => W.Contract m l ∧ ¬ W.MisdirectsAnswer m l) m) :
    W.Backed m := by
  refine h.invariant (I := W.Backed) ?_ ?_
  · rintro _ rfl
    exact Backed.init
  · intro m l m' evs hI hok hs
    exact hI.step hok.1 hok.2 (step_cases hs)

/-! ## The read queue of the lower cache -/

/-- Distinct misses in flight, each of an upper cache, are no more than the MSHR entries there. -/
theorem Backed.length_le [Fintype U] (h : W.Backed m) {l : List Packet}
    (hl : ∀ e ∈ l, ∃ u, W.origin e = some u ∧ (m.upper u).mshr.inflight e.address = true)
    (hn : (l.map (·.address)).Nodup) : l.length ≤ ∑ u, (W.upper u).mshrSize := by
  let key : Packet → Option U × Addr := fun e => (W.origin e, e.address)
  have hnodup : (l.map key).Nodup := by
    refine List.Nodup.of_map Prod.snd ?_
    rwa [List.map_map]
  let slots : U → Finset (Option U × Addr) := fun u =>
    ((m.upper u).mshr.entry.map fun e => (some u, e.address)).toFinset
  have hsub : (l.map key).toFinset ⊆ Finset.univ.biUnion slots := by
    intro x hx
    obtain ⟨e, he, rfl⟩ := List.mem_map.1 (List.mem_toFinset.1 hx)
    obtain ⟨u, ho, hin⟩ := hl e he
    obtain ⟨q, hq, hqe⟩ := List.any_eq_true.1 hin
    have hqa : q.address = e.address := by
      rw [Bool.and_eq_true, beq_iff_eq] at hqe
      exact hqe.1
    refine Finset.mem_biUnion.2 ⟨u, Finset.mem_univ u, List.mem_toFinset.2 ?_⟩
    exact List.mem_map.2 ⟨q, hq, by rw [hqa, ← ho]⟩
  calc l.length = (l.map key).toFinset.card := by
        rw [List.toFinset_card_of_nodup hnodup, List.length_map]
    _ ≤ (Finset.univ.biUnion slots).card := Finset.card_le_card hsub
    _ ≤ ∑ u, (slots u).card := Finset.card_biUnion_le
    _ ≤ ∑ u, (W.upper u).mshrSize := by
        refine Finset.sum_le_sum fun u _ => ?_
        rw [← (h.upper u).mshr.size, Mshr.size]
        exact (List.toFinset_card_le _).trans_eq (List.length_map _)

/-- The action of the lower cache in a turn is one it may take. -/
theorem Backed.lowerMay (h : W.Backed m) {l : Env × Turn U} (hc : W.Contract m l) {act : Action}
    (ha : lowerAction m l.2 = some act) : W.LowerMay m.lower act := by
  obtain ⟨env, t⟩ := l
  cases t with
  | upper u a => cases ha
  | lower a =>
    cases ha
    exact hc.lowerMay.1
  | call =>
    simp only [lowerAction] at ha
    split at ha
    · rename_i hcalls
      cases ha
      exact (h.call hcalls).1.lowerMay
    · cases ha

end

section
variable {U : Type} {W : Wiring U} {env : Env}

/-- Only two prefetches of different caches make up an answer. -/
theorem LowerOk.prefetch_of_misroutes {c : Cache} (h : W.LowerOk c) {act : Action}
    (hm : W.LowerMay c act) {p e : Packet} (hpe : c.merging W.lower env act = some (p, e))
    (hr : W.Misroutes act p e) : W.Prefetch p ∧ W.Prefetch e ∧ W.origin p ≠ W.origin e := by
  have hqueue {q : Packet} (hq : W.Prefetch q) (hpe : c.mergingPq W.lower q = some (p, e))
      (hr : W.Misdirects p e) : W.Prefetch p ∧ W.Prefetch e ∧ W.origin p ≠ W.origin e := by
    rw [Cache.mergingPq] at hpe
    split at hpe
    · cases hpe
    · obtain ⟨⟨i, e'⟩, hi, he⟩ := Option.map_eq_some_iff.1 hpe
      obtain ⟨rfl, rfl⟩ : q = p ∧ e' = e := by simpa using he
      exact ⟨hq, (h.pq e' (Slots.mem_of_lookup hi)).2, hr.2.2⟩
  cases act with
  | addRq | readOne => exact hr.elim
  | addPq q => exact hqueue hm.2 hpe hr
  | prefetchLine cpu ip pfAddr fill metadata =>
    rw [Cache.merging] at hpe
    split at hpe
    · have hq : W.Prefetch (Cache.prefetchPacket W.lower env cpu ip pfAddr fill metadata) :=
        ⟨hm.1, rfl, rfl, hm.2.2⟩
      exact hqueue hq hpe hr
    · cases hpe
  | prefetchOne =>
    rw [Cache.merging] at hpe
    cases hq : c.pq with
    | nil =>
      rw [hq] at hpe
      cases hpe
    | cons q rest =>
      rw [hq, Cache.mergingHead] at hpe
      split at hpe
      · obtain ⟨⟨i, e'⟩, hi, he⟩ := Option.map_eq_some_iff.1 hpe
        obtain ⟨rfl, rfl⟩ : q = p ∧ e' = e := by simpa using he
        obtain ⟨h0, hp⟩ := h.pq q (hq ▸ List.mem_cons_self)
        obtain ⟨_, _, ha⟩ := Mshr.checkMshr_some hi
        have he := h.entry e' (Mshr.mem_of_checkMshr hi) (ha ▸ h0)
        -- a demand is answered above, so it was not only for the lower cache
        have hd : ¬ W.Demand e' := fun hd => absurd hd.2.1 (not_lt.2 hr.2.1)
        exact ⟨hp, he.resolve_left hd, hr.2.2⟩
      · cases hpe
  | addWq | returnData | invalidateEntry | updateRob | handleFill | handleWriteback | startReads =>
    cases hpe

end

end Wiring

section
variable {S : SecondLevel} {cpu : ℕ} {m : Machine Side} {l : Env × Turn Side}

/-- Prefetches of a core all come from its data side. -/
theorem SecondLevel.origin_prefetch {p : Packet} (h : (S.wiring cpu).Prefetch p) :
    (S.wiring cpu).origin p = some .dcache := by
  obtain ⟨ho, _, hi, _⟩ := h
  simp only [Wiring.origin, wiring, hi] at ho ⊢
  split at ho
  · rw [if_pos ‹_›]
    rfl
  · cases ho

/-- Above the caches of a core no answer is made up: all prefetches come from the data side. -/
theorem SecondLevel.not_misdirects (h : (S.wiring cpu).Backed m)
    (hc : (S.wiring cpu).Contract m l) : ¬ (S.wiring cpu).MisdirectsAnswer m l := by
  intro hr
  rw [Wiring.MisdirectsAnswer] at hr
  split at hr
  · exact hr
  · rename_i act ha
    split at hr
    · exact hr
    · rename_i p e hpe
      obtain ⟨hp, he, hne⟩ := h.lower.prefetch_of_misroutes (h.lowerMay hc ha) hpe hr
      exact hne ((origin_prefetch hp).trans (origin_prefetch he).symm)

end

/-! ## The hierarchies of the simulator -/

end Arishem
