import Arishem.Hierarchy.Routes

/-!
# Merged requests

Requests for one line are merged at the lower cache in its read queue, its prefetch queue and its
MSHR table. `merging` says which two a step would merge. The merged entry is answered to one cache
at most; whether that is right for both requests depends on where they came from, which the code
does not compare.
-/

namespace Arishem

namespace Cache

section
variable (cfg : Config) (env : Env) (c : Cache)

/-- The prefetch `p` would be merged into an entry of the PQ. -/
def mergingPq (p : Packet) : Option (Packet × Packet) :=
  if (checkWq cfg p c.wq).isSome then none else (checkQueue p.address c.pq).map fun r => (p, r.2)

/-- The head of a queue would be merged into an MSHR entry. -/
def mergingHead : List Packet → Option (Packet × Packet)
  | [] => none
  | p :: _ =>
    if c.readsAvailable ≠ 0 ∧ p.cpu ≠ cfg.numCpus ∧ p.eventCycle ≤ env.cycle p.cpu ∧
        (c.checkHit cfg p).1 = none then
      (c.mshr.checkMshr p.address).map fun r => (p, r.2)
    else none

/-- The two packets that a step would merge: the request, and the entry it goes into. -/
def merging : Action → Option (Packet × Packet)
  | .addRq p =>
    if (checkWq cfg p c.wq).isSome then none else (checkQueue p.address c.rq).map fun r => (p, r.2)
  | .addPq p => c.mergingPq cfg p
  | .prefetchLine cpu ip pfAddr fill metadata =>
    if c.pq.length < cfg.pqSize then
      c.mergingPq cfg (prefetchPacket cfg env cpu ip pfAddr fill metadata)
    else none
  | .readOne => c.mergingHead cfg env c.rq
  | .prefetchOne => c.mergingHead cfg env c.pq
  | _ => none

/-- The request reaches a full queue, after it was neither forwarded nor merged. -/
def refuses : Action → Bool
  | .addRq p =>
    (checkWq cfg p c.wq).isNone && (checkQueue p.address c.rq).isNone && c.rq.length == cfg.rqSize
  | .addPq p =>
    (checkWq cfg p c.wq).isNone && (checkQueue p.address c.pq).isNone && c.pq.length == cfg.pqSize
  | _ => false

variable {cfg env c}

/-- A head of a queue that is merged into an MSHR entry when it is served. -/
theorem mergingHead_eq {q rest : List Packet} {p e : Packet} {i : ℕ} {buffer : List UInt64}
    (hq : q = p :: rest)
    (hr : c.readsAvailable ≠ 0 ∧ p.cpu ≠ cfg.numCpus ∧ p.eventCycle ≤ env.cycle p.cpu)
    (hh : c.checkHit cfg p = (none, buffer)) (hf : c.mshr.checkMshr p.address = some (i, e)) :
    c.mergingHead cfg env q = some (p, e) := by
  subst hq
  obtain ⟨h1, h2, h3⟩ := hr
  simp [mergingHead, h1, h2, h3, hh, hf]

/-- A round of `handle_read` does nothing or serves a head that is ready. -/
theorem readOne_ready {c' : Cache} {evs : List Event} (h : c.readOne cfg env = some (c', evs)) :
    c' = c ∧ evs = [] ∨ ∃ p rest, c.rq = p :: rest ∧ c.readsAvailable ≠ 0 ∧
      p.cpu ≠ cfg.numCpus ∧ p.eventCycle ≤ env.cycle p.cpu := by
  rw [readOne] at h
  split at h
  · cases h
    exact .inl ⟨rfl, rfl⟩
  · rename_i p rest hq
    split at h
    · cases h
      exact .inl ⟨rfl, rfl⟩
    · rename_i hn
      rw [not_or] at hn
      split at h
      · exact .inr ⟨p, rest, hq, hn.1, hn.2, ‹_›⟩
      · cases h
        exact .inl ⟨rfl, rfl⟩

/-- A round of `handle_prefetch` does nothing or serves a head that is ready. -/
theorem prefetchOne_ready {c' : Cache} {evs : List Event}
    (h : c.prefetchOne cfg env = some (c', evs)) :
    c' = c ∧ evs = [] ∨ ∃ p rest, c.pq = p :: rest ∧ c.readsAvailable ≠ 0 ∧
      p.cpu ≠ cfg.numCpus ∧ p.eventCycle ≤ env.cycle p.cpu := by
  rw [prefetchOne] at h
  split at h
  · cases h
    exact .inl ⟨rfl, rfl⟩
  · rename_i p rest hq
    split at h
    · cases h
      exact .inl ⟨rfl, rfl⟩
    · rename_i hn
      rw [not_or] at hn
      split at h
      · exact .inr ⟨p, rest, hq, hn.1, hn.2, ‹_›⟩
      · cases h
        exact .inl ⟨rfl, rfl⟩

end

/-- What a new read miss does to the queues and the table. The STLB answers it at once. -/
structure NewRead (env : Env) (c : Cache) (p : Packet) (rest : List Packet) (c' : Cache) :
    Prop where
  rq : c'.rq = rest
  wq : c'.wq = c.wq
  pq : c'.pq = c.pq
  mshr : c'.mshr = c.mshr.addMshr (stamped env p) ∨
    ∃ i e q due, (c.mshr.addMshr (stamped env p)).checkMshr p.address = some (i, e) ∧
      c'.mshr = (c.mshr.addMshr (stamped env p)).complete i e q due

section
variable {cfg : Config} {env : Env} {c c' : Cache} {evs : List Event}

/-- A new read miss. -/
theorem readNew_cases {p : Packet} {rest : List Packet}
    (h : c.readNew cfg env p rest = some (c', evs)) :
    NewRead env c p rest c' ∧ evs.filterMap Event.above = [] := by
  simp only [readNew] at h
  split at h
  · cases h
    exact ⟨⟨rfl, rfl, rfl, .inl rfl⟩, rfl⟩
  · split at h
    · split at h
      · cases h
      · rename_i c₁ hr
        cases h
        simp only [returnData] at hr
        split at hr
        · cases hr
        · rename_i i e hf
          cases hr
          exact ⟨⟨rfl, rfl, rfl, .inr ⟨i, e, _, _, hf, rfl⟩⟩, rfl⟩
    · cases h
      exact ⟨⟨rfl, rfl, rfl, .inl rfl⟩, rfl⟩

end

end Cache

namespace Wiring

section
variable {U : Type} [DecidableEq U] (W : Wiring U)

/-! ## Merges that change an answer -/

/-- A demand merged into the entry `e` takes an answer away: the two are for different caches, and
both wait. A prefetch that is only for the lower cache has nobody waiting above. -/
def LosesDemand (p e : Packet) : Prop :=
  W.origin p ≠ W.origin e ∧ (e.type = .prefetch → e.fillLevel < W.lower.fillLevel)

/-- A prefetch merged into the entry `e` loses its answer: it came from another cache. -/
def LosesPrefetch (p e : Packet) : Prop :=
  p.fillLevel < W.lower.fillLevel ∧ W.origin p ≠ W.origin e

/-- A prefetch merged into the entry `e` makes it answer a cache that did not ask: `e` was only for
the lower cache, on behalf of another cache. -/
def Misdirects (p e : Packet) : Prop :=
  p.fillLevel < W.lower.fillLevel ∧ W.lower.fillLevel ≤ e.fillLevel ∧ W.origin p ≠ W.origin e

/-- The step merges a request and loses an answer. -/
def Loses (a : Action) (p e : Packet) : Prop :=
  match a with
  | .addRq _ | .readOne => W.LosesDemand p e
  | _ => W.LosesPrefetch p e

/-- The step merges a request and makes up an answer. -/
def Misroutes (a : Action) (p e : Packet) : Prop :=
  match a with
  | .addRq _ | .readOne => False
  | _ => W.Misdirects p e

instance (a : Action) (p e : Packet) : Decidable (W.Loses a p e) := by
  unfold Loses LosesDemand LosesPrefetch
  exact match a with
  | .addRq _ | .readOne => instDecidableAnd
  | .addWq _ | .addPq _ | .prefetchLine .. | .returnData _ | .invalidateEntry _ | .updateRob _
  | .handleFill | .handleWriteback | .startReads | .prefetchOne => instDecidableAnd

instance (a : Action) (p e : Packet) : Decidable (W.Misroutes a p e) := by
  unfold Misroutes Misdirects
  exact match a with
  | .addRq _ | .readOne => instDecidableFalse
  | .addWq _ | .addPq _ | .prefetchLine .. | .returnData _ | .invalidateEntry _ | .updateRob _
  | .handleFill | .handleWriteback | .startReads | .prefetchOne => instDecidableAnd

end

section
variable {U : Type} [DecidableEq U] {W : Wiring U} {u : U} {b : Addr} {p e n : Packet}
  {a : Action}

/-! ## The claim of a merged entry -/

/-- Where a request for the same line keeps the answer of the entry, only a request for another
cache loses. -/
theorem LosesDemand.keeps (hp : W.Demand p) (ha : e.address = p.address)
    (hn : n.request = e.request) (he : W.Demand e) (hl : ¬ W.LosesDemand p e) :
    W.claim u b p ≤ W.claim u b n ∧ W.claim u b e ≤ W.claim u b n := by
  rw [claim_congr hn]
  refine ⟨?_, le_refl _⟩
  have ho : W.origin p = W.origin e :=
    not_not.1 fun ho => hl ⟨ho, fun ht => absurd ht he.2.2⟩
  simp only [claim, Routed, ha, ho, hp.2.1, he.2.1, and_true, le_refl]

/-- The entry of a demand keeps its answer when the fill level is lowered. -/
theorem claim_lowerFillLevel_demand (he : W.Demand e) :
    W.claim u b (Cache.lowerFillLevel p e) = W.claim u b e := by
  have hmin : min p.fillLevel e.fillLevel < W.lower.fillLevel :=
    lt_of_le_of_lt (min_le_right _ _) he.2.1
  simp only [claim, Routed, Cache.lowerFillLevel, origin, hmin, he.2.1]

/-- The claim of a demand that a merged read leaves. -/
theorem claim_mergedRead_le (he : W.Demand e ∨ W.Prefetch e) :
    W.claim u b (Cache.mergedRead p e) ≤ W.claim u b p + W.claim u b e := by
  have hm := request_mergedRead (p := p) (e := e)
  split at hm
  · rw [claim_congr hm]
    exact Nat.le_add_right _ _
  · rename_i ht
    rw [claim_congr hm, claim_lowerFillLevel_demand (he.resolve_right fun he => ht he.2.1)]
    exact Nat.le_add_left _ _

/-- Neither answer is lost where a read is merged for the same cache. -/
theorem le_claim_mergedRead (hp : W.Demand p) (ha : e.address = p.address)
    (he : W.Demand e ∨ W.Prefetch e) (hl : ¬ W.LosesDemand p e) :
    W.claim u b p ≤ W.claim u b (Cache.mergedRead p e) ∧
      W.claim u b e ≤ W.claim u b (Cache.mergedRead p e) := by
  have hm := request_mergedRead (p := p) (e := e)
  split at hm
  · rename_i ht
    rw [claim_congr hm]
    refine ⟨le_refl _, ?_⟩
    by_cases hf : e.fillLevel < W.lower.fillLevel
    · have ho : W.origin p = W.origin e := not_not.1 fun ho => hl ⟨ho, fun _ => hf⟩
      simp only [claim, Routed, ha, ho, hp.2.1, hf, and_true, le_refl]
    · rw [claim_of_fill (not_lt.1 hf)]
      exact Nat.zero_le _
  · rename_i ht
    have hd := he.resolve_right fun he => ht he.2.1
    have hk := LosesDemand.keeps (u := u) (b := b) hp ha rfl hd hl
    rwa [claim_congr hm, claim_lowerFillLevel_demand hd]

/-- A prefetch that is not misdirected makes up no answer. -/
theorem claim_lowerFillLevel_le (ha : e.address = p.address) (hl : ¬ W.Misdirects p e) :
    W.claim u b (Cache.lowerFillLevel p e) ≤ W.claim u b p + W.claim u b e := by
  by_cases he : e.fillLevel < W.lower.fillLevel
  · have hmin : min p.fillLevel e.fillLevel < W.lower.fillLevel :=
      lt_of_le_of_lt (min_le_right _ _) he
    have heq : W.claim u b (Cache.lowerFillLevel p e) = W.claim u b e := by
      simp only [claim, Routed, Cache.lowerFillLevel, origin, hmin, he]
    omega
  · by_cases hp : p.fillLevel < W.lower.fillLevel
    · have ho : W.origin p = W.origin e := not_not.1 fun ho => hl ⟨hp, not_lt.1 he, ho⟩
      have hmin : min p.fillLevel e.fillLevel < W.lower.fillLevel :=
        lt_of_le_of_lt (min_le_left _ _) hp
      have heq : W.claim u b (Cache.lowerFillLevel p e) = W.claim u b p := by
        rw [origin, origin] at ho
        simp only [claim, Routed, Cache.lowerFillLevel, origin, hmin, hp, ha, ho]
      omega
    · rw [claim_of_fill (le_min (not_lt.1 hp) (not_lt.1 he))]
      exact Nat.zero_le _

/-- Neither answer is lost where a prefetch is merged for the same cache. -/
theorem le_claim_lowerFillLevel (ha : e.address = p.address) (hl : ¬ W.LosesPrefetch p e) :
    W.claim u b p ≤ W.claim u b (Cache.lowerFillLevel p e) ∧
      W.claim u b e ≤ W.claim u b (Cache.lowerFillLevel p e) := by
  constructor
  · by_cases hp : p.fillLevel < W.lower.fillLevel
    · have ho : W.origin p = W.origin e := not_not.1 fun ho => hl ⟨hp, ho⟩
      have hmin : min p.fillLevel e.fillLevel < W.lower.fillLevel :=
        lt_of_le_of_lt (min_le_left _ _) hp
      rw [origin, origin] at ho
      simp only [claim, Routed, Cache.lowerFillLevel, origin, hmin, hp, ha, ho, and_true, le_refl]
    · rw [claim_of_fill (not_lt.1 hp)]
      exact Nat.zero_le _
  · by_cases he : e.fillLevel < W.lower.fillLevel
    · have hmin : min p.fillLevel e.fillLevel < W.lower.fillLevel :=
        lt_of_le_of_lt (min_le_right _ _) he
      simp only [claim, Routed, Cache.lowerFillLevel, origin, hmin, he, and_true, le_refl]
    · rw [claim_of_fill (not_lt.1 he)]
      exact Nat.zero_le _

/-! ## The table of the lower cache -/

/-- A new entry adds its claim. -/
theorem claims_addMshr {m : Mshr} (h : m.Ok) (hlt : m.occupancy < m.size) (hb : b ≠ 0) :
    W.claims u b (m.addMshr p).entry = W.claims u b m.entry + W.claim u b p := by
  obtain ⟨i, e, hf⟩ := h.exists_free hlt
  obtain ⟨hi, he, h0⟩ := Mshr.checkMshr_some hf
  have hs := claims_set (W := W) (u := u) (a := b) (p := { p with returned := .inflight }) hi he
  have hfree : W.claim u b e = 0 := claim_of_ne (by rw [h0]; exact hb.symm)
  have hp : W.claim u b { p with returned := .inflight } = W.claim u b p := claim_congr rfl
  rw [Mshr.addMshr_of_free hf]
  show W.claims u b (m.entry.set i { p with returned := .inflight }) = _
  omega

/-- An answered entry keeps its claim. -/
theorem claims_complete {m : Mshr} {i : ℕ} {q : Packet} {due : Cycle} {d : Addr}
    (hf : m.checkMshr d = some (i, e)) :
    W.claims u b (m.complete i e q due).entry = W.claims u b m.entry := by
  obtain ⟨hi, he, _⟩ := Mshr.checkMshr_some hf
  have hs := claims_set (W := W) (u := u) (a := b)
    (p := { e with returned := .completed, data := q.data, pfMetadata := q.pfMetadata,
                   eventCycle := due }) hi he
  have hp : W.claim u b
      { e with returned := .completed, data := q.data, pfMetadata := q.pfMetadata,
               eventCycle := due } = W.claim u b e := claim_congr rfl
  rw [Mshr.entry_complete]
  omega

/-- A slot that is given up takes its claim along. -/
theorem claims_remove {m : Mshr} {i k : ℕ} (hi : i < m.entry.length) (he : m.entry[i] = e)
    (hb : b ≠ 0) :
    W.claims u b (m.remove k i).entry + W.claim u b e = W.claims u b m.entry := by
  have hs := claims_set (W := W) (u := u) (a := b) (p := Packet.empty k) hi he
  have hp : W.claim u b (Packet.empty k) = 0 := claim_of_ne (by simpa using hb.symm)
  rw [Mshr.entry_remove]
  omega

/-- An updated entry exchanges its claim. -/
theorem claims_update {m : Mshr} {i : ℕ} {d : Addr} (hf : m.checkMshr d = some (i, e)) :
    W.claims u b (m.update i p).entry + W.claim u b e =
      W.claims u b m.entry + W.claim u b p := by
  obtain ⟨hi, he, _⟩ := Mshr.checkMshr_some hf
  rw [Mshr.entry_update]
  exact claims_set hi he

end

end Wiring

end Arishem
