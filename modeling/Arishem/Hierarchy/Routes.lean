import Arishem.Cache.Blocks
import Arishem.Hierarchy.Machine

/-!
# Requests at the lower cache

What the lower cache holds for its upper caches. A request is on behalf of the upper cache that gets
its answer, which the instruction flag, the core and the fill level decide. The requests for a line
are counted where they can be: in the read queue, in the prefetch queue, in the MSHR table and in
the calls on their way. A step of the lower cache moves requests between these places, with two
exceptions: a request merged into another one, whose answer goes where the merged entry's does, and
a request refused by a full queue.
-/

namespace Arishem

/-- The fields of a packet that decide its answer, and its type. -/
def Packet.request (p : Packet) : Addr × Bool × ℕ × Int × AccessType :=
  (p.address, p.instruction, p.cpu, p.fillLevel, p.type)

section
variable {cfg : Config} {env : Env} {b : Block} {p e w : Packet}

/-! ## What the steps of a cache do to a request -/

@[simp] theorem request_enqueued : (Cache.enqueued cfg env p).request = p.request := rfl

@[simp] theorem request_stamped : (Cache.stamped env p).request = p.request := rfl

@[simp] theorem request_forwarded : (Cache.forwarded cfg w p).request = p.request := by
  rw [Cache.forwarded]
  split <;> rfl

@[simp] theorem request_withPa : (Cache.withPa cfg b p).request = p.request := by
  rw [Cache.withPa]
  split <;> rfl

@[simp] theorem request_withTranslation : (Cache.withTranslation cfg b p).request = p.request := by
  rw [Cache.withTranslation]
  split
  · rfl
  · exact request_withPa

@[simp] theorem request_withMetadata : (Cache.withMetadata cfg env p).request = p.request := by
  rw [Cache.withMetadata]
  split <;> rfl

@[simp] theorem request_prefetchOperated :
    (Cache.prefetchOperated cfg env p).request = p.request := by
  rw [Cache.prefetchOperated]
  split
  · exact request_withMetadata
  · rfl

@[simp] theorem request_mergeConsumer : (Cache.mergeConsumer p e).request = e.request := by
  simp only [Cache.mergeConsumer]
  split_ifs <;> rfl

@[simp] theorem request_markConsumers : (Cache.markConsumers p e).request = e.request := by
  simp only [Cache.markConsumers]
  split_ifs <;> rfl

/-- A merged read stands for itself where it replaces a prefetch, else for the entry with the fill
level lowered. -/
theorem request_mergedRead : (Cache.mergedRead p e).request =
    if e.type = .prefetch then p.request else (Cache.lowerFillLevel p e).request := by
  have hm : (Cache.markConsumers p e).request = e.request := request_markConsumers
  simp only [Packet.request, Prod.mk.injEq] at hm
  obtain ⟨ha, hi, hc, hf, ht⟩ := hm
  rw [Cache.mergedRead, Cache.replacePrefetch]
  simp only [Cache.lowerFillLevel, ht]
  split
  · rfl
  · simp only [Packet.request, ha, hi, hc, hf]

end

namespace Wiring

section
variable {U : Type} (W : Wiring U) {p q : Packet}

/-- A demand read as the lower cache gets it. -/
def Demand (p : Packet) : Prop :=
  (W.origin p).isSome ∧ p.fillLevel < W.lower.fillLevel ∧ p.type ≠ .prefetch

/-- A prefetch as the lower cache gets it. -/
def Prefetch (p : Packet) : Prop :=
  (W.origin p).isSome ∧ p.type = .prefetch ∧ p.instruction = false ∧ W.lower.isTlb = false

variable {W}

/-- A demand is decided by the request fields. -/
theorem Demand.congr (h : p.request = q.request) (hp : W.Demand p) : W.Demand q := by
  simp only [Packet.request, Prod.mk.injEq] at h
  obtain ⟨_, hi, hc, hf, ht⟩ := h
  simpa only [Demand, origin, hi, hc, hf, ht] using hp

/-- A prefetch is decided by the request fields. -/
theorem Prefetch.congr (h : p.request = q.request) (hp : W.Prefetch p) : W.Prefetch q := by
  simp only [Packet.request, Prod.mk.injEq] at h
  obtain ⟨_, hi, hc, hf, ht⟩ := h
  simpa only [Prefetch, origin, hi, hc, hf, ht] using hp

end

section
variable {U : Type} [DecidableEq U] (W : Wiring U)

/-- The lower cache answers the packet to the upper cache `u`. -/
def Routed (u : U) (p : Packet) : Prop :=
  W.origin p = some u ∧ p.fillLevel < W.lower.fillLevel

instance (u : U) (p : Packet) : Decidable (W.Routed u p) := by
  unfold Routed
  infer_instance

/-- One for a request of `u` for the line, and zero for any other packet. -/
def claim (u : U) (a : Addr) (p : Packet) : ℕ := if p.address = a ∧ W.Routed u p then 1 else 0

/-- The number of requests of `u` for the line. -/
def claims (u : U) (a : Addr) (l : List Packet) : ℕ := (l.map (W.claim u a)).sum

/-- The requests the lower cache holds. -/
def held (u : U) (a : Addr) (c : Cache) : ℕ :=
  W.claims u a c.rq + W.claims u a c.pq + W.claims u a c.mshr.entry

end

end Wiring

/-- The packets of a call that are to be answered, or are an answer. -/
def LevelCall.packets : LevelCall → List Packet
  | .below (.addRq p) => [p]
  | .below (.addPq p) => [p]
  | .below _ => []
  | .above p => [p]

namespace Wiring

section
variable {U : Type} [DecidableEq U] (W : Wiring U)

/-- The requests and answers on their way. -/
def pending (u : U) (a : Addr) (calls : List LevelCall) : ℕ :=
  W.claims u a (calls.flatMap LevelCall.packets)

/-- The requests of `u` for the line, wherever they are. -/
def tokens (u : U) (a : Addr) (m : Machine U) : ℕ := W.held u a m.lower + W.pending u a m.calls

variable {W} {u : U} {a : Addr} {p q e : Packet} {l : List Packet}

/-! ## Counting requests -/

/-- A claim is decided by the request fields. -/
theorem claim_congr (h : p.request = q.request) : W.claim u a p = W.claim u a q := by
  simp only [Packet.request, Prod.mk.injEq] at h
  obtain ⟨ha, hi, hc, hf, _⟩ := h
  have hr : W.Routed u p ↔ W.Routed u q := by
    simp only [Routed, origin, hi, hc, hf]
  rw [claim, claim]
  exact if_congr (and_congr (by rw [ha]) hr) rfl rfl

@[simp] theorem claims_nil : W.claims u a [] = 0 := rfl

@[simp] theorem claims_cons : W.claims u a (p :: l) = W.claim u a p + W.claims u a l := by
  simp [claims]

@[simp] theorem claims_append {l' : List Packet} :
    W.claims u a (l ++ l') = W.claims u a l + W.claims u a l' := by
  simp [claims]

/-- Overwriting an entry exchanges its claim. -/
theorem claims_set {i : ℕ} (hi : i < l.length) (he : l[i] = e) :
    W.claims u a (l.set i p) + W.claim u a e = W.claims u a l + W.claim u a p := by
  subst he
  exact Slots.sum_map_set _ _ _ _ hi

/-- A packet among others has its claim counted. -/
theorem claim_le_claims (h : p ∈ l) : W.claim u a p ≤ W.claims u a l := by
  induction l with
  | nil => cases h
  | cons q l ih =>
    rw [claims_cons]
    rcases List.mem_cons.1 h with rfl | h
    · exact Nat.le_add_right _ _
    · exact (ih h).trans (Nat.le_add_left _ _)

/-- A packet that the lower cache holds has its claim counted. -/
theorem claim_le_held {c : Cache} (h : p ∈ c.rq ∨ p ∈ c.pq ∨ p ∈ c.mshr.entry) :
    W.claim u a p ≤ W.held u a c := by
  rw [held]
  rcases h with h | h | h <;> have hc := claim_le_claims (W := W) (u := u) (a := a) h <;> omega

/-- A claim that counts is one of a packet. -/
theorem exists_of_claims (h : 1 ≤ W.claims u a l) :
    ∃ p ∈ l, p.address = a ∧ W.Routed u p := by
  induction l with
  | nil => simp at h
  | cons p l ih =>
    rw [claims_cons] at h
    by_cases hp : p.address = a ∧ W.Routed u p
    · exact ⟨p, by simp, hp⟩
    · rw [claim, if_neg hp, Nat.zero_add] at h
      obtain ⟨q, hq, hr⟩ := ih h
      exact ⟨q, List.mem_cons_of_mem _ hq, hr⟩

/-- A claim counts at most once. -/
theorem claim_le_one : W.claim u a p ≤ 1 := by
  rw [claim]
  split <;> omega

/-- A packet for another line has no claim. -/
theorem claim_of_ne (h : p.address ≠ a) : W.claim u a p = 0 := if_neg fun hp => h hp.1

/-- A packet that is filled to the lower cache has no claim. -/
theorem claim_of_fill (h : W.lower.fillLevel ≤ p.fillLevel) : W.claim u a p = 0 :=
  if_neg fun hp => absurd hp.2.2 (not_lt.2 h)

@[simp] theorem pending_nil : W.pending u a [] = 0 := rfl

@[simp] theorem pending_cons {k : LevelCall} {ks : List LevelCall} :
    W.pending u a (k :: ks) = W.claims u a k.packets + W.pending u a ks := by
  simp [pending]

@[simp] theorem pending_append {ks ks' : List LevelCall} :
    W.pending u a (ks ++ ks') = W.pending u a ks + W.pending u a ks' := by
  simp [pending]

/-- The answer to a packet carries its claim. -/
theorem pending_answer :
    W.pending u a ((Cache.answer W.lower p).filterMap Event.above) = W.claim u a p := by
  rw [Cache.answer]
  split
  · simp [Event.above, LevelCall.packets]
  · rename_i h
    rw [claim_of_fill (not_lt.1 h)]
    rfl

end

end Wiring

section
variable {cfg : Config} {env : Env} {c : Cache} {p : Packet} {q : List Packet}

/-- What a finished access reports is no call. -/
@[simp] theorem above_finishEvents :
    (Cache.finishEvents cfg p q).filterMap Event.above = [] := by
  rw [Cache.finishEvents]
  split_ifs <;> rfl

/-- The eviction of a victim makes no call but a writeback. -/
theorem Cache.Victim.calls {way : ℕ} {evs : List Event} (h : Cache.Victim cfg env c p way evs) :
    evs = [] ∨ ∃ victim, evs = [.lowerAddWq (Cache.writebackPacket cfg env victim p)] := by
  obtain ⟨v, hv, he⟩ := h.evicted
  simp only [Cache.evict] at hv
  split_ifs at hv
  · cases hv
    cases he
  · cases hv
    cases he
    exact .inr ⟨_, rfl⟩
  · cases hv
    cases he
    exact .inl rfl
  · cases hv
    cases he
    exact .inl rfl

/-- The eviction of a victim answers nobody. -/
theorem Cache.Victim.above {way : ℕ} {evs : List Event} (h : Cache.Victim cfg env c p way evs) :
    evs.filterMap Event.above = [] := by
  rcases h.calls with rfl | ⟨victim, rfl⟩ <;> rfl

end

end Arishem
