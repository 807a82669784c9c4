import Mathlib.Data.Fintype.Card
import Mathlib.Data.List.Perm.Lattice
import Mathlib.Logic.Function.Basic

/-!
# Ranks by recency

Each of `n` places has a rank. Touching a place gives it rank 0 and moves the places up that were
before it; a loop over the places does this in their order, one place at a time. The ranks stay a
permutation of the numbers below `n`, and they order the places by their last touch.
-/

namespace Ranks

variable {n p q c : ℕ} {rank : ℕ → ℕ} {history : List ℕ}

/-- The ranks after a place was touched. -/
def touch (n p : ℕ) (rank : ℕ → ℕ) : ℕ → ℕ := fun q =>
  if q = p then 0 else if q < n ∧ rank q < rank p then rank q + 1 else rank q

/-- The loop over some places that moves those up whose rank is below `c`. -/
def shift (c : ℕ) (places : List ℕ) (rank : ℕ → ℕ) : ℕ → ℕ :=
  places.foldl (fun r q => if r q < c then Function.update r q (r q + 1) else r) rank

/-- The ranks of the places are the numbers below `n`, each once. -/
structure Ranked (n : ℕ) (rank : ℕ → ℕ) : Prop where
  lt : ∀ p < n, rank p < n
  inj : ∀ p < n, ∀ q < n, rank p = rank q → p = q

/-- How many touches ago a place was last touched, in a history with the last touch first; the
length of the history if it was never touched. -/
def age (history : List ℕ) (p : ℕ) : ℕ := history.idxOf p

/-- The place was touched after the last touch of the other one. Places that were never touched come
last, in the order of their numbers. -/
def Before (history : List ℕ) (p q : ℕ) : Prop :=
  age history p < age history q ∨ age history p = age history q ∧ p < q

instance : Decidable (Before history p q) := by
  unfold Before
  infer_instance

/-! ## The loop -/

/-- The loop moves each place up once. -/
theorem shift_apply {places : List ℕ} (hn : places.Nodup) (rank : ℕ → ℕ) (q : ℕ) :
    shift c places rank q = if q ∈ places ∧ rank q < c then rank q + 1 else rank q := by
  induction places generalizing rank with
  | nil => simp [shift]
  | cons p places ih =>
    obtain ⟨hp, hn⟩ := List.nodup_cons.1 hn
    have hcons : shift c (p :: places) rank = shift c places
        (if rank p < c then Function.update rank p (rank p + 1) else rank) := rfl
    rw [hcons, ih hn]
    rcases eq_or_ne q p with rfl | hne
    · by_cases hlt : rank q < c <;> simp [hp, hlt]
    · have hsame :
          (if rank p < c then Function.update rank p (rank p + 1) else rank) q = rank q := by
        split
        · rw [Function.update_of_ne hne]
        · rfl
      rw [hsame]
      simp only [List.mem_cons, hne, false_or]

/-- The loop over all places, and the touched place set to 0 after it. -/
theorem update_shift (n p : ℕ) (rank : ℕ → ℕ) :
    Function.update (shift (rank p) (List.range n) rank) p 0 = touch n p rank := by
  funext q
  rw [touch]
  split
  · rename_i hqp
    rw [hqp, Function.update_self]
  · rename_i hqp
    rw [Function.update_of_ne hqp, shift_apply List.nodup_range]
    simp only [List.mem_range]

/-! ## Permutations -/

/-- The ranks, listed. -/
theorem Ranked.perm (h : Ranked n rank) : ((List.range n).map rank).Perm (List.range n) := by
  have hnodup : ((List.range n).map rank).Nodup :=
    List.nodup_range.map_on fun p hp q hq =>
      h.inj p (List.mem_range.1 hp) q (List.mem_range.1 hq)
  have hsub : ((List.range n).map rank) ⊆ List.range n := by
    intro r hr
    obtain ⟨p, hp, rfl⟩ := List.mem_map.1 hr
    exact List.mem_range.2 (h.lt p (List.mem_range.1 hp))
  exact (hnodup.subperm hsub).perm_of_length_le (by simp)

/-- Each number below `n` is the rank of a place. -/
theorem Ranked.exists_rank (h : Ranked n rank) (hc : c < n) : ∃ p < n, rank p = c := by
  have hmem : c ∈ (List.range n).map rank := h.perm.mem_iff.2 (List.mem_range.2 hc)
  obtain ⟨p, hp, rfl⟩ := List.mem_map.1 hmem
  exact ⟨p, List.mem_range.1 hp, rfl⟩

/-- At the start the rank of a place is its number. -/
theorem Ranked.id (n : ℕ) : Ranked n fun p => p :=
  ⟨fun _ hp => hp, fun _ _ _ _ h => h⟩

@[simp] theorem touch_self : touch n p rank p = 0 := if_pos rfl

theorem touch_of_ne (hq : q < n) (hne : q ≠ p) :
    touch n p rank q = if rank q < rank p then rank q + 1 else rank q := by
  rw [touch, if_neg hne]
  simp only [hq, true_and]

/-- A touch keeps a permutation. -/
theorem Ranked.touch (h : Ranked n rank) (hp : p < n) : Ranked n (touch n p rank) := by
  refine ⟨fun q hq => ?_, fun q hq q' hq' heq => ?_⟩
  · have hltp := h.lt p hp
    have hltq := h.lt q hq
    rcases eq_or_ne q p with rfl | hne
    · rw [touch_self]
      omega
    · rw [touch_of_ne hq hne]
      split <;> omega
  · have hinj := h.inj q hq q' hq'
    rcases eq_or_ne p q with rfl | hne <;> rcases eq_or_ne p q' with rfl | hne'
    · rfl
    · -- no other place has rank 0 afterwards
      have hneq : rank q' ≠ rank p := fun he => hne'.symm (h.inj q' hq' p hp he)
      rw [touch_self, touch_of_ne hq' hne'.symm] at heq
      split at heq <;> omega
    · have hneq : rank q ≠ rank p := fun he => hne.symm (h.inj q hq p hp he)
      rw [touch_self, touch_of_ne hq hne.symm] at heq
      split at heq <;> omega
    · have hneq : rank q ≠ rank p := fun he => hne.symm (h.inj q hq p hp he)
      have hneq' : rank q' ≠ rank p := fun he => hne'.symm (h.inj q' hq' p hp he)
      rw [touch_of_ne hq hne.symm, touch_of_ne hq' hne'.symm] at heq
      refine hinj ?_
      split at heq <;> split at heq <;> omega

/-! ## The order of the last touches -/

/-- The last touch is the youngest. -/
theorem age_cons : age (p :: history) q = if p = q then 0 else age history q + 1 := by
  rcases eq_or_ne p q with rfl | hne
  · rw [if_pos rfl, age, List.idxOf_cons_self]
  · rw [if_neg hne, age, List.idxOf_cons_ne _ hne]
    rfl

/-- A touch puts its place before all others and keeps their order. -/
theorem before_cons : Before (p :: history) q c ↔
    q = p ∧ c ≠ p ∨ q ≠ p ∧ c ≠ p ∧ Before history q c := by
  rw [Before, Before, age_cons, age_cons]
  rcases eq_or_ne p q with rfl | hq <;> rcases eq_or_ne p c with rfl | hc
  · simp
  · simp [hc, hc.symm]
  · simp [hq]
  · simp [hq, hc, hq.symm, hc.symm]

/-- The ranks order the places by their last touch. -/
def Ordered (n : ℕ) (history : List ℕ) (rank : ℕ → ℕ) : Prop :=
  ∀ p < n, ∀ q < n, (rank p < rank q ↔ Before history p q)

theorem Ordered.nil (n : ℕ) : Ordered n [] fun p => p := by
  intro p _ q _
  simp [Before, age]

/-- One more touch. -/
theorem Ordered.touch (h : Ordered n history rank) (hr : Ranked n rank) (hp : p < n) :
    Ordered n (p :: history) (touch n p rank) := by
  intro q hq c hc
  have hqc := h q hq c hc
  rw [before_cons, ← hqc]
  rcases eq_or_ne p q with rfl | hneq <;> rcases eq_or_ne p c with rfl | hnec
  · simp
  · rw [touch_self, touch_of_ne hc hnec.symm]
    have hne : rank c ≠ rank p := fun he => hnec.symm (hr.inj c hc p hp he)
    refine ⟨fun _ => .inl ⟨rfl, hnec.symm⟩, fun _ => ?_⟩
    split <;> omega
  · rw [touch_self]
    simp
  · have hne : rank q ≠ rank p := fun he => hneq.symm (hr.inj q hq p hp he)
    have hne' : rank c ≠ rank p := fun he => hnec.symm (hr.inj c hc p hp he)
    rw [touch_of_ne hq hneq.symm, touch_of_ne hc hnec.symm]
    split <;> split <;> omega

/-- The place of the largest rank comes after all others. -/
theorem Ordered.last (h : Ordered n history rank) (hr : Ranked n rank) (hp : p < n)
    (hlast : rank p = n - 1) (hq : q < n) (hne : q ≠ p) : Before history q p := by
  rw [← h q hq p hp]
  have hlt := hr.lt q hq
  have hneq : rank q ≠ rank p := fun heq => hne (hr.inj q hq p hp heq)
  omega

end Ranks
