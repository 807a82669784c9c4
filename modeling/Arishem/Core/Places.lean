import Arishem.Core.Machine
import Arishem.Lib.Outcome

/-!
# Instructions in the reorder buffer

The slots from the head to the tail are live, and the order of their places is the program order.
Adding an instruction makes the slot at the tail live, retiring one frees the slot at the head, and
nothing else changes which slots are live or which of two is older. What a group of stages leaves
alone is said once for the group: the stages of the fetch unit, those of the registers, and those of
the load and store queues.
-/

namespace Arishem

namespace O3Cpu

section
variable (cfg : CoreConfig)

/-- How many instructions lie before a slot. -/
abbrev place (s : O3Cpu) (i : ℕ) : ℕ := Ring.place cfg.robSize s.rob.head i

/-- The slot holds an instruction. -/
def Live (s : O3Cpu) (i : ℕ) : Prop := i < cfg.robSize ∧ s.place cfg i < s.rob.occupancy

instance decidableLive (s : O3Cpu) (i : ℕ) : Decidable (s.Live cfg i) :=
  inferInstanceAs (Decidable (_ ∧ _))

/-- Both slots hold instructions, and the first one comes earlier in program order. -/
def Older (s : O3Cpu) (p i : ℕ) : Prop :=
  p < cfg.robSize ∧ s.place cfg p < s.place cfg i ∧ s.Live cfg i

/-- The reorder buffer is a ring. -/
structure RingOk (s : O3Cpu) : Prop where
  head_lt : s.rob.head < cfg.robSize
  occupancy_le : s.rob.occupancy ≤ cfg.robSize
  tail_eq : s.rob.tail = Ring.index cfg.robSize s.rob.head s.rob.occupancy

/-- The reorder buffer has the same ends. -/
structure SameRing (s s' : O3Cpu) : Prop where
  head : s'.rob.head = s.rob.head
  tail : s'.rob.tail = s.rob.tail
  occupancy : s'.rob.occupancy = s.rob.occupancy

end

section
variable {cfg : CoreConfig} {s s' s'' : O3Cpu} {i p : ℕ}

theorem Older.live (h : s.Older cfg p i) : s.Live cfg i := h.2.2

theorem Older.live_left (h : s.Older cfg p i) : s.Live cfg p := ⟨h.1, h.2.1.trans h.2.2.2⟩

theorem Older.ne (h : s.Older cfg p i) : p ≠ i := by
  rintro rfl
  exact lt_irrefl _ h.2.1

theorem SameRing.refl (s : O3Cpu) : SameRing s s := ⟨rfl, rfl, rfl⟩

theorem SameRing.trans (h : SameRing s s') (h' : SameRing s' s'') : SameRing s s'' :=
  ⟨h'.head.trans h.head, h'.tail.trans h.tail, h'.occupancy.trans h.occupancy⟩

theorem SameRing.live (h : SameRing s s') : s'.Live cfg i ↔ s.Live cfg i := by
  rw [Live, Live, place, place, h.head, h.occupancy]

theorem SameRing.place (h : SameRing s s') : s'.place cfg i = s.place cfg i := by
  rw [O3Cpu.place, O3Cpu.place, h.head]

theorem SameRing.older (h : SameRing s s') : s'.Older cfg p i ↔ s.Older cfg p i := by
  rw [Older, Older, h.live, h.place, h.place]

theorem SameRing.ringOk (h : SameRing s s') (hr : s.RingOk cfg) : s'.RingOk cfg := by
  obtain ⟨h₁, h₂, h₃⟩ := hr
  exact ⟨h.head ▸ h₁, h.occupancy ▸ h₂, by rw [h.tail, h.head, h.occupancy, h₃]⟩

theorem RingOk.pos (h : s.RingOk cfg) : 0 < cfg.robSize := Nat.zero_lt_of_lt h.head_lt

theorem RingOk.tail_lt (h : s.RingOk cfg) : s.rob.tail < cfg.robSize := by
  rcases h.occupancy_le.lt_or_eq with hlt | heq
  · exact h.tail_eq ▸ Ring.index_lt h.head_lt hlt
  · rw [h.tail_eq, Ring.index, heq, if_neg (by omega)]
    have := h.head_lt
    omega

/-- The slot at the head is live when there is an instruction. -/
theorem RingOk.live_head (h : s.RingOk cfg) (ho : 0 < s.rob.occupancy) :
    s.Live cfg s.rob.head :=
  ⟨h.head_lt, by rw [place, Ring.place_head]; exact ho⟩

/-- The slot at the tail is free when the buffer is not full. -/
theorem RingOk.place_tail (h : s.RingOk cfg) (ho : s.rob.occupancy < cfg.robSize) :
    s.place cfg s.rob.tail = s.rob.occupancy := by
  rw [place, h.tail_eq, Ring.place_index h.head_lt ho]

theorem RingOk.not_live_tail (h : s.RingOk cfg) (ho : s.rob.occupancy < cfg.robSize) :
    ¬ s.Live cfg s.rob.tail := fun hl => by
  have := hl.2
  rw [h.place_tail ho] at this
  exact lt_irrefl _ this

/-- Live slots at the same place are the same. -/
theorem RingOk.eq_of_place (h : s.RingOk cfg) (hp : p < cfg.robSize) (hi : i < cfg.robSize)
    (heq : s.place cfg p = s.place cfg i) : p = i := Ring.place_inj h.head_lt hp hi heq

/-- Of two live slots, one is older or they are the same. -/
theorem RingOk.older_or (h : s.RingOk cfg) (hp : s.Live cfg p) (hi : s.Live cfg i) :
    p = i ∨ s.Older cfg p i ∨ s.Older cfg i p := by
  rcases lt_trichotomy (s.place cfg p) (s.place cfg i) with hlt | heq | hlt
  · exact .inr (.inl ⟨hp.1, hlt, hi⟩)
  · exact .inl (h.eq_of_place hp.1 hi.1 heq)
  · exact .inr (.inr ⟨hi.1, hlt, hp⟩)

/-- No instruction is older than the one at the head. -/
theorem Older.ne_head (h : s.Older cfg p i) : i ≠ s.rob.head := by
  rintro rfl
  have := h.2.1
  rw [place, place, Ring.place_head] at this
  exact absurd this (Nat.not_lt_zero _)

/-! ## Adding an instruction -/

/-- The ends of the buffer after an instruction was added. -/
structure Pushed (cfg : CoreConfig) (s s' : O3Cpu) : Prop where
  head : s'.rob.head = s.rob.head
  tail : s'.rob.tail = Ring.next cfg.robSize s.rob.tail
  occupancy : s'.rob.occupancy = s.rob.occupancy + 1

theorem Pushed.ringOk (h : Pushed cfg s s') (hr : s.RingOk cfg)
    (ho : s.rob.occupancy < cfg.robSize) : s'.RingOk cfg := by
  refine ⟨h.head ▸ hr.head_lt, h.occupancy ▸ ho, ?_⟩
  rw [h.tail, h.head, h.occupancy, hr.tail_eq, Ring.next_index hr.head_lt ho]

theorem Pushed.live (h : Pushed cfg s s') (hr : s.RingOk cfg) (ho : s.rob.occupancy < cfg.robSize) :
    s'.Live cfg i ↔ s.Live cfg i ∨ i = s.rob.tail := by
  rw [Live, Live, place, place, h.head, h.occupancy]
  constructor
  · rintro ⟨hi, hp⟩
    rcases (Nat.lt_succ_iff.1 hp).lt_or_eq with hlt | heq
    · exact .inl ⟨hi, hlt⟩
    · exact .inr (hr.eq_of_place hi hr.tail_lt (heq.trans (hr.place_tail ho).symm))
  · rintro (⟨hi, hp⟩ | rfl)
    · exact ⟨hi, by omega⟩
    · exact ⟨hr.tail_lt, (hr.place_tail ho).trans_lt (Nat.lt_succ_self _)⟩

theorem Pushed.older (h : Pushed cfg s s') (hr : s.RingOk cfg)
    (ho : s.rob.occupancy < cfg.robSize) :
    s'.Older cfg p i ↔ s.Older cfg p i ∨ (s.Live cfg p ∧ i = s.rob.tail) := by
  rw [Older, h.live hr ho, place, place, h.head]
  constructor
  · rintro ⟨hp, hlt, hi | rfl⟩
    · exact .inl ⟨hp, hlt, hi⟩
    · exact .inr ⟨⟨hp, hlt.trans_eq (hr.place_tail ho)⟩, rfl⟩
  · rintro (⟨hp, hlt, hi⟩ | ⟨hp, rfl⟩)
    · exact ⟨hp, hlt, .inl hi⟩
    · exact ⟨hp.1, hp.2.trans_eq (hr.place_tail ho).symm, .inr rfl⟩

/-! ## Retiring an instruction -/

/-- The ends of the buffer after the instruction at the head was retired. -/
structure Popped (cfg : CoreConfig) (s s' : O3Cpu) : Prop where
  head : s'.rob.head = Ring.next cfg.robSize s.rob.head
  tail : s'.rob.tail = s.rob.tail
  occupancy : s'.rob.occupancy + 1 = s.rob.occupancy

theorem Popped.ringOk (h : Popped cfg s s') (hr : s.RingOk cfg) : s'.RingOk cfg := by
  have hh := hr.head_lt
  have ho := hr.occupancy_le
  have hocc := h.occupancy
  refine ⟨h.head ▸ Ring.next_lt hh, by omega, ?_⟩
  rw [h.tail, h.head, hr.tail_eq, ← hocc, Ring.index, Ring.index, Ring.next]
  split <;> split <;> split <;> omega

theorem Popped.place (h : Popped cfg s s') (hr : s.RingOk cfg) (hi : i < cfg.robSize)
    (hne : i ≠ s.rob.head) : s'.place cfg i + 1 = s.place cfg i := by
  rw [O3Cpu.place, O3Cpu.place, h.head, Ring.place_next hr.head_lt hi hne]

theorem Popped.live (h : Popped cfg s s') (hr : s.RingOk cfg) :
    s'.Live cfg i ↔ s.Live cfg i ∧ i ≠ s.rob.head := by
  have hocc := h.occupancy
  have hle := hr.occupancy_le
  constructor
  · rintro ⟨hi, hp⟩
    by_cases hne : i = s.rob.head
    · subst hne
      have hself := Ring.place_next_self (n := cfg.robSize) hr.head_lt
      rw [O3Cpu.place, h.head] at hp
      omega
    · have := h.place hr hi hne
      exact ⟨⟨hi, by omega⟩, hne⟩
  · rintro ⟨⟨hi, hp⟩, hne⟩
    have := h.place hr hi hne
    exact ⟨hi, by omega⟩

theorem Popped.older (h : Popped cfg s s') (hr : s.RingOk cfg) :
    s'.Older cfg p i ↔ s.Older cfg p i ∧ p ≠ s.rob.head := by
  constructor
  · rintro ho
    obtain ⟨hp, hne⟩ := (h.live hr).1 ho.live_left
    obtain ⟨hi, hne'⟩ := (h.live hr).1 ho.live
    have := h.place hr hp.1 hne
    have := h.place hr hi.1 hne'
    have := ho.2.1
    exact ⟨⟨hp.1, by omega, hi⟩, hne⟩
  · rintro ⟨ho, hne⟩
    have := h.place hr ho.1 hne
    have := h.place hr ho.live.1 ho.ne_head
    have := ho.2.1
    exact ⟨ho.1, by omega, (h.live hr).2 ⟨ho.live, ho.ne_head⟩⟩

/-! ## The loops over the buffer -/

/-- The instructions that `reg_dependency` and `add_load_queue` visit are the older ones. -/
theorem older_of_mem_priors (hr : s.RingOk cfg) (hi : s.Live cfg i)
    (hp : p ∈ s.priors cfg i) : s.Older cfg p i := by
  have hh := hr.head_lt
  obtain ⟨hin, hocc⟩ := hi
  rw [priors] at hp
  split at hp
  · simp at hp
  rename_i hne
  have hplace : p < cfg.robSize ∧ s.place cfg p < s.place cfg i := by
    simp only [place, Ring.place]
    -- the slot before the first one is the last
    generalize hq : (if i = 0 then cfg.robSize - 1 else i - 1) = q at hp
    have hq' : i = 0 ∧ q + 1 = cfg.robSize ∨ 0 < i ∧ q + 1 = i := by
      split at hq <;> omega
    by_cases hle : s.rob.head ≤ q
    · rw [if_pos hle, List.mem_reverse, List.mem_range'_1] at hp
      split <;> split <;> omega
    · rw [if_neg hle, List.mem_append, List.mem_reverse, List.mem_reverse, List.mem_range,
        List.mem_range'_1] at hp
      split <;> split <;> omega
  exact ⟨hplace.1, hplace.2, hin, hocc⟩

end

end O3Cpu

end Arishem
