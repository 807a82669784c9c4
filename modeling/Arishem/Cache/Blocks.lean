import Arishem.Cache.Steps

/-!
# What steps do to the blocks

The tags, valid bits and dirty bits after the block updates of the handlers. The replacement state
and the bits of the prefetch statistics change at every access; none of this concerns which lines a
cache holds.
-/

namespace Arishem

namespace Cache

section
variable {cfg : Config} {set way s w : ℕ} {type : AccessType} {hit : Bool} {p : Packet}
variable {bs : ℕ → ℕ → Block} {c : Cache}

/-- The replacement policy changes only its own state. -/
theorem updateReplacementState_eq (cfg : Config) (set way s w : ℕ) (type : AccessType) (hit : Bool)
    (bs : ℕ → ℕ → Block) :
    ∃ n, updateReplacementState cfg set way type hit bs s w = { bs s w with lru := n } := by
  rw [updateReplacementState]
  split_ifs
  · exact ⟨(bs s w).lru, rfl⟩
  · rw [lruUpdate]
    split_ifs
    · exact ⟨0, rfl⟩
    · exact ⟨(bs s w).lru + 1, rfl⟩
    · exact ⟨(bs s w).lru, rfl⟩

@[simp] theorem updateReplacementState_valid :
    (updateReplacementState cfg set way type hit bs s w).valid = (bs s w).valid := by
  obtain ⟨n, h⟩ := updateReplacementState_eq cfg set way s w type hit bs
  rw [h]

@[simp] theorem updateReplacementState_tag :
    (updateReplacementState cfg set way type hit bs s w).tag = (bs s w).tag := by
  obtain ⟨n, h⟩ := updateReplacementState_eq cfg set way s w type hit bs
  rw [h]

@[simp] theorem updateReplacementState_address :
    (updateReplacementState cfg set way type hit bs s w).address = (bs s w).address := by
  obtain ⟨n, h⟩ := updateReplacementState_eq cfg set way s w type hit bs
  rw [h]

@[simp] theorem updateReplacementState_dirty :
    (updateReplacementState cfg set way type hit bs s w).dirty = (bs s w).dirty := by
  obtain ⟨n, h⟩ := updateReplacementState_eq cfg set way s w type hit bs
  rw [h]

@[simp] theorem markDirty_valid : (markDirty set way bs s w).valid = (bs s w).valid := by
  simp only [markDirty, setBlock]
  split_ifs with h
  · rw [h.1, h.2]
  · rfl

@[simp] theorem markDirty_tag : (markDirty set way bs s w).tag = (bs s w).tag := by
  simp only [markDirty, setBlock]
  split_ifs with h
  · rw [h.1, h.2]
  · rfl

@[simp] theorem markDirty_address : (markDirty set way bs s w).address = (bs s w).address := by
  simp only [markDirty, setBlock]
  split_ifs with h
  · rw [h.1, h.2]
  · rfl

theorem markDirty_dirty :
    (markDirty set way bs s w).dirty = if s = set ∧ w = way then true else (bs s w).dirty := by
  simp only [markDirty, setBlock]
  split_ifs <;> rfl

@[simp] theorem markUsed_valid : (markUsed set way bs s w).valid = (bs s w).valid := by
  simp only [markUsed, setBlock]
  split_ifs with h
  · rw [h.1, h.2]
  · rfl

@[simp] theorem markUsed_tag : (markUsed set way bs s w).tag = (bs s w).tag := by
  simp only [markUsed, setBlock]
  split_ifs with h
  · rw [h.1, h.2]
  · rfl

@[simp] theorem markUsed_address : (markUsed set way bs s w).address = (bs s w).address := by
  simp only [markUsed, setBlock]
  split_ifs with h
  · rw [h.1, h.2]
  · rfl

@[simp] theorem markUsed_dirty : (markUsed set way bs s w).dirty = (bs s w).dirty := by
  simp only [markUsed, setBlock]
  split_ifs with h
  · rw [h.1, h.2]
  · rfl

@[simp] theorem markRfo_valid : (markRfo cfg set way p bs s w).valid = (bs s w).valid := by
  rw [markRfo]
  split_ifs <;> simp

@[simp] theorem markRfo_tag : (markRfo cfg set way p bs s w).tag = (bs s w).tag := by
  rw [markRfo]
  split_ifs <;> simp

@[simp] theorem markRfo_address : (markRfo cfg set way p bs s w).address = (bs s w).address := by
  rw [markRfo]
  split_ifs <;> simp

/-- The blocks after a fill, up to the replacement state: the packet's line in one way. -/
theorem install_valid : ((c.install cfg set way p).block s w).valid =
    if s = set ∧ w = way then true else (c.block s w).valid := by
  simp only [install, fillCache, setBlock]
  split_ifs with h
  · rfl
  · simp

theorem install_tag : ((c.install cfg set way p).block s w).tag =
    if s = set ∧ w = way then p.address else (c.block s w).tag := by
  simp only [install, fillCache, setBlock]
  split_ifs with h
  · rfl
  · simp

theorem install_address : ((c.install cfg set way p).block s w).address =
    if s = set ∧ w = way then p.address else (c.block s w).address := by
  simp only [install, fillCache, setBlock]
  split_ifs with h
  · rfl
  · simp

theorem install_dirty : ((c.install cfg set way p).block s w).dirty =
    if s = set ∧ w = way then false else (c.block s w).dirty := by
  simp only [install, fillCache, setBlock]
  split_ifs with h
  · rfl
  · simp

end

/-! ## Lookups -/

section
variable {cfg : Config} {env : Env} {a : Addr} {way : ℕ} {p : Packet} {c : Cache}

/-- A way that is found holds the line. -/
theorem findWay_some (h : c.findWay cfg a = some way) :
    way < cfg.numWay ∧ (c.block (cfg.getSet a) way).valid = true ∧
      (c.block (cfg.getSet a) way).tag = a := by
  have hp := List.find?_some h
  have hm := List.mem_of_find?_eq_some h
  rw [List.mem_range] at hm
  obtain ⟨hv, ht⟩ : (c.block (cfg.getSet a) way).valid = true ∧
      (c.block (cfg.getSet a) way).tag = a := by simpa using hp
  exact ⟨hm, hv, ht⟩

/-- No way is found when none holds the line. -/
theorem findWay_none : c.findWay cfg a = none ↔
    ∀ w < cfg.numWay, (c.block (cfg.getSet a) w).valid = true →
      (c.block (cfg.getSet a) w).tag ≠ a := by
  simp [findWay, List.find?_eq_none]

/-- The way that stands for a line: way 0 in a perfect cache, else the way with the line's tag. -/
def holdingWay (cfg : Config) (a : Addr) (c : Cache) : Option ℕ :=
  if cfg.hasKnob && cfg.perfect then some 0 else c.findWay cfg a

/-- No way stands for a line that a cache, not being perfect, does not hold. -/
theorem holdingWay_none : c.holdingWay cfg a = none ↔
    (cfg.hasKnob && cfg.perfect) = false ∧ c.findWay cfg a = none := by
  rw [holdingWay]
  split
  · simp_all
  · simp_all

/-- A miss means that no way holds the line. -/
theorem holdingWay_of_miss {buffer : List UInt64} (h : c.checkHit cfg p = (none, buffer)) :
    c.holdingWay cfg p.address = none := by
  rw [checkHit] at h
  rw [holdingWay_none]
  split_ifs at h with hperf hsemi
  · cases h
  · refine ⟨by simpa using hperf, ?_⟩
    split at h
    · cases h
    · exact congrArg Prod.fst h
  · exact ⟨by simpa using hperf, congrArg Prod.fst h⟩

/-- Only a load can hit by its page: any other packet hits where its line is. -/
theorem holdingWay_of_hit {buffer : List UInt64} (ht : p.type ≠ .load)
    (h : c.checkHit cfg p = (some way, buffer)) : c.holdingWay cfg p.address = some way := by
  rw [checkHit] at h
  rw [holdingWay]
  split_ifs at h ⊢ with hperf hsemi
  · exact congrArg Prod.fst h
  · simp [ht] at hsemi
  · exact congrArg Prod.fst h

@[simp] theorem withMetadata_address : (withMetadata cfg env p).address = p.address := by
  rw [withMetadata]
  split <;> rfl

@[simp] theorem withMetadata_type : (withMetadata cfg env p).type = p.type := by
  rw [withMetadata]
  split <;> rfl

@[simp] theorem prefetchOperated_address : (prefetchOperated cfg env p).address = p.address := by
  rw [prefetchOperated]
  split <;> simp

/-- A victim is a way of its set. -/
theorem Victim.lt {evs : List Event} (h : Victim cfg env c p way evs) : way < cfg.numWay := by
  have hf := h.found
  rw [findVictim] at hf
  split at hf
  · rename_i ht
    split at hf
    · rename_i hle
      obtain rfl := Option.some.inj hf
      exact lt_of_le_of_ne hle fun he => h.cached ⟨ht, he⟩
    · cases hf
  · rw [lruVictim] at hf
    split at hf
    · rename_i w hw
      obtain rfl := Option.some.inj hf
      exact List.mem_range.1 (List.mem_of_find?_eq_some hw)
    · exact List.mem_range.1 (List.mem_of_find?_eq_some hf)

end

end Cache

end Arishem
