import Arishem.Hierarchy.Translation

/-!
# Invalidated blocks

`invalidate_entry` takes out the block that it finds and no other. The calls for the lines of a page
have different addresses, so they take out the block of each line that is found under its tag.
-/

namespace Arishem

namespace Cache

section
variable {cfg : Config} {c : Cache} {a b : Addr} {s w : ℕ}

/-- A block that is left after `invalidate_entry` was there before, and is not the one found. -/
theorem invalidateEntry_valid (h : ((c.invalidateEntry cfg a).block s w).valid = true) :
    (c.invalidateEntry cfg a).block s w = c.block s w ∧ ¬ c.Finds cfg a s w := by
  rw [invalidateEntry] at h ⊢
  split at h
  · rename_i hf
    refine ⟨rfl, fun hc => ?_⟩
    rw [hc.2] at hf
    cases hf
  · rename_i way hf
    simp only [setBlock] at h ⊢
    split_ifs at h ⊢ with hsw
    refine ⟨rfl, fun hc => hsw ⟨hc.1, ?_⟩⟩
    rw [hc.2] at hf
    exact Option.some.inj hf

/-- `invalidate_entry` changes blocks only. -/
theorem invalidateEntry_eq (cfg : Config) (c : Cache) (a : Addr) :
    ∃ bs, c.invalidateEntry cfg a = { c with block := bs } := by
  rw [invalidateEntry]
  split
  · exact ⟨c.block, rfl⟩
  · exact ⟨_, rfl⟩

/-- `invalidate_entry` leaves the misses alone. -/
@[simp] theorem invalidateEntry_mshr : (c.invalidateEntry cfg a).mshr = c.mshr := by
  obtain ⟨bs, h⟩ := invalidateEntry_eq cfg c a
  rw [h]

/-- `invalidate_entry` for another tag does not change which block is found. -/
theorem findWay_invalidateEntry (hab : a ≠ b) :
    (c.invalidateEntry cfg a).findWay cfg b = c.findWay cfg b := by
  rw [invalidateEntry]
  split
  · rfl
  · rename_i way hf
    obtain ⟨_, hv, ht⟩ := findWay_some hf
    rw [findWay, findWay]
    refine congrArg (List.find? · _) (funext fun w => ?_)
    simp only [setBlock]
    split_ifs with hsw
    · have htag : (c.block (cfg.getSet b) w).tag = a := by rw [hsw.1, hsw.2, ht]
      simp [htag, hab]
    · rfl

/-- A block that is left after several calls of `invalidate_entry`. -/
theorem foldl_invalidateEntry_valid (l : List Addr) :
    ∀ c : Cache, ((l.foldl (fun c a => c.invalidateEntry cfg a) c).block s w).valid = true →
      (l.foldl (fun c a => c.invalidateEntry cfg a) c).block s w = c.block s w ∧
        ∀ a ∈ l, ¬ c.Finds cfg a s w := by
  induction l with
  | nil => exact fun c _ => ⟨rfl, by simp⟩
  | cons b l ih =>
    intro c h
    obtain ⟨heq, hno⟩ := ih _ h
    have hv : ((c.invalidateEntry cfg b).block s w).valid = true := heq ▸ h
    obtain ⟨heq', hb⟩ := invalidateEntry_valid hv
    refine ⟨heq.trans heq', fun a ha hc => ?_⟩
    rcases eq_or_ne b a with rfl | hne
    · exact hb hc
    · refine hno a ((List.mem_cons.1 ha).resolve_left (Ne.symm hne)) ⟨hc.1, ?_⟩
      rw [findWay_invalidateEntry hne]
      exact hc.2

/-- A block that `invalidate_entry` does not find stays. -/
theorem invalidateEntry_block (h : ¬ c.Finds cfg a s w) :
    (c.invalidateEntry cfg a).block s w = c.block s w := by
  rw [invalidateEntry]
  split
  · rfl
  · rename_i way hf
    refine if_neg fun hsw => h ⟨hsw.1, ?_⟩
    rw [hf, hsw.2]

/-- The block that `invalidate_entry` finds is tagged with the address. -/
theorem Finds.tag (h : c.Finds cfg a s w) : (c.block s w).tag = a := by
  obtain ⟨rfl, hf⟩ := h
  exact (findWay_some hf).2.2

/-- `invalidate_entry` for other tags leaves a block alone. -/
theorem foldl_invalidateEntry_other (l : List Addr) : ∀ c : Cache, (c.block s w).tag ∉ l →
    (l.foldl (fun c a => c.invalidateEntry cfg a) c).block s w = c.block s w := by
  induction l with
  | nil => exact fun _ _ => rfl
  | cons b l ih =>
    intro c hl
    obtain ⟨hb, hl⟩ := not_or.1 (mt List.mem_cons.2 hl)
    have hblock : (c.invalidateEntry cfg b).block s w = c.block s w :=
      invalidateEntry_block fun hf => hb hf.tag
    exact (ih _ (by rwa [hblock])).trans hblock

/-- A block that is not found under its tag stays when each tag comes at most once. -/
theorem foldl_invalidateEntry_block (l : List Addr) (hl : l.Nodup) : ∀ c : Cache,
    ¬ c.Finds cfg (c.block s w).tag s w →
    (l.foldl (fun c a => c.invalidateEntry cfg a) c).block s w = c.block s w := by
  induction l with
  | nil => exact fun _ _ => rfl
  | cons b l ih =>
    intro c hno
    obtain ⟨hb, hl⟩ := List.nodup_cons.1 hl
    have hblock : (c.invalidateEntry cfg b).block s w = c.block s w :=
      invalidateEntry_block fun hf => hno (hf.tag ▸ hf)
    rcases eq_or_ne b (c.block s w).tag with rfl | hne
    · exact (foldl_invalidateEntry_other l _ (by rwa [hblock])).trans hblock
    · refine (ih hl _ fun hf => hno ?_).trans hblock
      rw [hblock] at hf
      refine ⟨hf.1, ?_⟩
      rw [← findWay_invalidateEntry hne]
      exact hf.2

/-- A line address is put together from its page and its number in the page. -/
theorem line_eq (a : Addr) :
    ∃ i < blockSize, a = ((a >>> log2BlockSize) <<< log2BlockSize) ||| UInt64.ofNat i := by
  have hlog : log2BlockSize.toNat % 64 = 6 := by decide
  have hlt : a.toNat < 2 ^ 64 := a.toNat_lt
  have hlow : a.toNat % 2 ^ 6 < 2 ^ 6 := Nat.mod_lt _ (Nat.two_pow_pos 6)
  have hdiv := Nat.div_add_mod a.toNat (2 ^ 6)
  refine ⟨a.toNat % 2 ^ 6, hlow, UInt64.toNat_inj.1 ?_⟩
  rw [UInt64.toNat_or, UInt64.toNat_shiftLeft, UInt64.toNat_shiftRight, hlog, UInt64.toNat_ofNat',
    Nat.shiftRight_eq_div_pow, Nat.shiftLeft_eq, Nat.mod_eq_of_lt (by omega),
    Nat.mod_eq_of_lt (a := a.toNat % 2 ^ 6) (by omega), Nat.mul_comm,
    ← Nat.two_pow_add_eq_or_of_lt hlow, hdiv]

/-- The lines of a page have different addresses. -/
theorem line_inj {ppage : Addr} {i j : ℕ} (hi : i < blockSize) (hj : j < blockSize)
    (h : (ppage <<< log2BlockSize) ||| UInt64.ofNat i =
      (ppage <<< log2BlockSize) ||| UInt64.ofNat j) : i = j := by
  have hlog : log2BlockSize.toNat % 64 = 6 := by decide
  have hi : i < 2 ^ 6 := hi
  have hj : j < 2 ^ 6 := hj
  have hlow : (ppage <<< log2BlockSize).toNat % 2 ^ 6 = 0 := by
    rw [UInt64.toNat_shiftLeft, hlog, Nat.shiftLeft_eq]
    omega
  have hmod (k : ℕ) (hk : k < 2 ^ 6) :
      ((ppage <<< log2BlockSize) ||| UInt64.ofNat k).toNat % 2 ^ 6 = k := by
    rw [UInt64.toNat_or, Nat.or_mod_two_pow, hlow, Nat.zero_or, UInt64.toNat_ofNat']
    omega
  rw [← hmod i hi, h, hmod j hj]

/-- The calls of `invalidate_entry` for a page. -/
theorem invalidatePage_eq {ppage : Addr} : c.invalidatePage cfg ppage =
    ((List.range blockSize).map fun i => (ppage <<< log2BlockSize) ||| UInt64.ofNat i).foldl
      (fun c a => c.invalidateEntry cfg a) c := by
  rw [List.foldl_map]
  rfl

/-- A line of the page that is left after the page was invalidated is not one that is found. -/
theorem invalidatePage_valid {ppage : Addr}
    (h : ((c.invalidatePage cfg ppage).block s w).valid = true) :
    (c.invalidatePage cfg ppage).block s w = c.block s w ∧
      ∀ a, a >>> log2BlockSize = ppage → ¬ c.Finds cfg a s w := by
  rw [invalidatePage_eq] at h ⊢
  obtain ⟨heq, hno⟩ := foldl_invalidateEntry_valid _ c h
  refine ⟨heq, fun a ha => hno a ?_⟩
  obtain ⟨i, hi, he⟩ := line_eq a
  rw [ha] at he
  exact List.mem_map.2 ⟨i, List.mem_range.2 hi, he.symm⟩

/-- A line of the page that is not found under its tag stays when the page is invalidated. -/
theorem invalidatePage_block {ppage : Addr} (h : ¬ c.Finds cfg (c.block s w).tag s w) :
    (c.invalidatePage cfg ppage).block s w = c.block s w := by
  rw [invalidatePage_eq]
  refine foldl_invalidateEntry_block _ (List.Nodup.map_on (fun i hi j hj he => ?_)
    List.nodup_range) c h
  exact line_inj (List.mem_range.1 hi) (List.mem_range.1 hj) he

end

end Cache

end Arishem
