import Arishem.Prefetchers.SppTables
import Mathlib.Algebra.BigOperators.Group.Finset.Piecewise
import Mathlib.Algebra.BigOperators.Ring.Finset

/-!
# The counters of SPP

In a set of the pattern table the deltas were counted less often than the signature: the first delta
after a signature enters uncounted, and halving keeps the difference. The confidence of a delta is
therefore below 100, a victim is always found, and the entries of the global register can be replaced.
-/

namespace Arishem

namespace Spp

/-! ## The pattern table -/

namespace PatternSet

/-- The deltas of a page are smaller than the page. -/
def SmallDelta (delta : ℤ) : Prop := -64 < delta ∧ delta < 64

/-- How often the deltas of a set were counted together. -/
def counted (s : PatternSet) : ℕ := ∑ way ∈ Finset.range ptWay, s.cDelta way

/-- `local_conf` of a way. -/
def localConf (s : PatternSet) (way : ℕ) : ℕ := 100 * s.cDelta way / s.cSig

/-- The counters of a set in every run. -/
structure Counts (s : PatternSet) : Prop where
  cSig_le : s.cSig ≤ cSigMax
  counted_lt : s.cSig ≠ 0 → s.counted < s.cSig
  fresh : s.cSig = 0 → ∀ way < ptWay, s.delta way = 0 ∧ s.cDelta way = 0
  distinct : ∀ v < ptWay, ∀ w < ptWay, s.delta v = s.delta w → s.delta v ≠ 0 → v = w
  small : ∀ way < ptWay, SmallDelta (s.delta way)

section
variable {s s' : PatternSet} {currDelta : ℤ} {way : ℕ}

theorem Counts.init : Counts init where
  cSig_le := Nat.zero_le _
  counted_lt h := absurd rfl h
  fresh _ _ _ := ⟨rfl, rfl⟩
  distinct _ _ _ _ _ h := absurd rfl h
  small _ _ := ⟨(by decide : (-64 : ℤ) < 0), (by decide : (0 : ℤ) < 64)⟩

theorem cDelta_le_counted (hway : way < ptWay) : s.cDelta way ≤ s.counted :=
  Finset.single_le_sum (f := s.cDelta) (fun _ _ => Nat.zero_le _) (Finset.mem_range.2 hway)

/-- A delta was counted less often than the maximum. -/
theorem Counts.cDelta_lt (h : Counts s) (hway : way < ptWay) : s.cDelta way < cSigMax := by
  rcases Nat.eq_zero_or_pos s.cSig with hzero | hpos
  · rw [(h.fresh hzero way hway).2]
    decide
  · have hle := cDelta_le_counted (s := s) hway
    have hlt := h.counted_lt hpos.ne'
    have hmax := h.cSig_le
    omega

/-- The deltas that follow a signature share less than all of the confidence. -/
theorem Counts.sum_localConf_lt (h : Counts s) (hcSig : s.cSig ≠ 0) :
    ∑ way ∈ Finset.range ptWay, s.localConf way < 100 := by
  refine Nat.lt_of_mul_lt_mul_left (a := s.cSig) ?_
  calc s.cSig * ∑ way ∈ Finset.range ptWay, s.localConf way
      = ∑ way ∈ Finset.range ptWay, s.cSig * s.localConf way := Finset.mul_sum ..
    _ ≤ ∑ way ∈ Finset.range ptWay, 100 * s.cDelta way :=
        Finset.sum_le_sum fun way _ => Nat.mul_div_le ..
    _ = 100 * s.counted := (Finset.mul_sum ..).symm
    _ < s.cSig * 100 := by
        have hlt := h.counted_lt hcSig
        omega

/-- Halving the counters halves their sum at least. -/
theorem sum_halves_le (f : ℕ → ℕ) (n : ℕ) :
    ∑ way ∈ Finset.range n, f way >>> 1 ≤ (∑ way ∈ Finset.range n, f way) / 2 := by
  induction n with
  | zero => simp
  | succ n ih =>
    rw [Finset.sum_range_succ, Finset.sum_range_succ, Nat.shiftRight_eq_div_pow]
    omega

/-- Counting the signature keeps the difference. -/
theorem countSig_counts (hcSig : s.cSig ≤ cSigMax) (hcounted : s.counted ≤ s.cSig)
    (hdistinct : ∀ v < ptWay, ∀ w < ptWay, s.delta v = s.delta w → s.delta v ≠ 0 → v = w)
    (hsmall : ∀ way < ptWay, SmallDelta (s.delta way)) : Counts s.countSig := by
  have hmax : cSigMax = 15 := rfl
  rw [countSig]
  split
  · have hcSig' : s.cSig = 15 := by omega
    have height : (s.cSig + 1) >>> 1 = 8 := congrArg (fun c => (c + 1) >>> 1) hcSig'
    have hhalf := sum_halves_le s.cDelta ptWay
    have hle : s.counted / 2 ≤ 7 := by omega
    rw [height]
    refine ⟨(by decide : 8 ≤ cSigMax), fun _ => Nat.lt_succ_of_le (hhalf.trans hle),
      fun hzero => absurd hzero (Nat.succ_ne_zero 7), hdistinct, hsmall⟩
  · rename_i hfull
    exact ⟨Nat.not_lt.1 hfull, fun _ => Nat.lt_succ_of_le hcounted,
      fun hzero => absurd hzero (Nat.succ_ne_zero _), hdistinct, hsmall⟩

/-- A set finds a victim. -/
theorem Counts.victimWay_lt (h : Counts s) : s.victimWay < ptWay := by
  rcases Argmax.scanMin_ceiling s.cDelta cSigMax ptWay ptWay with ⟨-, hle⟩ | ⟨a, ha, hscan, -⟩
  · exact absurd (h.cDelta_lt (show 0 < ptWay by decide)) (Nat.not_lt.2 (hle 0 (by decide)))
  · rw [victimWay, hscan]
    exact ha

theorem counted_update (hway : way < ptWay) (c : ℕ) :
    ∑ w ∈ Finset.range ptWay, Function.update s.cDelta way c w + s.cDelta way = s.counted + c := by
  have hmem : way ∈ Finset.range ptWay := Finset.mem_range.2 hway
  rw [Finset.sum_update_of_mem hmem, counted, ← Finset.add_sum_erase _ _ hmem,
    Finset.sdiff_singleton_eq_erase]
  omega

/-- `update_pattern` never fails on a delta that is not 0, and keeps the counters. -/
theorem Counts.update (h : Counts s) (hne : currDelta ≠ 0) (hsmall : SmallDelta currDelta) :
    ∃ s', s.update currDelta = some s' ∧ Counts s' := by
  rw [PatternSet.update]
  have hle : s.counted ≤ s.cSig := by
    rcases Nat.eq_zero_or_pos s.cSig with hzero | hpos
    · rw [counted, Finset.sum_eq_zero fun w hw => (h.fresh hzero w (Finset.mem_range.1 hw)).2]
      exact Nat.zero_le _
    · exact (h.counted_lt hpos.ne').le
  split
  · rename_i way hfind
    obtain ⟨hdelta, hmem, -⟩ := List.find?_range_eq_some.1 hfind
    have hway : way < ptWay := List.mem_range.1 hmem
    have hdelta : s.delta way = currDelta := by simpa using hdelta
    -- a set whose signature was not counted has no such delta
    have hpos : s.cSig ≠ 0 := fun hzero => hne (hdelta ▸ (h.fresh hzero way hway).1)
    refine ⟨_, rfl, countSig_counts h.cSig_le ?_ h.distinct h.small⟩
    have hsum := counted_update (s := s) hway (s.cDelta way + 1)
    have hlt := h.counted_lt hpos
    rw [counted]
    dsimp only
    omega
  · rename_i hnone
    have hvictim := h.victimWay_lt
    have habsent : ∀ way < ptWay, s.delta way ≠ currDelta := by
      simpa [List.find?_eq_none] using hnone
    rw [if_neg hvictim.ne]
    refine ⟨_, rfl, countSig_counts h.cSig_le ?_ ?_ ?_⟩
    · have hsum := counted_update (s := s) hvictim 0
      rw [counted]
      dsimp only
      omega
    · intro v hv w hw
      dsimp only
      rcases eq_or_ne v s.victimWay with rfl | hv' <;> rcases eq_or_ne w s.victimWay with rfl | hw'
      · exact fun _ _ => rfl
      · rw [Function.update_self, Function.update_of_ne hw']
        exact fun heq => absurd heq.symm (habsent w hw)
      · rw [Function.update_self, Function.update_of_ne hv']
        exact fun heq => absurd heq (habsent v hv)
      · rw [Function.update_of_ne hv', Function.update_of_ne hw']
        exact h.distinct v hv w hw
    · intro w hw
      dsimp only
      rcases eq_or_ne w s.victimWay with rfl | hw'
      · rwa [Function.update_self]
      · rw [Function.update_of_ne hw']
        exact h.small w hw

end

end PatternSet

/-- `update_pattern` keeps the counters of all sets. -/
theorem updatePattern_counts {pt : ℕ → PatternSet} (h : ∀ set, (pt set).Counts) (lastSig : ℕ)
    {currDelta : ℤ} (hne : currDelta ≠ 0) (hsmall : PatternSet.SmallDelta currDelta) :
    ∃ pt', updatePattern pt lastSig currDelta = some pt' ∧ ∀ set, (pt' set).Counts := by
  obtain ⟨s', hupdate, hcounts⟩ := (h (ptIndex lastSig)).update hne hsmall
  refine ⟨Function.update pt (ptIndex lastSig) s', by rw [updatePattern, hupdate]; rfl, fun set => ?_⟩
  rcases eq_or_ne set (ptIndex lastSig) with rfl | hset
  · rwa [Function.update_self]
  · rw [Function.update_of_ne hset]
    exact h set

/-! ## The global register -/

namespace GlobalRegister

/-- The entries of the register in runs whose confidences stay below 100. -/
structure Sound (g : GlobalRegister) : Prop where
  confidence_lt : ∀ i < maxGhrEntry, (g.entry i).confidence < 100
  distinct : ∀ i < maxGhrEntry, ∀ j < maxGhrEntry, (g.entry i).valid = true →
    (g.entry j).valid = true → (g.entry i).offset = (g.entry j).offset → i = j

section
variable {g : GlobalRegister} {pfConfidence : ℕ}

theorem Sound.init : Sound init :=
  ⟨fun _ _ => (by decide : 0 < 100), fun _ _ _ _ h => absurd h Bool.false_ne_true⟩

/-- The register finds a victim. -/
theorem Sound.victimWay_lt (h : Sound g) : g.victimWay < maxGhrEntry := by
  rcases Argmax.scanMin_ceiling (fun i => (g.entry i).confidence) 100 maxGhrEntry maxGhrEntry with
    ⟨-, hle⟩ | ⟨a, ha, hscan, -⟩
  · exact absurd (h.confidence_lt 0 (by decide)) (Nat.not_lt.2 (hle 0 (by decide)))
  · rw [victimWay, hscan]
    exact ha

/-- An entry that takes the offset of no other valid entry. -/
theorem Sound.set (h : Sound g) {i : ℕ} {e : GhrEntry} (hconf : e.confidence < 100)
    (hoffset : ∀ j < maxGhrEntry, j ≠ i → (g.entry j).valid = true → (g.entry j).offset ≠ e.offset) :
    Sound { g with entry := Function.update g.entry i e } := by
  refine ⟨fun j hj => ?_, fun j hj k hk => ?_⟩
  · dsimp only
    rcases eq_or_ne j i with rfl | hji
    · rwa [Function.update_self]
    · rw [Function.update_of_ne hji]
      exact h.confidence_lt j hj
  · dsimp only
    rcases eq_or_ne i j with rfl | hij <;> rcases eq_or_ne i k with rfl | hik
    · exact fun _ _ _ => rfl
    · rw [Function.update_self, Function.update_of_ne hik.symm]
      exact fun _ hv heq => absurd heq.symm (hoffset k hk hik.symm hv)
    · rw [Function.update_self, Function.update_of_ne hij.symm]
      exact fun hv _ heq => absurd heq (hoffset j hj hij.symm hv)
    · rw [Function.update_of_ne hij.symm, Function.update_of_ne hik.symm]
      exact h.distinct j hj k hk

/-- `update_entry` finds an entry, and leaves the counters alone. -/
theorem Sound.updateEntry (h : Sound g) (pfSig pfOffset : ℕ) (pfDelta : ℤ)
    (hconf : pfConfidence < 100) :
    ∃ g', g.updateEntry pfSig pfConfidence pfOffset pfDelta = some g' ∧ Sound g' ∧
      g'.pfUseful = g.pfUseful ∧ g'.pfIssued = g.pfIssued ∧
      g'.globalAccuracy = g.globalAccuracy := by
  rw [GlobalRegister.updateEntry]
  split
  · rename_i i hfind
    obtain ⟨hentry, hmem, -⟩ := List.find?_range_eq_some.1 hfind
    have hi : i < maxGhrEntry := List.mem_range.1 hmem
    obtain ⟨hvalid, -⟩ := Bool.and_eq_true_iff.1 hentry
    refine ⟨_, rfl, h.set hconf fun j hj hji hv heq => ?_, rfl, rfl, rfl⟩
    exact hji (h.distinct j hj i hi hv hvalid heq)
  · rename_i hnone
    rw [if_neg (Nat.not_le.2 h.victimWay_lt)]
    refine ⟨_, rfl, h.set hconf fun j hj _ hv heq => ?_, rfl, rfl, rfl⟩
    have hnot := List.find?_eq_none.1 hnone j (List.mem_range.2 hj)
    simp [hv, heq] at hnot

end

end GlobalRegister

end Spp

end Arishem
