import Arishem.Prefetchers.DsPatch

/-!
# Coverage

As long as its counter is not saturated, the coverage pattern of an entry takes in what is observed: for
a first access at the same offset it then predicts every line that was observed, and every line that it
predicted before. The accuracy pattern predicts some of these lines. The number of lines of a region is
a power of two, so a granularity that divides it divides the size of a bitmap.
-/

namespace Arishem

namespace DsPatch

open Bitmap

section
variable (k : Knobs) (nan : ℕ)

/-- The granularity divides the region. -/
def Admissible : Prop := k.compressionGranularity ∣ k.numCachelinesInRegion

/-- The counter of the coverage pattern is below its maximum when the pattern is updated. -/
def BelowMax (e : SPTEntry) (real : Bitmap) : Prop :=
  ∀ cov acc, decompress k e.bmpCov = some cov → decompress k e.bmpAcc = some acc →
    (updateCounters k nan e real cov acc).measureCovP < k.measureCovPMax

/-- For a first access like that of the page, the new entry predicts what was observed there and what
the old one predicted, and its accuracy pattern predicts no more. -/
structure Covers (e e' : SPTEntry) (pb : PBEntry) : Prop where
  observed : ∃ cov', predicted k e'.bmpCov pb.triggerOffset = some cov' ∧ Sub pb.bmpReal cov'
  kept : ∃ cov cov', predicted k e.bmpCov pb.triggerOffset = some cov ∧
    predicted k e'.bmpCov pb.triggerOffset = some cov' ∧ Sub cov cov'
  accurate : ∃ acc' cov', predicted k e'.bmpAcc pb.triggerOffset = some acc' ∧
    predicted k e'.bmpCov pb.triggerOffset = some cov' ∧ Sub acc' cov'

/-- The coverage pattern covers what it learned, by way of rotations that are undone and of the least
unions of blocks. -/
structure LearnsCoverage : Prop where
  covers : ∀ (nan : ℕ) (s : DsPatch) (pb : PBEntry) (e : SPTEntry),
    s.spt[getSptIndex k (createSignature pb.triggerPc)]? = some e →
    pb.triggerOffset < k.numCachelinesInRegion → pb.bmpReal.Within k.numCachelinesInRegion →
    BelowMax k nan e (anchored k pb) →
    ∃ s' e', s.addToSpt k nan pb = some s' ∧
      s'.spt[getSptIndex k (createSignature pb.triggerPc)]? = some e' ∧ Covers k e e' pb
  undone : ∀ (bmp : Bitmap) (t : ℕ), bmp.Within k.numCachelinesInRegion →
    t < k.numCachelinesInRegion →
    (bmp.rotateRight t k.numCachelinesInRegion).rotateLeft t k.numCachelinesInRegion = bmp
  least : ∀ bmp : Bitmap, bmp.Within k.numCachelinesInRegion →
    ∃ small large, compress k bmp = some small ∧ decompress k small = some large ∧
      LeastBlocks bmp large k.compressionGranularity

end

section
variable {k : Knobs} {nan : ℕ} {real bmp bmp' : Bitmap} {e e' : SPTEntry}

/-! ## Regions -/

theorem numCachelinesInRegion_eq (k : Knobs) :
    k.numCachelinesInRegion = 2 ^ (k.log2RegionSize - 6) := by
  rw [Knobs.numCachelinesInRegion, Nat.one_shiftLeft]

theorem numCachelinesInRegion_dvd (k : Knobs) : k.numCachelinesInRegion ∣ 64 := by
  have hle := k.log2RegionSize_le
  rw [numCachelinesInRegion_eq]
  exact Nat.pow_dvd_pow 2 (show k.log2RegionSize - 6 ≤ 6 by omega)

theorem numCachelinesInRegion_pos (k : Knobs) : 0 < k.numCachelinesInRegion := by
  rw [numCachelinesInRegion_eq]
  exact Nat.two_pow_pos _

theorem numCachelinesInRegion_le (k : Knobs) : k.numCachelinesInRegion ≤ 64 :=
  Nat.le_of_dvd (Nat.zero_lt_succ _) (numCachelinesInRegion_dvd k)

theorem Admissible.pos (h : Admissible k) : 0 < k.compressionGranularity :=
  Nat.pos_of_dvd_of_pos h (numCachelinesInRegion_pos k)

theorem Admissible.dvd (h : Admissible k) : k.compressionGranularity ∣ 64 :=
  Nat.dvd_trans h (numCachelinesInRegion_dvd k)

/-! ## Patterns -/

/-- The lines of a pattern, relative to the first access. -/
def lines (k : Knobs) (bmp : Bitmap) : Bitmap :=
  bmp.spread k.compressionGranularity k.numCachelinesInRegion

/-- The pattern of some lines. -/
def pattern (k : Knobs) (bmp : Bitmap) : Bitmap := bmp.squeeze k.compressionGranularity 64

theorem decompress_eq (k : Knobs) (bmp : Bitmap) : decompress k bmp = some (lines k bmp) :=
  if_neg (Nat.not_lt.2 k.granularity_le)

theorem compress_eq (h : Admissible k) (bmp : Bitmap) : compress k bmp = some (pattern k bmp) := by
  refine if_neg fun hassert => ?_
  rcases hassert with hzero | hmod
  · exact Nat.ne_of_gt h.pos hzero
  · exact hmod (Nat.mod_eq_zero_of_dvd h.dvd)

theorem predicted_eq (k : Knobs) (bmp : Bitmap) (offset : ℕ) : predicted k bmp offset =
    some ((lines k bmp).rotateLeft offset k.numCachelinesInRegion) := by
  rw [predicted, decompress_eq]
  rfl

/-- The blocks of a pattern are counted up to the number of lines. -/
def InBlocks (k : Knobs) (bmp : Bitmap) : Prop :=
  ∀ i, bmp.getLsbD i = true → i / k.compressionGranularity < k.numCachelinesInRegion

theorem inBlocks_of_within (h : bmp.Within k.numCachelinesInRegion) : InBlocks k bmp :=
  fun i hi => div_lt_of_lt _ (h i hi)

theorem inBlocks_lines (h : Admissible k) (bmp : Bitmap) : InBlocks k (lines k bmp) :=
  fun i hi => ((getLsbD_spread h.pos bmp _ i).1 hi).1

theorem InBlocks.bitwiseOr (h : InBlocks k bmp) (h' : InBlocks k bmp') :
    InBlocks k (bmp.bitwiseOr bmp') := by
  intro i hi
  rw [getLsbD_bitwiseOr, Bool.or_eq_true] at hi
  exact hi.elim (h i) (h' i)

/-- The pattern of some lines has these lines. -/
theorem sub_lines_pattern (h : Admissible k) (hbmp : InBlocks k bmp) :
    Sub bmp (lines k (pattern k bmp)) := by
  intro i hi
  exact (getLsbD_spread_squeeze h.pos h.dvd bmp _ i).2
    ⟨hbmp i hi, BitVec.lt_of_getLsbD hi, i, rfl, hi⟩

/-- The blocks of some of the lines of a pattern are blocks of the pattern. -/
theorem lines_pattern_sub (h : Admissible k) (hsub : Sub bmp (lines k bmp')) :
    Sub (lines k (pattern k bmp)) (lines k bmp') := by
  intro i hi
  obtain ⟨hn, hlt, j, hj, hbit⟩ := (getLsbD_spread_squeeze h.pos h.dvd bmp _ i).1 hi
  obtain ⟨-, -, hblock⟩ := (getLsbD_spread h.pos bmp' _ j).1 (hsub j hbit)
  rw [hj] at hblock
  exact (getLsbD_spread h.pos bmp' _ i).2 ⟨hn, hlt, hblock⟩

theorem bitwiseAnd_sub (bmp bmp' : Bitmap) : Sub (bmp.bitwiseAnd bmp') bmp' := by
  intro i hi
  rw [getLsbD_bitwiseAnd, Bool.and_eq_true] at hi
  exact hi.2

/-! ## Learning -/

theorem bmpAcc_updateAcc (h : Admissible k) (nan : ℕ) (e : SPTEntry) (real cov acc : Bitmap) :
    ∃ e', updateAcc k nan e real cov acc = some e' ∧ e'.bmpCov = e.bmpCov ∧
      e'.bmpAcc = pattern k (real.bitwiseAnd (lines k e.bmpCov)) := by
  rw [updateAcc, decompress_eq, Option.bind_some, compress_eq h]
  exact ⟨_, rfl, rfl, rfl⟩

/-- What happens to the coverage pattern: it takes in the observed lines, or gives way to them, or is
kept. -/
inductive Covs (k : Knobs) (nan : ℕ) (bw : UInt8) (e : SPTEntry) (real : Bitmap) : Bitmap → Prop
  | takes (h : (updateCounters k nan e real (lines k e.bmpCov) (lines k e.bmpAcc)).measureCovP ≠
      k.measureCovPMax) :
    Covs k nan bw e real (pattern k ((lines k e.bmpCov).bitwiseOr real))
  | gives (h : (updateCounters k nan e real (lines k e.bmpCov) (lines k e.bmpAcc)).measureCovP =
      k.measureCovPMax) : Covs k nan bw e real (pattern k real)
  | keeps (h : (updateCounters k nan e real (lines k e.bmpCov) (lines k e.bmpAcc)).measureCovP =
      k.measureCovPMax)
    (hcov : 50 ≤ percent nan ((lines k e.bmpCov).countBitsSame real) real.countBitsSet) :
    Covs k nan bw e real e.bmpCov

theorem bmpCov_updateCounters (k : Knobs) (nan : ℕ) (e : SPTEntry) (real cov acc : Bitmap) :
    (updateCounters k nan e real cov acc).bmpCov = e.bmpCov := by
  rw [updateCounters]
  split <;> split <;> rfl

/-- What `add_to_spt` leaves in an entry. -/
theorem learn_spec (h : Admissible k) (nan : ℕ) (bw : UInt8) (e : SPTEntry) (real : Bitmap) :
    ∃ e', learn k nan bw e real = some e' ∧ Covs k nan bw e real e'.bmpCov ∧
      e'.bmpAcc = pattern k (real.bitwiseAnd (lines k e'.bmpCov)) := by
  rw [learn, decompress_eq, Option.bind_some, decompress_eq, Option.bind_some]
  have hcov := bmpCov_updateCounters k nan e real (lines k e.bmpCov) (lines k e.bmpAcc)
  obtain ⟨e₁, hupdate, hcovs⟩ : ∃ e₁, updateCov k nan bw
      (updateCounters k nan e real (lines k e.bmpCov) (lines k e.bmpAcc)) real
      (lines k e.bmpCov) (lines k e.bmpAcc) = some e₁ ∧ Covs k nan bw e real e₁.bmpCov := by
    rw [updateCov]
    split
    · rename_i hmax
      split
      · rw [compress_eq h]
        exact ⟨_, rfl, .gives hmax⟩
      · rename_i hkeep
        rw [not_or, Nat.not_lt] at hkeep
        refine ⟨_, rfl, ?_⟩
        rw [hcov]
        exact .keeps hmax hkeep.2
    · rename_i hbelow
      rw [compress_eq h]
      exact ⟨_, rfl, .takes hbelow⟩
  obtain ⟨e', hacc, hsame, hbmp⟩ :=
    bmpAcc_updateAcc h nan e₁ real (lines k e.bmpCov) (lines k e.bmpAcc)
  rw [hupdate, Option.bind_some]
  refine ⟨e', hacc, ?_, ?_⟩
  · rw [hsame]
    exact hcovs
  · rw [hsame]
    exact hbmp

/-- An entry whose counter is below its maximum covers what it learns. -/
theorem covers_learn (h : Admissible k) (bw : UInt8) {pb : PBEntry}
    (ht : pb.triggerOffset < k.numCachelinesInRegion)
    (hreal : pb.bmpReal.Within k.numCachelinesInRegion)
    (hbelow : BelowMax k nan e (anchored k pb)) :
    ∃ e', learn k nan bw e (anchored k pb) = some e' ∧ Covers k e e' pb := by
  have hn := numCachelinesInRegion_le k
  obtain ⟨e', hlearn, hcovs, hacc⟩ := learn_spec h nan bw e (anchored k pb)
  have hlt := hbelow _ _ (decompress_eq k e.bmpCov) (decompress_eq k e.bmpAcc)
  have hcov : e'.bmpCov = pattern k ((lines k e.bmpCov).bitwiseOr (anchored k pb)) := by
    generalize hbmp : e'.bmpCov = bmp at hcovs
    cases hcovs with
    | takes => rfl
    | gives hmax | keeps hmax => exact absurd hmax (Nat.ne_of_lt hlt)
  have hblocks : InBlocks k ((lines k e.bmpCov).bitwiseOr (anchored k pb)) :=
    (inBlocks_lines h _).bitwiseOr (inBlocks_of_within (within_rotateRight ht hn))
  have hsub := sub_lines_pattern h hblocks
  rw [← hcov] at hsub
  refine ⟨e', hlearn, ⟨_, predicted_eq .., ?_⟩, ⟨_, _, predicted_eq .., predicted_eq .., ?_⟩,
    ⟨_, _, predicted_eq .., predicted_eq .., ?_⟩⟩
  · -- what was observed, rotated back
    have hobserved : Sub (anchored k pb) (lines k e'.bmpCov) := by
      refine Sub.trans (fun i hi => ?_) hsub
      rw [getLsbD_bitwiseOr, hi, Bool.or_true]
    have hback := hobserved.rotateLeft ht hn
    rwa [anchored, rotateLeft_rotateRight hreal ht hn] at hback
  · refine Sub.rotateLeft (Sub.trans (fun i hi => ?_) hsub) ht hn
    rw [getLsbD_bitwiseOr, hi, Bool.true_or]
  · rw [hacc]
    exact (lines_pattern_sub h (bitwiseAnd_sub _ _)).rotateLeft ht hn

/-- For every region and granularity, what `add_to_spt` leaves in an entry whose counter is below its
maximum covers what was observed and predicted before; rotations are undone, and compressing gives the
least union of blocks. -/
theorem learnsCoverage (k : Knobs) (h : Admissible k) : LearnsCoverage k := by
  refine ⟨fun nan s pb e he ht hreal hbelow => ?_, fun bmp t hbmp ht => ?_, fun bmp hbmp => ?_⟩
  · obtain ⟨e', hlearn, hcovers⟩ := covers_learn h s.bwBucket ht hreal hbelow
    have hlt := (List.getElem?_eq_some_iff.1 he).1
    have hadd : s.addToSpt k nan pb = some { s with
        spt := s.spt.set (getSptIndex k (createSignature pb.triggerPc)) e' } := by
      rw [addToSpt, he, Option.bind_some, hlearn]
      rfl
    exact ⟨_, e', hadd, List.getElem?_set_self hlt, hcovers⟩
  · exact rotateLeft_rotateRight hbmp ht (numCachelinesInRegion_le k)
  · exact ⟨_, _, compress_eq h bmp, decompress_eq k _, leastBlocks h.pos h.dvd hbmp⟩

/-- Regions of 32 lines, in blocks of two. -/
def blocksOfTwo : Knobs where
  log2RegionSize := 11
  pbSize := 64
  numSptEntries := 256
  compressionGranularity := 2
  predThrottleBwThr := 3
  bitmapSelectionPolicy := .hybrid
  getHash := id
  orCountMax := 3
  measureCovPMax := 3
  measureAccPMax := 3
  accThr := 50
  covThr := 50
  enablePrefBuffer := true
  prefBufferSize := 256
  prefDegree := 4
  log2RegionSize_ge := Nat.le_of_ble_eq_true rfl
  log2RegionSize_le := Nat.le_of_ble_eq_true rfl
  granularity_le := Nat.le_of_ble_eq_true rfl
  pbSize_pos := Nat.zero_lt_succ _
  numSptEntries_pos := Nat.zero_lt_succ _

theorem learnsCoverage_blocksOfTwo : LearnsCoverage blocksOfTwo :=
  learnsCoverage blocksOfTwo ⟨16, rfl⟩

end

end DsPatch

end Arishem
