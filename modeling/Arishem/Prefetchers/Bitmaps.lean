import Mathlib.Algebra.GroupWithZero.Nat
import Mathlib.Data.List.Basic

/-!
# Bitmaps

A bitmap has a bit for each line of a region, 64 at most. The helpers write their results bit by bit;
a loop that fills the bits from a place on is described by what it leaves at each place. `compress` and
`decompress` have asserts, and give no bitmap when these fail.
-/

namespace Arishem

/-- `std::bitset<BITMAP_MAX_SIZE>`. -/
abbrev Bitmap := BitVec 64

namespace Bitmap

/-- `bmp[i] = b`. -/
def set (bmp : Bitmap) (i : ℕ) (b : Bool) : Bitmap :=
  if b then bmp ||| BitVec.twoPow 64 i else bmp &&& ~~~ BitVec.twoPow 64 i

/-- The loop that writes `n` bits from a place on. -/
def fill (start : ℕ) (bit : ℕ → Bool) : ℕ → Bitmap → Bitmap
  | 0, bmp => bmp
  | n + 1, bmp => set (fill start bit n bmp) (start + n) (bit n)

/-- `count_bits_set`. -/
def countBitsSet (bmp : Bitmap) : ℕ := (List.range 64).countP fun i => bmp.getLsbD i

/-- `count_bits_same`. -/
def countBitsSame (bmp bmp' : Bitmap) : ℕ :=
  (List.range 64).countP fun i => bmp.getLsbD i && bmp.getLsbD i == bmp'.getLsbD i

/-- `count_bits_diff`. -/
def countBitsDiff (bmp bmp' : Bitmap) : ℕ :=
  (List.range 64).countP fun i => bmp.getLsbD i && !bmp'.getLsbD i

/-- `rotate_left`. -/
def rotateLeft (bmp : Bitmap) (amount size : ℕ) : Bitmap :=
  fill 0 (fun i => bmp.getLsbD (i + size - amount)) amount
    (fill amount (fun i => bmp.getLsbD i) (size - amount) 0)

/-- `rotate_right`. -/
def rotateRight (bmp : Bitmap) (amount size : ℕ) : Bitmap :=
  fill (size - amount) (fun i => bmp.getLsbD i) amount
    (fill 0 (fun i => bmp.getLsbD (i + amount)) (size - amount) 0)

/-- The result of `compress`: a bit for each block. -/
def squeeze (bmp : Bitmap) (granularity size : ℕ) : Bitmap :=
  fill 0 (fun ptr => (List.range granularity).any fun gran =>
    bmp.getLsbD (ptr * granularity + gran)) (size / granularity) 0

/-- `compress`. When blocks fill the bitmap, the second assert does not fail. -/
def compress (bmp : Bitmap) (granularity size : ℕ) : Option Bitmap :=
  if granularity = 0 ∨ size % granularity ≠ 0 then none else some (squeeze bmp granularity size)

/-- The result of `decompress`: a block for each bit. -/
def spread (bmp : Bitmap) (granularity : ℕ) : ℕ → Bitmap
  | 0 => 0
  | index + 1 =>
    if bmp.getLsbD index then
      fill (index * granularity) (fun _ => true) granularity (spread bmp granularity index)
    else spread bmp granularity index

/-- `decompress`. -/
def decompress (bmp : Bitmap) (granularity size : ℕ) : Option Bitmap :=
  if 64 < size * granularity then none else some (spread bmp granularity size)

/-- `bitwise_or`. -/
def bitwiseOr (bmp bmp' : Bitmap) : Bitmap :=
  fill 0 (fun i => bmp.getLsbD i || bmp'.getLsbD i) 64 0

/-- `bitwise_and`. -/
def bitwiseAnd (bmp bmp' : Bitmap) : Bitmap :=
  fill 0 (fun i => bmp.getLsbD i && bmp'.getLsbD i) 64 0

/-! ## Bits -/

theorem getLsbD_set (bmp : Bitmap) (i : ℕ) (b : Bool) (j : ℕ) :
    (bmp.set i b).getLsbD j = if i = j ∧ j < 64 then b else bmp.getLsbD j := by
  rw [set]
  by_cases hj : j < 64
  · cases b with
    | true =>
      rw [if_pos rfl, BitVec.getLsbD_or, BitVec.getLsbD_twoPow]
      by_cases hij : i = j <;> simp [hij, hj]
    | false =>
      rw [if_neg Bool.false_ne_true, BitVec.getLsbD_and, BitVec.getLsbD_not,
        BitVec.getLsbD_twoPow]
      by_cases hij : i = j <;> simp [hij, hj]
  · have hge := Nat.le_of_not_lt hj
    rw [BitVec.getLsbD_of_ge _ _ hge, BitVec.getLsbD_of_ge _ _ hge, if_neg fun h => hj h.2]

/-- What a loop leaves at a place. -/
theorem getLsbD_fill (start : ℕ) (bit : ℕ → Bool) (n : ℕ) (bmp : Bitmap) (j : ℕ) :
    (fill start bit n bmp).getLsbD j =
      if (start ≤ j ∧ j < start + n) ∧ j < 64 then bit (j - start) else bmp.getLsbD j := by
  induction n with
  | zero => rw [fill, if_neg (by omega)]
  | succ n ih =>
    rw [fill, getLsbD_set, ih]
    by_cases hj : start + n = j ∧ j < 64
    · rw [if_pos hj, if_pos (by omega), ← hj.1, Nat.add_sub_cancel_left]
    · rw [if_neg hj]
      congr 1
      rw [eq_iff_iff]
      omega

/-- Every line of the one bitmap is one of the other. -/
def Sub (bmp bmp' : Bitmap) : Prop := ∀ i, bmp.getLsbD i = true → bmp'.getLsbD i = true

/-- The bitmap has the lines of a region of `n` lines only. -/
def Within (bmp : Bitmap) (n : ℕ) : Prop := ∀ i, bmp.getLsbD i = true → i < n

/-- The bitmap is a union of aligned blocks. -/
def Blocky (bmp : Bitmap) (granularity : ℕ) : Prop :=
  ∀ i j, i / granularity = j / granularity → bmp.getLsbD i = bmp.getLsbD j

section
variable {bmp bmp' : Bitmap} {n t g i : ℕ}

theorem Sub.trans {bmp'' : Bitmap} (h : Sub bmp bmp') (h' : Sub bmp' bmp'') : Sub bmp bmp'' :=
  fun i hi => h' i (h i hi)

theorem getLsbD_bitwiseOr (bmp bmp' : Bitmap) (i : ℕ) : (bitwiseOr bmp bmp').getLsbD i =
    (bmp.getLsbD i || bmp'.getLsbD i) := by
  rw [bitwiseOr, getLsbD_fill]
  by_cases hi : i < 64
  · rw [if_pos (by omega), Nat.sub_zero]
  · rw [if_neg (by omega), BitVec.getLsbD_of_ge bmp _ (by omega),
      BitVec.getLsbD_of_ge bmp' _ (by omega)]
    exact BitVec.getLsbD_zero

theorem getLsbD_bitwiseAnd (bmp bmp' : Bitmap) (i : ℕ) : (bitwiseAnd bmp bmp').getLsbD i =
    (bmp.getLsbD i && bmp'.getLsbD i) := by
  rw [bitwiseAnd, getLsbD_fill]
  by_cases hi : i < 64
  · rw [if_pos (by omega), Nat.sub_zero]
  · rw [if_neg (by omega), BitVec.getLsbD_of_ge bmp _ (by omega)]
    exact BitVec.getLsbD_zero

/-! ## Rotations -/

/-- What is left of a line is before it, and what falls off comes in again. -/
theorem getLsbD_rotateLeft (ht : t < n) (hn : n ≤ 64) : (bmp.rotateLeft t n).getLsbD i =
    if i < t then bmp.getLsbD (i + n - t) else if i < n then bmp.getLsbD (i - t) else false := by
  rw [rotateLeft, getLsbD_fill, getLsbD_fill]
  by_cases hit : i < t
  · rw [if_pos (by omega), if_pos hit, Nat.sub_zero]
  · rw [if_neg (by omega), if_neg hit]
    by_cases hin : i < n
    · rw [if_pos (by omega), if_pos hin]
    · rw [if_neg (by omega), if_neg hin]
      exact BitVec.getLsbD_zero

theorem getLsbD_rotateRight (ht : t < n) (hn : n ≤ 64) : (bmp.rotateRight t n).getLsbD i =
    if i < n - t then bmp.getLsbD (i + t) else if i < n then bmp.getLsbD (i + t - n)
      else false := by
  rw [rotateRight, getLsbD_fill, getLsbD_fill]
  by_cases hit : i < n - t
  · rw [if_neg (by omega), if_pos (by omega), if_pos hit, Nat.sub_zero]
  · rw [if_neg hit]
    by_cases hin : i < n
    · rw [if_pos (by omega), if_pos hin]
      congr 1
      omega
    · rw [if_neg (by omega), if_neg (by omega), if_neg hin]
      exact BitVec.getLsbD_zero

/-- A rotation is undone. -/
theorem rotateLeft_rotateRight (hbmp : bmp.Within n) (ht : t < n) (hn : n ≤ 64) :
    (bmp.rotateRight t n).rotateLeft t n = bmp := by
  refine BitVec.eq_of_getLsbD_eq fun i _ => ?_
  rw [getLsbD_rotateLeft ht hn]
  by_cases hit : i < t
  · rw [if_pos hit, getLsbD_rotateRight ht hn, if_neg (by omega), if_pos (by omega)]
    congr 1
    omega
  · rw [if_neg hit]
    by_cases hin : i < n
    · rw [if_pos hin, getLsbD_rotateRight ht hn, if_pos (by omega)]
      congr 1
      omega
    · rw [if_neg hin]
      cases hb : bmp.getLsbD i with
      | false => rfl
      | true => exact absurd (hbmp i hb) hin

theorem within_rotateRight (ht : t < n) (hn : n ≤ 64) : (bmp.rotateRight t n).Within n := by
  intro i hi
  by_contra hin
  rw [getLsbD_rotateRight ht hn, if_neg (by omega), if_neg hin] at hi
  exact Bool.false_ne_true hi

/-- A rotation keeps what is contained. -/
theorem Sub.rotateLeft (h : Sub bmp bmp') (ht : t < n) (hn : n ≤ 64) :
    Sub (bmp.rotateLeft t n) (bmp'.rotateLeft t n) := by
  intro i hi
  rw [getLsbD_rotateLeft ht hn] at hi ⊢
  split
  · rename_i hit
    rw [if_pos hit] at hi
    exact h _ hi
  · rename_i hit
    rw [if_neg hit] at hi
    split
    · rename_i hin
      rw [if_pos hin] at hi
      exact h _ hi
    · rename_i hin
      rw [if_neg hin] at hi
      exact absurd hi Bool.false_ne_true

/-! ## Blocks -/

theorem getLsbD_spread (hg : 0 < g) (bmp : Bitmap) (size i : ℕ) :
    (spread bmp g size).getLsbD i = true ↔
      i / g < size ∧ i < 64 ∧ bmp.getLsbD (i / g) = true := by
  induction size with
  | zero => simp [spread]
  | succ size ih =>
    have hblock : (size * g ≤ i ∧ i < size * g + g) ↔ i / g = size := by
      rw [Nat.div_eq_iff hg]
      omega
    rw [spread]
    cases hb : bmp.getLsbD size with
    | false =>
      rw [if_neg Bool.false_ne_true, ih]
      constructor
      · exact fun h => ⟨Nat.lt_succ_of_lt h.1, h.2⟩
      · rintro ⟨hlt, hi, hbit⟩
        rcases Nat.lt_succ_iff_lt_or_eq.1 hlt with hlt | heq
        · exact ⟨hlt, hi, hbit⟩
        · rw [heq, hb] at hbit
          exact absurd hbit Bool.false_ne_true
    | true =>
      rw [if_pos rfl, getLsbD_fill]
      by_cases hi : i / g = size ∧ i < 64
      · rw [if_pos ⟨hblock.2 hi.1, hi.2⟩, hi.1, hb]
        exact iff_of_true rfl ⟨Nat.lt_succ_self size, hi.2, rfl⟩
      · rw [if_neg fun h => hi ⟨hblock.1 h.1, h.2⟩, ih]
        constructor
        · exact fun h => ⟨Nat.lt_succ_of_lt h.1, h.2⟩
        · rintro ⟨hlt, hi64, hbit⟩
          refine ⟨Nat.lt_of_le_of_ne (Nat.le_of_lt_succ hlt) fun heq => hi ⟨heq, hi64⟩, hi64, hbit⟩

theorem getLsbD_squeeze (hg : 0 < g) (bmp : Bitmap) (size p : ℕ) :
    (squeeze bmp g size).getLsbD p = true ↔
      p < size / g ∧ p < 64 ∧ ∃ j, j / g = p ∧ bmp.getLsbD j = true := by
  have hblock : ((List.range g).any fun gran => bmp.getLsbD (p * g + gran)) = true ↔
      ∃ j, j / g = p ∧ bmp.getLsbD j = true := by
    rw [List.any_eq_true]
    constructor
    · rintro ⟨gran, hgran, hbit⟩
      rw [List.mem_range] at hgran
      refine ⟨p * g + gran, ?_, hbit⟩
      rw [Nat.div_eq_iff hg]
      omega
    · rintro ⟨j, hj, hbit⟩
      rw [Nat.div_eq_iff hg] at hj
      refine ⟨j - p * g, List.mem_range.2 (by omega), ?_⟩
      rw [Nat.add_sub_cancel' hj.1]
      exact hbit
  rw [squeeze, getLsbD_fill, Nat.sub_zero]
  by_cases hp : p < size / g ∧ p < 64
  · rw [if_pos ⟨⟨Nat.zero_le p, by omega⟩, hp.2⟩, hblock, ← and_assoc]
    exact (and_iff_right hp).symm
  · rw [if_neg (by omega), ← and_assoc]
    exact iff_of_false (by simp) fun h => hp h.1

/-- The blocks that have a line. -/
theorem getLsbD_spread_squeeze (hg : 0 < g) (hdvd : g ∣ 64) (bmp : Bitmap) (n i : ℕ) :
    (spread (squeeze bmp g 64) g n).getLsbD i = true ↔
      i / g < n ∧ i < 64 ∧ ∃ j, j / g = i / g ∧ bmp.getLsbD j = true := by
  rw [getLsbD_spread hg, getLsbD_squeeze hg]
  constructor
  · rintro ⟨hn, hi, -, -, hj⟩
    exact ⟨hn, hi, hj⟩
  · rintro ⟨hn, hi, hj⟩
    have hlt : i / g < 64 / g := Nat.div_lt_div_of_lt_of_dvd hdvd hi
    exact ⟨hn, hi, hlt, Nat.lt_of_lt_of_le hlt (Nat.div_le_self 64 g), hj⟩

/-- Compressing and decompressing gives the least union of blocks that has the lines. -/
structure LeastBlocks (bmp bmp' : Bitmap) (g : ℕ) : Prop where
  sub : Sub bmp bmp'
  blocky : Blocky bmp' g
  least : ∀ b, Sub bmp b → Blocky b g → Sub bmp' b

theorem div_lt_of_lt (g : ℕ) (hi : i < n) : i / g < n :=
  Nat.lt_of_le_of_lt (Nat.div_le_self i g) hi

theorem leastBlocks (hg : 0 < g) (hdvd : g ∣ 64) (hbmp : bmp.Within n) :
    LeastBlocks bmp (spread (squeeze bmp g 64) g n) g where
  sub i hi := by
    have hlt := BitVec.lt_of_getLsbD hi
    exact (getLsbD_spread_squeeze hg hdvd bmp n i).2 ⟨div_lt_of_lt g (hbmp i hi), hlt, i, rfl, hi⟩
  blocky i j hij := by
    have hlt : i < 64 ↔ j < 64 := by
      obtain ⟨m, hm⟩ := hdvd
      have hdiv : ∀ x, x < 64 ↔ x / g < m := by
        intro x
        rw [hm, Nat.div_lt_iff_lt_mul hg, Nat.mul_comm]
      rw [hdiv i, hdiv j, hij]
    rw [Bool.eq_iff_iff, getLsbD_spread_squeeze hg hdvd, getLsbD_spread_squeeze hg hdvd, hij, hlt]
  least b hsub hblocky i hi := by
    obtain ⟨-, -, j, hj, hbit⟩ := (getLsbD_spread_squeeze hg hdvd bmp n i).1 hi
    rw [← hblocky j i hj]
    exact hsub j hbit

end

end Bitmap

end Arishem
