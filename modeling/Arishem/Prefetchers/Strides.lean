import Arishem.Prefetchers.Power7
import Mathlib.Algebra.GroupWithZero.Nat
import Mathlib.Algebra.Order.Ring.Int
import Mathlib.Data.List.Basic
import Mathlib.Data.List.Induction

/-!
# Strides

The stride prefetcher alone, with a degree that stays. When an instruction moves by its last stride
again, the loop of `generate_prefetch` counts the degree from 0 on: the line that was demanded comes
first, and the line that is a whole degree of strides away is not reached. The lines are computed
unsigned and cut to 32 bits; up to the first one outside the page this is the arithmetic of integers.
-/

namespace Arishem

namespace StridePrefetcher

section
variable (k : Power7Knobs) (degree : UInt32)

/-- An access: `pc` and `address`. -/
structure Access where
  pc : UInt64
  address : UInt64

/-- The line of an address. -/
def lineOf (address : UInt64) : ℤ := (address >>> 6).toNat

/-- The trackers after some accesses. -/
def run (accesses : List Access) : List StrideTracker :=
  accesses.foldl (fun trackers a => (invokePrefetcher k a.pc a.address trackers degree).1) []

/-- The lines some strides away, from the `deg`-th on, up to the first one outside the page. -/
def linesFrom (line stride : ℤ) (deg n : ℕ) : List ℤ :=
  ((List.range' deg n).map fun i : ℕ => line + stride * i).takeWhile fun l => l / 64 = line / 64

/-- The access moves by `s` lines, which is the last stride of its tracker. -/
def Repeats (trackers : List StrideTracker) (a : Access) (s : ℤ) : Prop :=
  ∃ t, trackers.find? (·.pc = a.pc) = some t ∧ s = lineOf a.address - t.lastClAddr.toNat ∧
    s ≠ 0 ∧ s = t.lastStride.toInt

/-- What is issued when a stride repeats are the lines from one stride on to the degree, up to the
first one outside the page. -/
def PrefetchesAhead (trackers : List StrideTracker) (a : Access) : Prop :=
  ∀ s, Repeats trackers a s →
    (invokePrefetcher k a.pc a.address trackers degree).2.map (fun x => (x.toNat : ℤ)) =
      (linesFrom (lineOf a.address) s 1 degree.toNat).map (· * 64)

end

section
variable {k : Power7Knobs} {degree : UInt32} {a : Access} {trackers : List StrideTracker}
variable {address : UInt64} {stride : Int32} {s : ℤ}

/-! ## Words -/

theorem toInt_toInt32 (x : UInt32) : x.toInt32.toInt = (x.toNat : ℤ).bmod (2 ^ 32) :=
  BitVec.toInt_eq_toNat_bmod x.toBitVec

theorem lineOf_eq (address : UInt64) : lineOf address = ((address.toNat / 64 : ℕ) : ℤ) := by
  rw [lineOf, UInt64.toNat_shiftRight]
  rw [Nat.shiftRight_eq_div_pow]
  rfl

theorem toNat_offsetOf (address : UInt64) : (offsetOf address).toNat = address.toNat / 64 % 64 := by
  have hmask : (63 : UInt64).toNat = 2 ^ 6 - 1 := rfl
  rw [offsetOf, UInt64.toNat_toUInt32, UInt64.toNat_and, hmask, Nat.and_two_pow_sub_one_eq_mod,
    UInt64.toNat_shiftRight, Nat.shiftRight_eq_div_pow]
  show address.toNat / 64 % 64 % 2 ^ 32 = address.toNat / 64 % 64
  omega

/-- The address of a block of the page of an address. -/
theorem toNat_blockAddr (address : UInt64) {prefOffset : Int32} (h : inPage prefOffset) :
    ((blockAddr (pageOf address) prefOffset).toNat : ℤ) =
      (lineOf address / 64 * 64 + prefOffset.toInt) * 64 := by
  have h0 : 0 ≤ prefOffset.toInt := Int32.le_iff_toInt_le.1 h.1
  have h1 : prefOffset.toInt < 64 := Int32.lt_iff_toInt_lt.1 h.2
  have hlt := address.toNat_lt
  have hpage : (pageOf address <<< 12).toNat = address.toNat / 4096 * 4096 := by
    rw [pageOf, UInt64.toNat_shiftLeft, UInt64.toNat_shiftRight, Nat.shiftLeft_eq,
      Nat.shiftRight_eq_div_pow]
    show address.toNat / 4096 * 4096 % 2 ^ 64 = address.toNat / 4096 * 4096
    omega
  rw [blockAddr, UInt64.toNat_add, hpage, h.shiftLeft, lineOf_eq]
  omega

/-- The offset of the loop, cut to 32 bits. -/
theorem toInt_offset (address : UInt64) (stride : Int32) (deg : ℕ) :
    (offsetOf address + stride.toUInt32 * .ofNat deg).toInt32.toInt =
      ((offsetOf address).toNat + stride.toInt * deg).bmod (2 ^ 32) := by
  have hdeg : (Int32.ofNat deg).toInt = (deg : ℤ).bmod (2 ^ 32) := Int32.toInt_ofNat'
  have hsum : (offsetOf address + stride.toUInt32 * .ofNat deg).toInt32 =
      (offsetOf address).toInt32 + stride * .ofNat deg := rfl
  rw [hsum, Int32.toInt_add, Int32.toInt_mul, hdeg, Int.mul_bmod_bmod, Int.add_bmod_bmod,
    toInt_toInt32, Int.bmod_add_bmod]

/-- Where the value is less than a stride away from the page, cutting it makes no difference. -/
theorem inPage_offset {deg : ℕ}
    (hlow : -2 ^ 31 ≤ ((offsetOf address).toNat : ℤ) + stride.toInt * deg)
    (hhigh : ((offsetOf address).toNat : ℤ) + stride.toInt * deg < 2 ^ 31 + 64) :
    inPage (offsetOf address + stride.toUInt32 * .ofNat deg).toInt32 ↔
      0 ≤ ((offsetOf address).toNat : ℤ) + stride.toInt * deg ∧
        ((offsetOf address).toNat : ℤ) + stride.toInt * deg < 64 := by
  have h0 : (0 : Int32).toInt = 0 := rfl
  have h64 : (64 : Int32).toInt = 64 := rfl
  rw [inPage, Int32.le_iff_toInt_le, Int32.lt_iff_toInt_lt, toInt_offset, h0, h64, Int.bmod_def]
  generalize ((offsetOf address).toNat : ℤ) + stride.toInt * deg = v at *
  omega

/-- The lines that `generate_prefetch` issues. -/
theorem generatePrefetch_lines (address : UInt64) (stride : Int32) (n deg : ℕ)
    (hlow : -2 ^ 31 ≤ ((offsetOf address).toNat : ℤ) + stride.toInt * deg)
    (hhigh : ((offsetOf address).toNat : ℤ) + stride.toInt * deg < 2 ^ 31 + 64) :
    (generatePrefetch address stride n (.ofNat deg)).map (fun x => (x.toNat : ℤ)) =
      (linesFrom (lineOf address) stride.toInt deg n).map (· * 64) := by
  induction n generalizing deg with
  | zero => rfl
  | succ n ih =>
    have hin := inPage_offset hlow hhigh
    have hvalue := toInt_offset address stride deg
    have hline : lineOf address = lineOf address / 64 * 64 + (offsetOf address).toNat := by
      rw [toNat_offsetOf, lineOf_eq]
      omega
    have hstep : stride.toInt * ((deg + 1 : ℕ) : ℤ) = stride.toInt * deg + stride.toInt := by
      rw [Nat.cast_succ, mul_add, mul_one]
    have hs0 := stride.le_toInt
    have hs1 := stride.toInt_lt
    rw [generatePrefetch, linesFrom, List.range'_succ, List.map_cons]
    by_cases hpage : inPage (offsetOf address + stride.toUInt32 * .ofNat deg).toInt32
    · have hv := hin.1 hpage
      have hsame : (lineOf address + stride.toInt * deg) / 64 = lineOf address / 64 := by
        omega
      have hnext := ih (deg + 1) (by omega) (by omega)
      have hsucc : UInt32.ofNat deg + 1 = .ofNat (deg + 1) := (UInt32.ofNat_add deg 1).symm
      rw [if_pos hpage, List.map_cons, toNat_blockAddr address hpage, hvalue,
        List.takeWhile_cons_of_pos (by simpa using hsame), List.map_cons, hsucc, hnext, linesFrom]
      congr 1
      rw [Int.bmod_def]
      omega
    · have hsame : ¬ (lineOf address + stride.toInt * deg) / 64 = lineOf address / 64 := by
        rw [hin] at hpage
        omega
      rw [if_neg hpage, List.takeWhile_cons_of_neg (by simpa using hsame)]
      rfl

/-- The stride of the code is the distance, when this fits into 32 bits. -/
theorem strideOf_eq {clAddr lastClAddr : UInt64} {x : Int32}
    (h : (clAddr.toNat : ℤ) - lastClAddr.toNat = x.toInt) : strideOf clAddr lastClAddr = x := by
  have hx0 := x.le_toInt
  have hx1 := x.toInt_lt
  have hcut : ∀ y : UInt64, y.toUInt32.toInt32.toInt = (y.toNat : ℤ).bmod (2 ^ 32) := by
    intro y
    rw [toInt_toInt32, UInt64.toNat_toUInt32, Int.natCast_mod]
    exact Int.emod_bmod _ _
  rw [← Int32.toInt_inj, strideOf]
  split
  · rename_i hlt
    rw [hcut, UInt64.toNat_sub_of_le _ _ (UInt64.le_of_lt hlt)]
    rw [UInt64.lt_iff_toNat_lt] at hlt
    rw [Int.bmod_def]
    omega
  · split
    · rename_i hlt
      have hone : (-1 : Int32).toInt = -1 := rfl
      rw [Int32.toInt_mul, hcut, hone, UInt64.toNat_sub_of_le _ _ (UInt64.le_of_lt hlt),
        Int.bmod_mul_bmod]
      rw [UInt64.lt_iff_toNat_lt] at hlt
      rw [Int.bmod_def]
      omega
    · rename_i h₁ h₂
      rw [UInt64.lt_iff_toNat_lt] at h₁ h₂
      show 0 = x.toInt
      omega

/-! ## Runs -/

/-- The last strides are strides of the code. -/
def Strided (trackers : List StrideTracker) : Prop :=
  ∀ t ∈ trackers, ∃ x : Int32, t.lastStride = x.toInt64

theorem Strided.invokePrefetcher (h : Strided trackers) (pc address : UInt64) :
    Strided (invokePrefetcher k pc address trackers degree).1 := by
  rw [StridePrefetcher.invokePrefetcher]
  dsimp only
  split
  · intro t ht
    rcases List.mem_cons.1 ht with rfl | ht
    · exact ⟨0, rfl⟩
    · refine h t ?_
      split at ht
      · exact List.dropLast_subset _ ht
      · exact ht
  · split
    · exact h
    · intro t ht
      rcases List.mem_cons.1 ht with rfl | ht
      · exact ⟨_, rfl⟩
      · exact h t (List.mem_of_mem_eraseP ht)

theorem strided_run (accesses : List Access) : Strided (run k degree accesses) := by
  induction accesses using List.reverseRecOn with
  | nil =>
    intro t ht
    exact absurd ht List.not_mem_nil
  | append_singleton accesses a ih =>
    rw [run, List.foldl_append]
    exact ih.invokePrefetcher a.pc a.address

/-- What an access issues when its stride repeats: the line that was demanded comes first. -/
theorem issued_lines (h : Strided trackers) (hs : Repeats trackers a s) :
    (invokePrefetcher k a.pc a.address trackers degree).2.map (fun x => (x.toNat : ℤ)) =
      (linesFrom (lineOf a.address) s 0 degree.toNat).map (· * 64) := by
  obtain ⟨t, hfind, hmoved, hne, hlast⟩ := hs
  obtain ⟨x, hx⟩ := h t (List.mem_of_find?_eq_some hfind)
  rw [hx, Int32.toInt_toInt64] at hlast
  have hstride : strideOf (a.address >>> 6) t.lastClAddr = x := by
    refine strideOf_eq ?_
    rw [← hlast, hmoved, lineOf]
  have hx0 : x ≠ 0 := by
    rintro rfl
    exact hne hlast
  have hoffset := toNat_offsetOf a.address
  have hissue := generatePrefetch_lines a.address x degree.toNat 0 (by simp) (by simp; omega)
  rw [invokePrefetcher]
  simp only [hfind, hstride, hx, if_neg hx0, if_pos]
  rw [hlast]
  exact hissue

/-- The lines ahead do not begin with the demanded one. -/
theorem linesFrom_one_ne {line : ℤ} (hs : s ≠ 0) (m n : ℕ) :
    (linesFrom line s 1 m).map (· * 64) ≠ (linesFrom line s 0 (n + 1)).map (· * 64) := by
  intro heq
  have hhead : ((linesFrom line s 0 (n + 1)).map (· * 64)).head? = some (line * 64) := by
    rw [linesFrom, List.range'_succ, List.map_cons, Nat.cast_zero, mul_zero, add_zero,
      List.takeWhile_cons_of_pos (by simp), List.map_cons, List.head?_cons]
  rw [← heq] at hhead
  have hmem := List.mem_of_mem_head? hhead
  rw [List.mem_map] at hmem
  obtain ⟨l, hl, hline⟩ := hmem
  rw [linesFrom] at hl
  obtain ⟨i, hi, rfl⟩ := List.mem_map.1 (List.takeWhile_subset _ hl)
  have hpos := (List.mem_range'_1.1 hi).1
  have hzero : s * i = 0 := by omega
  rcases mul_eq_zero.1 hzero with h | h
  · exact hs h
  · omega

/-- In every run, an access whose stride repeats issues the lines ahead exactly when the degree is
zero. -/
theorem prefetchesAhead_iff (k : Power7Knobs) (degree : UInt32) (accesses : List Access)
    (a : Access) : PrefetchesAhead k degree (run k degree accesses) a ↔
      degree = 0 ∨ ∀ s, ¬ Repeats (run k degree accesses) a s := by
  have hstrided : Strided (run k degree accesses) := strided_run accesses
  constructor
  · intro h
    refine or_iff_not_imp_left.2 fun hdegree s hs => ?_
    have hpos : 0 < degree.toNat := by
      rw [Nat.pos_iff_ne_zero]
      intro hzero
      exact hdegree (UInt32.toNat_inj.1 hzero)
    obtain ⟨n, hn⟩ := Nat.exists_eq_add_one.2 hpos
    have hissued := (h s hs).symm.trans (issued_lines hstrided hs)
    rw [hn] at hissued
    obtain ⟨t, -, -, hne, -⟩ := hs
    exact linesFrom_one_ne hne (n + 1) n hissued
  · rintro (rfl | hnone) s hs
    · rw [issued_lines hstrided hs]
      rfl
    · exact absurd hs (hnone s)

/-- Three accesses of an instruction, a line apart. -/
def threeLines : List Access := [⟨1, 0x1000⟩, ⟨1, 0x1040⟩, ⟨1, 0x1080⟩]

/-- The fourth one issues the line it demands and not the one two strides ahead. -/
theorem demanded_line_prefetched : ¬ ∀ (k : Power7Knobs) (degree : UInt32)
    (accesses : List Access) (a : Access), PrefetchesAhead k degree (run k degree accesses) a := by
  intro h
  have hlines := h ⟨4, 4, 1, 1, 5⟩ 2 threeLines ⟨1, 0x10C0⟩ 1
    ⟨⟨1, 0x42, 1⟩, rfl, by decide, by decide, by decide⟩
  exact absurd hlines (by decide)

end

end StridePrefetcher

end Arishem
