import Mathlib.Tactic.Ring
import Arishem.Paging.Tables

/-!
# Page keys

The key of a virtual page in the page table is the page with the core's number rotated into its
upper bits. The rotation is by the logarithm of the number of cores, rounded down, so the number
stays above the pages of 52 bits exactly for the powers of two up to 4096.
-/

namespace Arishem

/-! ## The logarithm and the rotation -/

theorem lg2Loop_eq (m c : ℤ) : lg2Loop m c = if m = 0 then c else c + Nat.log2 m.natAbs + 1 := by
  fun_induction lg2Loop m c with
  | case1 c => rw [if_pos rfl]
  | case2 m c hm ih =>
    rw [ih, if_neg hm]
    by_cases hhalf : m.tdiv 2 = 0
    · have hone : m.natAbs = 1 := by
        have habs := Int.natAbs_tdiv m 2
        rw [hhalf] at habs
        have hlt : m.natAbs / 2 = 0 := habs.symm
        omega
      rw [if_pos hhalf, hone, show Nat.log2 1 = 0 by decide]
      simp
    · have hhalf' : (m.tdiv 2).natAbs = m.natAbs / 2 := Int.natAbs_tdiv m 2
      have htwo : 2 ≤ m.natAbs := by
        by_contra hlt
        exact hhalf (Int.natAbs_eq_zero.1 (hhalf'.trans (by omega)))
      rw [if_neg hhalf, hhalf', Nat.log2_def m.natAbs, if_pos htwo]
      push_cast
      ring

theorem lg2_eq {n : ℤ} (hn : n ≠ 0) : lg2 n = Nat.log2 n.natAbs := by
  rw [lg2, lg2Loop_eq, if_neg hn]
  ring

theorem rotr64_eq {k : ℕ} (hk : k < 32) (n : UInt64) :
    rotr64 n (UInt32.ofNat k) =
      some ((n >>> UInt64.ofNat k) ||| (n <<< UInt64.ofNat ((64 - k) % 64))) := by
  have hle : ∀ k < 32, UInt32.ofNat k ≤ 63 := by decide
  have hright : ∀ k < 32, (UInt32.ofNat k).toUInt64 = UInt64.ofNat k := by decide
  have hleft : ∀ k < 32, ((-UInt32.ofNat k) &&& 63).toUInt64 = UInt64.ofNat ((64 - k) % 64) := by
    decide
  rw [rotr64, if_pos (hle k hk), hright k hk, hleft k hk]

namespace PagingConfig

variable (cfg : PagingConfig)

/-- The bits by which the number of a core is rotated. -/
def rotation : ℕ := Nat.log2 cfg.numCpusInt.natAbs

/-- The number of cores is a power of two up to 4096. -/
def PowerOfTwo : Prop := ∃ k ≤ 12, cfg.numCpus = 2 ^ k

/-- The number of cores is a multiple of `2 ^ 32`, which is zero as an `int`. -/
def Overflows : Prop := 0x100000000 ∣ cfg.numCpus

variable {cfg}

theorem numCpusInt_def : cfg.numCpusInt = (cfg.numCpus : ℤ).bmod 0x100000000 := rfl

theorem numCpusInt_eq_zero : cfg.numCpusInt = 0 ↔ cfg.Overflows := by
  rw [numCpusInt_def, Overflows, ← Int.dvd_iff_bmod_eq_zero]
  norm_cast

theorem natAbs_numCpusInt_le : cfg.numCpusInt.natAbs ≤ cfg.numCpus ∧
    cfg.numCpusInt.natAbs ≤ 2 ^ 31 := by
  rw [numCpusInt_def, Int.bmod_def]
  norm_num
  split <;> omega

theorem rotation_lt : cfg.rotation < 32 := by
  rw [rotation]
  rcases Nat.eq_zero_or_pos cfg.numCpusInt.natAbs with h | h
  · rw [h, show Nat.log2 0 = 0 by decide]
    exact Nat.zero_lt_succ 31
  · refine (Nat.log2_lt h.ne').2 (natAbs_numCpusInt_le.2.trans_lt ?_)
    exact Nat.pow_lt_pow_right one_lt_two (Nat.lt_succ_self 31)

end PagingConfig

section
variable {cfg : PagingConfig} {cpu cpu' : UInt32} {v v' : Addr}

theorem highBitMask_eq (h : ¬ cfg.Overflows) (cpu : UInt32) :
    highBitMask cfg cpu = some ((cpu.toUInt64 >>> UInt64.ofNat cfg.rotation) |||
      (cpu.toUInt64 <<< UInt64.ofNat ((64 - cfg.rotation) % 64))) := by
  have hne : cfg.numCpusInt ≠ 0 := fun h0 => h (PagingConfig.numCpusInt_eq_zero.1 h0)
  have hcast : UInt32.ofInt (cfg.rotation : ℤ) = UInt32.ofNat cfg.rotation := by
    have hlt : (cfg.rotation : ℤ) < 2 ^ 32 :=
      (Int.ofNat_lt.2 PagingConfig.rotation_lt).trans (by decide)
    rw [UInt32.ofInt, Int.emod_eq_of_lt (Int.natCast_nonneg _) hlt, Int.toNat_natCast]
  rw [highBitMask, lg2_eq hne, ← rotr64_eq PagingConfig.rotation_lt, ← hcast,
    PagingConfig.rotation]

theorem highBitMask_of_overflows (h : cfg.Overflows) (cpu : UInt32) :
    highBitMask cfg cpu = none := by
  rw [highBitMask, PagingConfig.numCpusInt_eq_zero.2 h]
  have hlg : lg2 0 = -1 := by rw [lg2, lg2Loop_eq, if_pos rfl]
  rw [hlg]
  rfl

/-- The key under which the page of a core is looked up. -/
def pageKey (cfg : PagingConfig) (cpu : UInt32) (v : Addr) : Option Addr :=
  (highBitMask cfg cpu).map (v ||| ·)

/-! ## Powers of two -/

theorem PagingConfig.PowerOfTwo.not_overflows (h : cfg.PowerOfTwo) : ¬ cfg.Overflows := by
  obtain ⟨k, hk, hn⟩ := h
  rintro ⟨d, hd⟩
  have hle : 2 ^ k ≤ 2 ^ 12 := Nat.pow_le_pow_right (by decide) hk
  have hpos : 0 < 2 ^ k := Nat.two_pow_pos k
  omega

theorem rotation_of_powerOfTwo {k : ℕ} (hk : k ≤ 12) (hn : cfg.numCpus = 2 ^ k) :
    cfg.rotation = k := by
  have hle : 2 ^ k ≤ 2 ^ 12 := Nat.pow_le_pow_right (by decide) hk
  have hcpus : cfg.numCpus ≤ 4096 := hn.trans_le hle
  have hint : cfg.numCpusInt = cfg.numCpus := by
    rw [PagingConfig.numCpusInt_def, Int.bmod_def]
    norm_num
    omega
  rw [PagingConfig.rotation, hint, Int.natAbs_natCast, hn, Nat.log2_two_pow]

/-- The mask of a core is its number in the upper bits. -/
theorem highBitMask_toNat {k : ℕ} (hk : k ≤ 12) (hn : cfg.numCpus = 2 ^ k)
    (hcpu : cpu.toNat < cfg.numCpus) {mask : UInt64} (hm : highBitMask cfg cpu = some mask) :
    mask.toNat = 2 ^ (64 - k) * cpu.toNat := by
  rw [highBitMask_eq (PagingConfig.PowerOfTwo.not_overflows ⟨k, hk, hn⟩),
    rotation_of_powerOfTwo hk hn] at hm
  obtain rfl := Option.some.inj hm
  rw [hn] at hcpu
  have hright : cpu.toNat >>> (k % 2 ^ 64 % 64) = 0 := by
    rw [Nat.mod_eq_of_lt (by omega : k < 2 ^ 64), Nat.mod_eq_of_lt (by omega : k < 64),
      Nat.shiftRight_eq_div_pow, Nat.div_eq_of_lt hcpu]
  rw [UInt64.toNat_or, UInt64.toNat_shiftRight, UInt64.toNat_shiftLeft, UInt32.toNat_toUInt64,
    UInt64.toNat_ofNat', UInt64.toNat_ofNat', hright, Nat.zero_or]
  rcases Nat.eq_zero_or_pos k with rfl | hpos
  · have hzero : cpu.toNat = 0 := by omega
    rw [hzero]
    rfl
  · have hshift : (64 - k) % 64 % 2 ^ 64 % 64 = 64 - k := by omega
    have hlt : 2 ^ (64 - k) * cpu.toNat < 2 ^ 64 := by
      calc 2 ^ (64 - k) * cpu.toNat < 2 ^ (64 - k) * 2 ^ k :=
            Nat.mul_lt_mul_of_pos_left hcpu (Nat.two_pow_pos _)
        _ = 2 ^ 64 := by rw [← Nat.pow_add, Nat.sub_add_cancel (by omega)]
    rw [hshift, Nat.shiftLeft_eq, Nat.mul_comm, Nat.mod_eq_of_lt hlt]

/-- The key is the page below the number of its core. -/
theorem pageKey_toNat {k : ℕ} (hk : k ≤ 12) (hn : cfg.numCpus = 2 ^ k)
    (hcpu : cpu.toNat < cfg.numCpus) (hv : v.toNat < 2 ^ 52) {key : Addr}
    (h : pageKey cfg cpu v = some key) : key.toNat = 2 ^ (64 - k) * cpu.toNat + v.toNat := by
  obtain ⟨mask, hm, rfl⟩ := Option.map_eq_some_iff.1 h
  have hv' : v.toNat < 2 ^ (64 - k) :=
    hv.trans_le (Nat.pow_le_pow_right (by decide) (by omega))
  rw [UInt64.toNat_or, highBitMask_toNat hk hn hcpu hm, Nat.or_comm,
    Nat.two_pow_add_eq_or_of_lt hv']

/-- Different pages of the cores have different keys. -/
theorem pageKey_inj (h : cfg.PowerOfTwo) (hcpu : cpu.toNat < cfg.numCpus)
    (hcpu' : cpu'.toNat < cfg.numCpus) (hv : v.toNat < 2 ^ 52) (hv' : v'.toNat < 2 ^ 52) {key : Addr}
    (hkey : pageKey cfg cpu v = some key) (hkey' : pageKey cfg cpu' v' = some key) :
    cpu = cpu' ∧ v = v' := by
  obtain ⟨k, hk, hn⟩ := h
  have heq := pageKey_toNat hk hn hcpu hv hkey
  rw [pageKey_toNat hk hn hcpu' hv' hkey'] at heq
  have hw : v.toNat < 2 ^ (64 - k) :=
    hv.trans_le (Nat.pow_le_pow_right (by decide) (by omega))
  have hw' : v'.toNat < 2 ^ (64 - k) :=
    hv'.trans_le (Nat.pow_le_pow_right (by decide) (by omega))
  have hdiv := congrArg (· / 2 ^ (64 - k)) heq
  simp only [Nat.mul_add_div (Nat.two_pow_pos _), Nat.div_eq_of_lt hw, Nat.div_eq_of_lt hw',
    Nat.add_zero] at hdiv
  refine ⟨UInt32.toNat_inj.1 hdiv.symm, UInt64.toNat_inj.1 ?_⟩
  rw [hdiv] at heq
  omega

/-- The mask keeps the page offset. -/
theorem offset_of_powerOfTwo (h : cfg.PowerOfTwo) (hcpu : cpu.toNat < cfg.numCpus) {mask : UInt64}
    (hm : highBitMask cfg cpu = some mask) (va : Addr) :
    (va ||| mask) &&& pageOffset = va &&& pageOffset := by
  obtain ⟨k, hk, hn⟩ := h
  have hoff : pageOffset.toNat = 2 ^ 12 - 1 := by decide
  have hmask : mask.toNat % 2 ^ 12 = 0 := by
    rw [highBitMask_toNat hk hn hcpu hm]
    refine Nat.mod_eq_zero_of_dvd ((Nat.pow_dvd_pow 2 ?_).trans (Nat.dvd_mul_right _ _))
    omega
  refine UInt64.toNat_inj.1 ?_
  rw [UInt64.toNat_and, UInt64.toNat_and, UInt64.toNat_or, hoff, Nat.and_two_pow_sub_one_eq_mod,
    Nat.and_two_pow_sub_one_eq_mod, Nat.or_mod_two_pow, hmask, Nat.or_zero]

end

end Arishem
