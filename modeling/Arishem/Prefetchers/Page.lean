import Mathlib.Data.Nat.Notation

/-!
# The blocks of a page

What the prefetchers take from an address: its page and the offset of its block in the page. They
prefetch inside the page only.
-/

namespace Arishem

/-- `address >> LOG2_PAGE_SIZE`. -/
def pageOf (address : UInt64) : UInt64 := address >>> 12

/-- The offset of the block in its page. -/
def offsetOf (address : UInt64) : UInt32 := ((address >>> 6) &&& 63).toUInt32

/-- The address of a block of a page. -/
def blockAddr (page : UInt64) (prefOffset : Int32) : UInt64 :=
  (page <<< 12) + (prefOffset <<< 6).toInt64.toUInt64

/-- The offset falls within the page. -/
def inPage (prefOffset : Int32) : Prop := 0 ≤ prefOffset ∧ prefOffset < 64

instance decidableInPage (prefOffset : Int32) : Decidable (inPage prefOffset) :=
  inferInstanceAs (Decidable (_ ∧ _))

/-- The offset of a block inside its page, in bytes. -/
theorem inPage.shiftLeft {prefOffset : Int32} (h : inPage prefOffset) :
    (prefOffset <<< 6).toInt64.toUInt64.toNat = prefOffset.toInt.toNat * 64 := by
  have h0 : 0 ≤ prefOffset.toInt := Int32.le_iff_toInt_le.1 h.1
  have h1 : prefOffset.toInt < 64 := Int32.lt_iff_toInt_lt.1 h.2
  obtain ⟨n, hn⟩ := Int.eq_ofNat_of_zero_le h0
  have hlt : n < 64 := by omega
  have hoffset : prefOffset = Int32.ofNat n := by
    apply Int32.toInt_inj.1
    rw [hn, Int32.toInt_ofNat_of_lt (by omega)]
  have hall : ∀ m : Fin 64, ((Int32.ofNat m) <<< 6).toInt64.toUInt64.toNat = m * 64 := by
    decide +kernel
  have hshift := hall ⟨n, hlt⟩
  rw [hn, hoffset]
  simpa using hshift

/-- A block of a page begins at a multiple of its size. -/
theorem blockAddr_mod (page : UInt64) {prefOffset : Int32} (h : inPage prefOffset) :
    (blockAddr page prefOffset).toNat % 64 = 0 := by
  have hpage : (12 : UInt64).toNat % 64 = 12 := rfl
  rw [blockAddr, UInt64.toNat_add, UInt64.toNat_shiftLeft, h.shiftLeft, hpage, Nat.shiftLeft_eq]
  omega

/-- Different blocks of a page have different addresses. -/
theorem blockAddr_inj {page : UInt64} {a b : Int32} (ha : inPage a) (hb : inPage b)
    (h : blockAddr page a = blockAddr page b) : a = b := by
  have ha0 : 0 ≤ a.toInt := Int32.le_iff_toInt_le.1 ha.1
  have ha1 : a.toInt < 64 := Int32.lt_iff_toInt_lt.1 ha.2
  have hb0 : 0 ≤ b.toInt := Int32.le_iff_toInt_le.1 hb.1
  have hb1 : b.toInt < 64 := Int32.lt_iff_toInt_lt.1 hb.2
  have hnat := congrArg UInt64.toNat h
  rw [blockAddr, blockAddr, UInt64.toNat_add, UInt64.toNat_add, ha.shiftLeft,
    hb.shiftLeft] at hnat
  rw [← Int32.toInt_inj]
  omega

/-- A block of a page is inside it. -/
theorem pageOf_blockAddr (address : UInt64) {prefOffset : Int32} (h : inPage prefOffset) :
    pageOf (blockAddr (pageOf address) prefOffset) = pageOf address := by
  have hlt := address.toNat_lt
  have h0 : 0 ≤ prefOffset.toInt := Int32.le_iff_toInt_le.1 h.1
  have h1 : prefOffset.toInt < 64 := Int32.lt_iff_toInt_lt.1 h.2
  have hbits : (12 : UInt64).toNat % 64 = 12 := rfl
  rw [← UInt64.toNat_inj, blockAddr, pageOf, pageOf, UInt64.toNat_shiftRight, UInt64.toNat_add,
    h.shiftLeft, UInt64.toNat_shiftLeft, UInt64.toNat_shiftRight, hbits, Nat.shiftLeft_eq,
    Nat.shiftRight_eq_div_pow, Nat.shiftRight_eq_div_pow]
  omega

end Arishem
