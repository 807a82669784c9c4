import Mathlib.Data.Finset.Sort
import Mathlib.Logic.Function.Basic
import Mathlib.Order.Basic

/-!
# Sorted arrays

The first `c` cells of an array hold different values in increasing order. A loop finds the place of
a value, another one moves the values behind it up by one cell to make room, and a search halves the
range of the cells where the value can be.
-/

namespace Sorted

/-! ## Room for a value -/

section
variable {α : Type*} {c i : ℕ} {x : α} {v : ℕ → α}

/-- The values from the cell `i` on move up by one cell, the last one first. -/
def moveUp (i c : ℕ) (v : ℕ → α) : ℕ → α :=
  (List.range' i (c - i)).reverse.foldl (fun v j => Function.update v (j + 1) (v j)) v

/-- The cells after the moves. -/
theorem moveUp_apply (v : ℕ → α) (k : ℕ) :
    moveUp i c v k = if i < k ∧ k ≤ c then v (k - 1) else v k := by
  induction c generalizing v with
  | zero => rw [if_neg (by omega)]; simp [moveUp]
  | succ c ih =>
    by_cases hic : i ≤ c
    · have hmove : moveUp i (c + 1) v = moveUp i c (Function.update v (c + 1) (v c)) := by
        have hlen : c + 1 - i = (c - i) + 1 := by omega
        have hlast : i + 1 * (c - i) = c := by omega
        simp only [moveUp]
        rw [hlen, List.range'_concat, hlast, List.reverse_append]
        rfl
      rw [hmove, ih]
      rcases eq_or_ne k (c + 1) with rfl | hk
      · simp [Nat.lt_succ_of_le hic]
      · by_cases hik : i < k ∧ k ≤ c
        · rw [if_pos hik, if_pos ⟨hik.1, by omega⟩, Function.update_of_ne (by omega)]
        · rw [if_neg hik, if_neg (by omega), Function.update_of_ne hk]
    · have hlen : c + 1 - i = 0 := by omega
      rw [if_neg (by omega), moveUp, hlen]
      rfl

/-- The cells after an insertion. -/
theorem insert_apply (k : ℕ) : Function.update (moveUp i c v) i x k =
    if k < i then v k else if k = i then x else if k ≤ c then v (k - 1) else v k := by
  rcases lt_trichotomy k i with hk | rfl | hk
  · rw [Function.update_of_ne hk.ne, moveUp_apply, if_neg (by omega), if_pos hk]
  · simp
  · rw [Function.update_of_ne hk.ne', moveUp_apply, if_neg hk.not_gt, if_neg hk.ne']
    simp only [hk, true_and]

end

/-! ## The order -/

section
variable {α : Type*} [LinearOrder α] {c i : ℕ} {x y : α} {v : ℕ → α}

/-- The first `c` values increase. -/
def Increasing (c : ℕ) (v : ℕ → α) : Prop := ∀ i j, i < j → j < c → v i < v j

/-- A value is among the first `c`. -/
def Holds (c : ℕ) (v : ℕ → α) (x : α) : Prop := ∃ i < c, v i = x

/-- The first cell whose value is the one sought or above it, or the cell after the last. -/
def place (x : α) (c : ℕ) (v : ℕ → α) : ℕ :=
  ((List.range c).find? fun i => v i == x || decide (x < v i)).getD c

/-- A search between two cells that halves the range in each round. -/
def bisect (x : α) (v : ℕ → α) (first last : ℤ) : Bool :=
  let middle := (first + last) / 2
  let y := v middle.toNat
  if x < y then
    if middle - 1 < first then false else bisect x v first (middle - 1)
  else if y < x then
    if last < middle + 1 then false else bisect x v (middle + 1) last
  else true
termination_by (last - first).toNat

/-! ## The place of a value -/

theorem place_le : place x c v ≤ c := by
  rw [place]
  cases hf : (List.range c).find? fun i => v i == x || decide (x < v i) with
  | none => exact le_refl _
  | some i => exact (List.mem_range.1 (List.mem_of_find?_eq_some hf)).le

/-- The values before the place are smaller. -/
theorem lt_of_lt_place (hi : i < place x c v) : v i < x := by
  rw [place] at hi
  cases hf : (List.range c).find? fun i => v i == x || decide (x < v i) with
  | none =>
    rw [hf] at hi
    have hnot := List.find?_eq_none.1 hf i (List.mem_range.2 hi)
    simp only [Bool.or_eq_true, beq_iff_eq, decide_eq_true_eq, not_or, not_lt] at hnot
    exact lt_of_le_of_ne hnot.2 hnot.1
  | some k =>
    rw [hf] at hi
    have hnot := (List.find?_range_eq_some.1 hf).2.2 i hi
    simp only [Bool.not_eq_true', Bool.or_eq_false_iff, beq_eq_false_iff_ne,
      decide_eq_false_iff_not, not_lt] at hnot
    exact lt_of_le_of_ne hnot.2 hnot.1

/-- The value at the place is the one sought or above it. -/
theorem le_place (hlt : place x c v < c) : x ≤ v (place x c v) := by
  rw [place] at hlt ⊢
  cases hf : (List.range c).find? fun i => v i == x || decide (x < v i) with
  | none =>
    rw [hf] at hlt
    exact absurd hlt (lt_irrefl c)
  | some k =>
    have hk := (List.find?_range_eq_some.1 hf).1
    simp only [Bool.or_eq_true, beq_iff_eq, decide_eq_true_eq] at hk
    rcases hk with hk | hk
    · exact hk.symm.le
    · exact hk.le

/-- In an increasing array the value is at its place, if anywhere. -/
theorem holds_iff_place (h : Increasing c v) :
    Holds c v x ↔ place x c v < c ∧ v (place x c v) = x := by
  refine ⟨fun ⟨i, hi, hv⟩ => ?_, fun ⟨hlt, hv⟩ => ⟨_, hlt, hv⟩⟩
  rcases lt_trichotomy i (place x c v) with hip | rfl | hip
  · exact absurd hv (lt_of_lt_place hip).ne
  · exact ⟨hi, hv⟩
  · have hle := le_place (hip.trans hi)
    have hlt := h _ _ hip hi
    exact absurd hv (lt_of_le_of_lt hle hlt).ne'

/-! ## Insertion -/

/-- An insertion at the place keeps the order. -/
theorem Increasing.insert (h : Increasing c v) (hx : ¬ Holds c v x) :
    Increasing (c + 1) (Function.update (moveUp (place x c v) c v) (place x c v) x) := by
  have habove : ∀ j, place x c v ≤ j → j < c → x < v j := by
    intro j hj hjc
    have hle := le_place (lt_of_le_of_lt hj hjc)
    have hlt : x < v (place x c v) :=
      lt_of_le_of_ne hle fun he => hx ⟨_, lt_of_le_of_lt hj hjc, he.symm⟩
    rcases eq_or_lt_of_le hj with heq | hlt'
    · rwa [← heq]
    · exact hlt.trans (h _ _ hlt' hjc)
  intro j k hjk hk
  rw [insert_apply, insert_apply]
  by_cases hj : j < place x c v
  · rw [if_pos hj]
    have hvj := lt_of_lt_place hj
    split
    · exact h j k hjk (by have := place_le (x := x) (c := c) (v := v); omega)
    split
    · exact hvj
    · rw [if_pos (by omega)]
      exact hvj.trans (habove (k - 1) (by omega) (by omega))
  · rw [if_neg hj, if_neg (by omega : ¬ k < place x c v), if_neg (by omega : ¬ k = place x c v),
      if_pos (by omega : k ≤ c)]
    split
    · exact habove (k - 1) (by omega) (by omega)
    · rw [if_pos (by omega)]
      exact h _ _ (by omega) (by omega)

/-- An insertion at the place adds the value. -/
theorem holds_insert :
    Holds (c + 1) (Function.update (moveUp (place x c v) c v) (place x c v) x) y ↔
      y = x ∨ Holds c v y := by
  have hle : place x c v ≤ c := place_le
  constructor
  · rintro ⟨k, hk, hv⟩
    rw [insert_apply] at hv
    split at hv
    · exact .inr ⟨k, by omega, hv⟩
    split at hv
    · exact .inl hv.symm
    · rw [if_pos (by omega)] at hv
      exact .inr ⟨k - 1, by omega, hv⟩
  · rintro (rfl | ⟨k, hk, hv⟩)
    · exact ⟨place y c v, by omega, by simp⟩
    · by_cases hkp : k < place x c v
      · exact ⟨k, by omega, by rw [insert_apply, if_pos hkp, hv]⟩
      · refine ⟨k + 1, by omega, ?_⟩
        rw [insert_apply, if_neg (by omega), if_neg (by omega), if_pos (by omega),
          Nat.add_sub_cancel, hv]

/-! ## The search -/

/-- The order of two values is that of their cells. -/
theorem Increasing.lt_iff (h : Increasing c v) {j : ℕ} (hi : i < c) (hj : j < c) :
    v i < v j ↔ i < j := by
  refine ⟨fun hlt => ?_, fun hij => h i j hij hj⟩
  rcases lt_trichotomy i j with hij | rfl | hji
  · exact hij
  · exact absurd hlt (lt_irrefl _)
  · exact absurd hlt (h j i hji hi).not_gt

/-- The search decides whether the value is in the range. -/
theorem bisect_iff (h : Increasing c v) (first last : ℤ) (h0 : 0 ≤ first) (hl : first ≤ last)
    (hc : last < c) : bisect x v first last = true ↔
      ∃ i : ℕ, first ≤ i ∧ (i : ℤ) ≤ last ∧ v i = x := by
  induction first, last using bisect.induct (x := x) (v := v) with
  | case1 first last middle y hxy hend =>
    have hm : (middle.toNat : ℤ) = (first + last) / 2 := Int.toNat_of_nonneg (by omega)
    rw [bisect, if_pos hxy, if_pos hend]
    refine ⟨nofun, fun ⟨i, hfi, hil, hv⟩ => ?_⟩
    have hlt := (h.lt_iff (by omega) (by omega)).1 (hv.symm ▸ hxy : v i < v middle.toNat)
    omega
  | case2 first last middle y hxy hend ih =>
    have hm : (middle.toNat : ℤ) = (first + last) / 2 := Int.toNat_of_nonneg (by omega)
    rw [bisect, if_pos hxy, if_neg hend, ih h0 (by omega) (by omega)]
    refine ⟨fun ⟨i, hfi, hil, hv⟩ => ⟨i, hfi, by omega, hv⟩, fun ⟨i, hfi, hil, hv⟩ => ?_⟩
    have hlt := (h.lt_iff (by omega) (by omega)).1 (hv.symm ▸ hxy : v i < v middle.toNat)
    exact ⟨i, hfi, by omega, hv⟩
  | case3 first last middle y hxy hyx hend =>
    have hm : (middle.toNat : ℤ) = (first + last) / 2 := Int.toNat_of_nonneg (by omega)
    rw [bisect, if_neg hxy, if_pos hyx, if_pos hend]
    refine ⟨nofun, fun ⟨i, hfi, hil, hv⟩ => ?_⟩
    have hlt := (h.lt_iff (by omega) (by omega)).1 (hv.symm ▸ hyx : v middle.toNat < v i)
    omega
  | case4 first last middle y hxy hyx hend ih =>
    have hm : (middle.toNat : ℤ) = (first + last) / 2 := Int.toNat_of_nonneg (by omega)
    rw [bisect, if_neg hxy, if_pos hyx, if_neg hend, ih (by omega) (by omega) hc]
    refine ⟨fun ⟨i, hfi, hil, hv⟩ => ⟨i, by omega, hil, hv⟩, fun ⟨i, hfi, hil, hv⟩ => ?_⟩
    have hlt := (h.lt_iff (by omega) (by omega)).1 (hv.symm ▸ hyx : v middle.toNat < v i)
    exact ⟨i, by omega, hil, hv⟩
  | case5 first last middle y hxy hyx =>
    have hm : (middle.toNat : ℤ) = (first + last) / 2 := Int.toNat_of_nonneg (by omega)
    rw [bisect, if_neg hxy, if_neg hyx]
    have heq : v middle.toNat = x := le_antisymm (not_lt.1 hxy) (not_lt.1 hyx)
    exact ⟨fun _ => ⟨middle.toNat, by omega, by omega, heq⟩, fun _ => rfl⟩

/-! ## The listed values -/

/-- A list in increasing order is the sorted list of its elements. -/
theorem eq_sort {l : List α} {s : Finset α} (h : l.Pairwise (· < ·)) (hs : ∀ x, x ∈ l ↔ x ∈ s) :
    l = s.sort ∧ l.length = s.card := by
  have hset : l.toFinset = s := by
    ext x
    rw [List.mem_toFinset, hs]
  have hnodup : l.Nodup := h.imp ne_of_lt
  rw [← hset, List.toFinset_card_of_nodup hnodup]
  exact ⟨((List.toFinset_sort (· ≤ ·) hnodup).2 (h.imp le_of_lt)).symm, rfl⟩

/-- The first values, listed. -/
theorem Increasing.pairwise (h : Increasing c v) : ((List.range c).map v).Pairwise (· < ·) := by
  rw [List.pairwise_map]
  exact List.pairwise_lt_range.imp_of_mem fun {i j} _ hj hij => h i j hij (List.mem_range.1 hj)

end

end Sorted
