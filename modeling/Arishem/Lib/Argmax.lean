import Mathlib.Order.Lattice
import Mathlib.Data.List.Range
import Mathlib.Data.Nat.Basic

/-!
# The first largest value

A scan keeps a best value and its place, and moves to a place whose value is larger. From the first
place on it finds the first of the largest values; above a floor it finds it only where some value
exceeds the floor.
-/

namespace Argmax

section
variable {α : Type*} [LinearOrder α] {f g : ℕ → α} {floor : α} {n a b : ℕ}

/-- The best value and its place after some places. -/
def scan (f : ℕ → α) (best : α × ℕ) (places : List ℕ) : α × ℕ :=
  places.foldl (fun best a => if best.1 < f a then (f a, a) else best) best

/-- The place of the first of the largest of the first `n` values. -/
structure IsFirst (f : ℕ → α) (n a : ℕ) : Prop where
  lt : a < n
  le : ∀ b < n, f b ≤ f a
  first : ∀ b < a, f b < f a

theorem scan_snoc (f : ℕ → α) (best : α × ℕ) (places : List ℕ) (a : ℕ) :
    scan f best (places ++ [a]) =
      if (scan f best places).1 < f a then (f a, a) else scan f best places := by
  rw [scan, List.foldl_append]
  rfl

theorem IsFirst.unique (ha : IsFirst f n a) (hb : IsFirst f n b) : a = b := by
  rcases lt_trichotomy a b with hab | hab | hab
  · exact absurd (hb.first a hab) (not_lt_of_ge (ha.le b hb.lt))
  · exact hab
  · exact absurd (ha.first b hab) (not_lt_of_ge (hb.le a ha.lt))

/-- The next value is the new best one, or the old one stays. -/
theorem IsFirst.succ (h : IsFirst f n a) : IsFirst f (n + 1) (if f a < f n then n else a) := by
  split
  · rename_i hlt
    refine ⟨Nat.lt_succ_self n, fun b hb => ?_, fun b hb => lt_of_le_of_lt (h.le b hb) hlt⟩
    rcases Nat.lt_succ_iff_lt_or_eq.1 hb with hb | rfl
    · exact (h.le b hb).trans hlt.le
    · exact le_rfl
  · rename_i hle
    refine ⟨Nat.lt_succ_of_lt h.lt, fun b hb => ?_, h.first⟩
    rcases Nat.lt_succ_iff_lt_or_eq.1 hb with hb | rfl
    · exact h.le b hb
    · exact le_of_not_gt hle

/-- A scan from the first place on finds the first largest value. -/
theorem scan_first (f : ℕ → α) (n : ℕ) :
    ∃ a, scan f (f 0, 0) (List.range' 1 n) = (f a, a) ∧ IsFirst f (n + 1) a := by
  induction n with
  | zero =>
    refine ⟨0, rfl, Nat.lt_succ_self 0, fun b hb => ?_, fun b hb => absurd hb (Nat.not_lt_zero b)⟩
    obtain rfl : b = 0 := by omega
    exact le_rfl
  | succ n ih =>
    obtain ⟨a, hscan, ha⟩ := ih
    refine ⟨_, ?_, ha.succ⟩
    rw [List.range'_concat, scan_snoc, hscan, Nat.one_mul, Nat.add_comm 1 n]
    split
    · rfl
    · rfl

/-- A scan above a floor finds the first largest value, if some value exceeds the floor. -/
theorem scan_floor_from (f : ℕ → α) (floor : α) (d n : ℕ) :
    scan f (floor, d) (List.range' 0 n) = (floor, d) ∧ (∀ b < n, f b ≤ floor) ∨
    ∃ a, scan f (floor, d) (List.range' 0 n) = (f a, a) ∧ floor < f a ∧ IsFirst f n a := by
  induction n with
  | zero => exact .inl ⟨rfl, fun b hb => absurd hb (Nat.not_lt_zero b)⟩
  | succ n ih =>
    rw [List.range'_concat, scan_snoc, Nat.one_mul, Nat.zero_add]
    rcases ih with ⟨hscan, hle⟩ | ⟨a, hscan, hfloor, ha⟩
    · rw [hscan]
      by_cases hlt : floor < f n
      · refine .inr ⟨n, if_pos hlt, hlt, Nat.lt_succ_self n, fun b hb => ?_,
          fun b hb => lt_of_le_of_lt (hle b hb) hlt⟩
        rcases Nat.lt_succ_iff_lt_or_eq.1 hb with hb | rfl
        · exact (hle b hb).trans hlt.le
        · exact le_rfl
      · refine .inl ⟨if_neg hlt, fun b hb => ?_⟩
        rcases Nat.lt_succ_iff_lt_or_eq.1 hb with hb | rfl
        · exact hle b hb
        · exact le_of_not_gt hlt
    · rw [hscan]
      refine .inr ⟨_, ?_, ?_, ha.succ⟩
      · split
        · rfl
        · rfl
      · split
        · exact hfloor.trans ‹_›
        · exact hfloor

theorem scan_floor (f : ℕ → α) (floor : α) (n : ℕ) :
    scan f (floor, 0) (List.range' 0 n) = (floor, 0) ∧ (∀ b < n, f b ≤ floor) ∨
    ∃ a, scan f (floor, 0) (List.range' 0 n) = (f a, a) ∧ floor < f a ∧ IsFirst f n a :=
  scan_floor_from f floor 0 n

theorem isFirst_zero_iff (hn : 0 < n) : IsFirst f n 0 ↔ ∀ b < n, f b ≤ f 0 :=
  ⟨IsFirst.le, fun h => ⟨hn, h, fun b hb => absurd hb (Nat.not_lt_zero b)⟩⟩

/-- Where the largest value is above a floor, values at most the floor do not matter. -/
theorem IsFirst.congr_of_floor (ha : IsFirst f n a) (hfloor : floor < f a)
    (h : ∀ b < n, g b = f b ∨ f b ≤ floor ∧ g b ≤ floor) : IsFirst g n a := by
  have hga : g a = f a := (h a ha.lt).resolve_right fun h => absurd hfloor (not_lt_of_ge h.1)
  refine ⟨ha.lt, fun b hb => ?_, fun b hb => ?_⟩
  · rcases h b hb with hb' | ⟨-, hb'⟩
    · rw [hga, hb']
      exact ha.le b hb
    · rw [hga]
      exact hb'.trans hfloor.le
  · rcases h b (hb.trans ha.lt) with hb' | ⟨-, hb'⟩
    · rw [hga, hb']
      exact ha.first b hb
    · rw [hga]
      exact lt_of_le_of_lt hb' hfloor

/-! ## The first smallest value -/

/-- The smallest value and its place, below a ceiling. -/
def scanMin (f : ℕ → α) (best : α × ℕ) (places : List ℕ) : α × ℕ :=
  places.foldl (fun best a => if f a < best.1 then (f a, a) else best) best

/-- A scan below a ceiling finds the first smallest value, if some value is below the ceiling. -/
theorem scanMin_ceiling (f : ℕ → α) (ceiling : α) (d n : ℕ) :
    scanMin f (ceiling, d) (List.range n) = (ceiling, d) ∧ (∀ b < n, ceiling ≤ f b) ∨
    ∃ a < n, scanMin f (ceiling, d) (List.range n) = (f a, a) ∧ f a < ceiling ∧
      (∀ b < n, f a ≤ f b) ∧ ∀ b < a, f a < f b := by
  rw [List.range_eq_range']
  rcases @scan_floor_from αᵒᵈ _ f ceiling d n with ⟨hscan, hle⟩ | ⟨a, hscan, hlt, ha⟩
  · exact .inl ⟨hscan, hle⟩
  · exact .inr ⟨a, ha.lt, hscan, hlt, ha.le, ha.first⟩

end

end Argmax
