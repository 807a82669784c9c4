import Mathlib.Data.List.Range
import Mathlib.Data.Nat.Basic
import Mathlib.Logic.Function.Basic

/-!
# Sets of numbers as bits of words

The number `x` is in the set when bit `x % w` of word `x / w` is set, where the words have `w` bits.
-/

namespace BitWords

variable {w n x y : ℕ} {b o : ℕ → BitVec w}

/-- The number's bit is set. -/
def Mem (b : ℕ → BitVec w) (x : ℕ) : Prop := (b (x / w)).getLsbD (x % w) = true

instance : Decidable (Mem b x) := by
  unfold Mem
  infer_instance

/-- Set the number's bit. -/
def setBit (b : ℕ → BitVec w) (x : ℕ) : ℕ → BitVec w :=
  Function.update b (x / w) (b (x / w) ||| 1#w <<< (x % w))

/-- Join the first words of another set. -/
def orWords (n : ℕ) (b o : ℕ → BitVec w) : ℕ → BitVec w := fun i =>
  if i < n then b i ||| o i else b i

theorem mem_setBit (hw : 0 < w) : Mem (setBit b x) y ↔ y = x ∨ Mem b y := by
  have hx := Nat.div_add_mod x w
  have hy := Nat.div_add_mod y w
  have hlt := Nat.mod_lt y hw
  rw [Mem, setBit]
  by_cases hword : y / w = x / w
  · rw [hword, Function.update_self, BitVec.getLsbD_or, BitVec.getLsbD_shiftLeft, Bool.or_eq_true,
      Mem, hword]
    have hbit : (decide (y % w < w) && !decide (y % w < x % w) &&
        (1#w).getLsbD (y % w - x % w)) = true ↔ y = x := by
      simp only [BitVec.getLsbD_one, Bool.and_eq_true, decide_eq_true_eq, Bool.not_eq_true',
        decide_eq_false_iff_not]
      constructor
      · intro h
        have heq : y % w = x % w := by omega
        rw [← hy, ← hx, hword, heq]
      · rintro rfl
        omega
    rw [hbit, or_comm]
  · have hne : y ≠ x := fun h => hword (by rw [h])
    rw [Function.update_of_ne hword, Mem]
    simp [hne]

theorem mem_orWords : Mem (orWords n b o) x ↔ Mem b x ∨ x / w < n ∧ Mem o x := by
  rw [Mem, Mem, Mem, orWords]
  split
  · rename_i hlt
    simp [hlt]
  · rename_i hlt
    simp [hlt]

/-- A word with no bit set. -/
theorem not_mem_of_zero (h : b (x / w) = 0) : ¬ Mem b x := by
  simp [Mem, h]

/-- A scan of the numbers from 0 on that stops at a bound. -/
theorem takeWhile_range (w c : ℕ) :
    ((List.range w).takeWhile fun j => decide (j < c)) = List.range (min w c) := by
  have hsplit : w = min w c + (w - min w c) := by omega
  conv_lhs => rw [hsplit, List.range_add]
  rw [List.takeWhile_append_of_pos]
  · cases hrest : w - min w c with
    | zero => simp
    | succ k =>
      have hhead : ¬ min w c < c := by omega
      rw [List.range_succ_eq_map, List.map_cons, List.takeWhile_cons_of_neg (by simpa using hhead),
        List.append_nil]
  · intro j hj
    have := List.mem_range.1 hj
    exact decide_eq_true (by omega)

/-- The bits of a word whose numbers are below `n`. -/
theorem takeWhile_word (w n m : ℕ) :
    ((List.range w).takeWhile fun j => decide (w * m + j < n)) =
      List.range (min w (n - w * m)) := by
  rw [← takeWhile_range]
  congr 1
  funext j
  exact decide_eq_decide.2 (by omega)

/-- The numbers below `n`, word by word. -/
theorem flatMap_range (w n m : ℕ) :
    ((List.range m).flatMap fun i =>
      ((List.range w).takeWhile fun j => decide (w * i + j < n)).map fun j => w * i + j) =
      List.range (min n (w * m)) := by
  induction m with
  | zero => simp
  | succ m ih =>
    rw [List.range_succ, List.flatMap_append, ih, List.flatMap_singleton, takeWhile_word,
      Nat.mul_succ]
    by_cases hm : w * m ≤ n
    · have hmin : min n (w * m + w) = w * m + min w (n - w * m) := by omega
      rw [hmin, List.range_add, Nat.min_eq_right hm]
    · have hzero : min w (n - w * m) = 0 := by omega
      have hmin : min n (w * m + w) = min n (w * m) := by omega
      rw [hzero, hmin]
      simp

end BitWords
