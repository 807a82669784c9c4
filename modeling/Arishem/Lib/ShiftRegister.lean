import Mathlib.Data.List.Basic

/-!
# Shift registers

A register into which one bit after the other is shifted has, in its lowest places, the last bits.
-/

namespace ShiftRegister

section
variable {w : ℕ} {x : BitVec w} {l : List Bool}

/-- The register after a bit. -/
def push (x : BitVec w) (b : Bool) : BitVec w := x <<< 1 ||| (BitVec.ofBool b).setWidth w

/-- The lowest places of a register have the last bits, the last one first. -/
def Holds (n : ℕ) (x : BitVec w) (l : List Bool) : Prop := ∀ i < n, x.getLsbD i = l.getD i false

theorem holds_zero (n : ℕ) : Holds n (0 : BitVec w) [] := fun i _ => by simp

theorem getLsbD_push (x : BitVec w) (b : Bool) (i : ℕ) : (push x b).getLsbD i =
    (decide (i < w) && if i = 0 then b else x.getLsbD (i - 1)) := by
  rw [push, BitVec.getLsbD_or, BitVec.getLsbD_shiftLeft, BitVec.getLsbD_setWidth]
  cases i with
  | zero => cases b <;> simp
  | succ i => simp

/-- A bit that enters moves the others up. -/
theorem Holds.push {n : ℕ} (hn : n ≤ w) (h : Holds n x l) (b : Bool) :
    Holds n (ShiftRegister.push x b) (b :: l) := by
  intro i hi
  rw [getLsbD_push, decide_eq_true (Nat.lt_of_lt_of_le hi hn), Bool.true_and]
  cases i with
  | zero => rfl
  | succ i =>
    rw [if_neg (Nat.succ_ne_zero i), Nat.add_sub_cancel, h i (Nat.lt_of_succ_lt hi)]
    rfl

end

end ShiftRegister
